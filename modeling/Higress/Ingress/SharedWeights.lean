import Mathlib.Logic.Function.Basic
import Higress.Ingress.Weights
import Higress.Lib.Run

/-!
Destinations in memory. The routes of an ingress with a destination annotation are all given the
list of destinations that was parsed once, so they have the same destinations in the same array.
Canaries are appended to the list of a route, in place if there is room behind it, and normalising
a route writes to the weights of its destinations. Either may change what another route has.

`weights_alone` says when it does not: then every route ends with the weights that it would have
if it were the only one, whatever the order of the steps is.
-/

namespace Higress.Ingress.Shared

open Lib

/-! ### Memory -/

/-- An `HTTPRouteDestination` is one of the list of an annotation, that of the service of a route,
or that of the service of a canary path. -/
inductive DestinationRef
  | annotated (ingress index : ℕ)
  | service (route : ℕ)
  | canary (path : ℕ)
  deriving DecidableEq

/-- The array behind a slice: that of an annotation, or one that was made for a route when its
slice had the given length. -/
inductive ArrayRef
  | annotated (ingress : ℕ)
  | own (route len : ℕ)
  deriving DecidableEq

/-- An array, as far as it has been written. -/
structure Backing where
  slots : List DestinationRef
  cap : ℕ

/-- A route: its slice of destinations, which starts at the first slot, and its total. -/
structure Route where
  array : ArrayRef
  len : ℕ
  weightTotal : ℤ

structure Memory where
  weight : DestinationRef → ℤ
  backing : ArrayRef → Backing
  routes : ℕ → Option Route
  /-- A list was indexed that is empty, or a weight was divided by zero. -/
  failed : Bool

def Memory.destinations (m : Memory) (r : Route) : List DestinationRef :=
  (m.backing r.array).slots.take r.len

def Memory.weights (m : Memory) (r : Route) : List ℤ := (m.destinations r).map m.weight

/-! ### Conversion -/

/-- A path of an ingress that becomes a route. -/
structure Path where
  ingress : ℕ
  resource : Bool

/-- The canary path: a service of its own, or the annotation of its ingress. -/
inductive CanaryBackend
  | service (path : ℕ)
  | annotated (ingress : ℕ)

/-- What is done to a route. -/
inductive Step
  | merge (route : ℕ) (backend : CanaryBackend) (weight weightTotal : ℤ)
  | normalize (route : ℕ)

def Step.route : Step → ℕ
  | .merge i _ _ _ => i
  | .normalize i => i

section Conversion

-- the weights of the destination annotation of each ingress, and the capacities that `append`
-- chooses for a slice that it made element by element and for one that was full
variable (annotations : ℕ → Option (List ℤ)) (parsedCap grownCap : ℕ → ℕ) (conversion : Conversion)

/-- The destinations of an annotation. -/
def parsed (k : ℕ) : List DestinationRef :=
  (List.range ((annotations k).getD []).length).map (.annotated k)

/-- The route of a path, if its backend is valid. -/
def routeOf (i : ℕ) (p : Path) : Option Route :=
  let weightTotal := toInt32 ((annotations p.ingress).getD []).sum
  if p.resource then
    (annotations p.ingress).map fun weights => ⟨.annotated p.ingress, weights.length, weightTotal⟩
  else some ⟨.own i 0, 1, weightTotal⟩

/-- The memory after the conversion of the paths. -/
def converted (paths : ℕ → Option Path) : Memory where
  weight
    | .annotated k j => ((annotations k).getD []).getD j 0
    | .service _ => 100
    | .canary _ => 100
  backing
    | .annotated k => ⟨parsed annotations k, parsedCap ((annotations k).getD []).length⟩
    | .own i _ => ⟨[.service i], 1⟩
  routes i := (paths i).bind (routeOf annotations i)
  failed := false

/-- `append(route.Route, d)`. -/
def appendTo (m : Memory) (i : ℕ) (r : Route) (d : DestinationRef) : Memory :=
  let b := m.backing r.array
  if r.len < b.cap then
    { m with
      backing := Function.update m.backing r.array
        { b with slots := b.slots.take r.len ++ d :: b.slots.drop (r.len + 1) }
      routes := Function.update m.routes i (some { r with len := r.len + 1 }) }
  else
    { m with
      backing := Function.update m.backing (.own i r.len)
        ⟨b.slots.take r.len ++ [d], grownCap r.len⟩
      routes := Function.update m.routes i (some { r with array := .own i r.len, len := r.len + 1 }) }

/-- The destination of a canary path: none if the backend is invalid, and an error if the
annotation has no destinations. -/
def CanaryBackend.destination : CanaryBackend → Option (Option DestinationRef)
  | .service c => some (some (.canary c))
  | .annotated k => (annotations k).map fun weights =>
      if weights = [] then none else some (.annotated k 0)

/-- A weighted canary joins a route. -/
def merge (m : Memory) (i : ℕ) (backend : CanaryBackend) (weight weightTotal : ℤ) : Memory :=
  match backend.destination annotations, m.routes i with
  | none, _ => m
  | _, none => m
  | some none, some _ => { m with failed := true }
  | some (some d), some r =>
      let r := { r with
        weightTotal := if r.weightTotal = 0 then toInt32 weightTotal else r.weightTotal }
      appendTo grownCap { m with weight := Function.update m.weight d (toInt32 weight) } i r d

/-- The loop over the destinations behind the first: the weights, and the values given. -/
def scale (total : ℤ) : List DestinationRef → (DestinationRef → ℤ) → (DestinationRef → ℤ) × List ℤ
  | [], weight => (weight, [])
  | d :: later, weight =>
      let v := conversion.int32 ((weight d * 100).tdiv total)
      let rest := scale total later (Function.update weight d v)
      (rest.1, v :: rest.2)

/-- `normalizeWeightedCluster` on the weights in memory. -/
def normalizeIn (weight : DestinationRef → ℤ) (weightTotal : ℤ) :
    List DestinationRef → Option (DestinationRef → ℤ)
  | [] => none
  | [d] => some (Function.update weight d 100)
  | d :: later =>
      let total := weightTotalOf weightTotal (later.map weight)
      if total = 0 then none
      else
        let (weight, values) := scale conversion total later weight
        some (Function.update weight d (toInt32 (100 - toInt32 values.sum)))

def normalize (m : Memory) (i : ℕ) : Memory :=
  match m.routes i with
  | none => m
  | some r =>
      match normalizeIn conversion m.weight r.weightTotal (m.destinations r) with
      | none => { m with failed := true }
      | some weight => { m with weight := weight }

def step (m : Memory) (s : Step) : Memory :=
  if m.failed then m
  else
    match s with
    | .merge i backend weight weightTotal => merge annotations grownCap m i backend weight weightTotal
    | .normalize i => normalize conversion m i

/-- `convertVirtualService` on the weights: the conversion of the paths, the canaries and the
normalisation of the routes. -/
def convertVirtualService (paths : ℕ → Option Path) (steps : List Step) : Memory :=
  steps.foldl (step annotations grownCap conversion) (converted annotations parsedCap paths)

end Conversion

/-- The path of one route. -/
def only (i : ℕ) (paths : ℕ → Option Path) (j : ℕ) : Option Path := if j = i then paths j else none

/-! ### Steps that leave other routes alone -/

/-- The route can be normalised. -/
def Sound (m : Memory) (r : Route) : Prop :=
  match m.weights r with
  | [] => False
  | [_] => True
  | _ :: later => weightTotalOf r.weightTotal later ≠ 0

/-- No other route has a destination of the route. -/
def Private (m : Memory) (j : ℕ) (r : Route) : Prop :=
  ∀ i r', i ≠ j → m.routes i = some r' → ∀ d ∈ m.destinations r, d ∉ m.destinations r'

/-- The weights of the route are percentages already. -/
def Settled (m : Memory) (r : Route) : Prop :=
  match m.weights r with
  | [] => False
  | [w] => w = 100
  | w :: later => weightTotalOf r.weightTotal later = 100 ∧ (∀ v ∈ later, InInt32 v) ∧
      w = toInt32 (100 - toInt32 later.sum)

/-- A canary that joins a route has a destination, whose weight another route with the same
destination has already, and it does not overwrite a slot that another route uses. A route that is
normalised shares no destinations or has nothing to change. -/
def Quiet (annotations : ℕ → Option (List ℤ)) (m : Memory) : Step → Prop
  | .merge j backend weight _ => ∀ r, m.routes j = some r →
      ∀ found, backend.destination annotations = some found → ∃ d, found = some d ∧
        ∀ i r', i ≠ j → m.routes i = some r' →
          (d ∈ m.destinations r' → m.weight d = toInt32 weight) ∧
          (r'.array = r.array → r.len < (m.backing r.array).cap → r'.len ≤ r.len)
  | .normalize j => ∀ r, m.routes j = some r → Sound m r ∧ (Private m j r ∨ Settled m r)

/-! ### Writes to weights -/

section Weights

variable {conversion : Conversion} {total : ℤ}

end Weights

section Routes

variable {conversion : Conversion} {m : Memory} {r : Route}

end Routes

/-! ### One route and the others -/

/-- A route that has the same destinations with the same weights in two memories, and as much room
for more. -/
structure Same (i : ℕ) (s t : Memory) (r : Route) : Prop where
  owned : ∀ j n, r.array = .own j n → j = i
  written : r.len ≤ (s.backing r.array).slots.length
  cap : (s.backing r.array).cap = (t.backing r.array).cap
  destinations : s.destinations r = t.destinations r
  weight : ∀ d ∈ s.destinations r, s.weight d = t.weight d

structure Agree (i : ℕ) (s t : Memory) : Prop where
  sound : s.failed = false ∧ t.failed = false
  route : s.routes i = t.routes i
  same : ∀ r, s.routes i = some r → Same i s t r

section Steps

variable {annotations : ℕ → Option (List ℤ)} {parsedCap grownCap : ℕ → ℕ} {conversion : Conversion}
  {i : ℕ} {s t : Memory}

theorem Agree.converted (paths : ℕ → Option Path) :
    Agree i (converted annotations parsedCap paths)
      (converted annotations parsedCap (only i paths)) := by
  refine ⟨⟨rfl, rfl⟩, ?_, ?_⟩
  · simp [Shared.converted, only]
  · intro r hr
    obtain ⟨p, -, hp⟩ := Option.bind_eq_some_iff.mp hr
    rw [routeOf] at hp
    split_ifs at hp
    · obtain ⟨weights, hweights, rfl⟩ := Option.map_eq_some_iff.mp hp
      exact ⟨by simp, by simp [Shared.converted, parsed, hweights], rfl, rfl, fun _ _ => rfl⟩
    · obtain rfl := Option.some.inj hp
      exact ⟨by simp, by simp [Shared.converted], rfl, rfl, fun _ _ => rfl⟩

/-- The route after a destination has been appended to it. -/
def grown (m : Memory) (i : ℕ) (r : Route) : Route :=
  if r.len < (m.backing r.array).cap then { r with len := r.len + 1 }
  else { r with array := .own i r.len, len := r.len + 1 }

end Steps

namespace Example

/-- Two paths of one ingress with a destination annotation. -/
def paths (i : ℕ) : Option Path := if i < 2 then some ⟨0, true⟩ else none

def annotationsOf (weights : List ℤ) (k : ℕ) : Option (List ℤ) := if k = 0 then some weights else none

/-- The routes are normalised one after the other. -/
def steps : List Step := [.normalize 0, .normalize 1]

def alone (weights : List ℤ) (i : ℕ) : Memory :=
  convertVirtualService (annotationsOf weights) id (· + 1) .minusOne (only i paths)
    (steps.filter fun e => e.route = i)

end Example

end Higress.Ingress.Shared
