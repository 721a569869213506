import Mathlib.Algebra.Order.BigOperators.Group.List
import Mathlib.Algebra.Order.Group.Int
import Mathlib.Tactic.Linarith
import Higress.Ingress.Canary
import Higress.Lib.Text

/-!
Weighted destinations. The weights of a route come from the lines of a destination annotation and
from the weights of its canaries; `normalizeWeightedCluster` turns them into percentages. What is
lost in rounding goes to the first destination, so the percentages add up to 100, but nothing keeps
the weights from being negative, or the list of destinations from being empty.
-/

namespace Higress.Ingress

open Lib

/-! ### Numbers and words of an annotation -/

/-- `strconv.ParseInt` in base 10. -/
def parseInt (bitSize : ℕ) (s : GoString) : Option ℤ :=
  let (negative, digits) := match s with
    | 43 :: s => (false, s)
    | 45 :: s => (true, s)
    | s => (false, s)
  if digits = [] ∨ digits.any (fun b => b < 48 || 57 < b) then none
  else
    let n : ℤ := digits.foldl (fun n b => 10 * n + (b.toNat - 48)) 0
    let n := if negative then -n else n
    if -2 ^ (bitSize - 1) ≤ n ∧ n < 2 ^ (bitSize - 1) then some n else none

/-- `strconv.ParseUint` in base 10 for 32 bits; a number that is too large is read as the largest
one. The flag says whether there was no error. -/
def parseUint32 (s : GoString) : ℕ × Bool :=
  if s = [] ∨ s.any (fun b => b < 48 || 57 < b) then (0, false)
  else
    let n := s.foldl (fun n b => 10 * n + (b.toNat - 48)) 0
    if n < 4294967296 then (n, true) else (4294967295, false)

/-- The rest of `s` cut at white space, where `word` has been read since the last one. -/
def fieldsFrom : ℕ → GoString → GoString → List GoString
  | 0, word, _ => if word = [] then [] else [word]
  | _ + 1, word, [] => if word = [] then [] else [word]
  | n + 1, word, b :: s =>
      match Strings.spaces.find? fun w => w.isPrefixOf (b :: s) with
      | none => fieldsFrom n (word ++ [b]) s
      | some w =>
          let rest := fieldsFrom n [] ((b :: s).drop w.length)
          if word = [] then rest else word :: rest

/-- `strings.Fields`. -/
def fields (s : GoString) : List GoString := fieldsFrom (s.length + 1) [] s

/-- The lines of `bufio.Scanner`: what stands behind the last line break is a line if it is not
empty, and a line that does not fit into the buffer ends the scan. -/
def splitLines (s : GoString) : List GoString :=
  let lines := split s [10]
  let lines := if lines.getLast? = some [] then lines.dropLast else lines
  (lines.takeWhile fun line => line.length < 65536).map fun line =>
    if line.getLast? = some 13 then line.dropLast else line

/-! ### Annotations -/

def normalizeString (input : GoString) : GoString :=
  Strings.join ((split input [10]).map Strings.trimSpace) [10]

def buildHigressAnnotationKey (key : GoString) : GoString :=
  higressAnnotationsPrefix ++ bytes "/" ++ key

/-- A text that is empty is no value. -/
def parseString (annots : List (GoString × GoString)) (key : GoString) : Option GoString :=
  (lookup annots key).bind fun val =>
    let s := normalizeString val
    if s = [] then none else some s

/-- `splitDestinationProtocol`, the address. -/
def splitDestinationProtocol (address : GoString) : GoString :=
  if Strings.startsWith (lower address) (bytes "http://") then address.drop 7
  else if Strings.startsWith (lower address) (bytes "https://") then address.drop 8
  else address

/-- What stands before and behind the last colon. -/
def lastColon (address : GoString) : Option (GoString × GoString) :=
  let port := address.reverse.takeWhile (· != 58)
  if port.length = address.length then none
  else some (address.take (address.length - (port.length + 1)), port.reverse)

/-- The host and the port of an address; no port is zero. -/
def destinationOf (address : GoString) : Destination :=
  match lastColon address with
  | none => ⟨address, 0⟩
  | some (host, port) =>
      let (port, ok) := parseUint32 port
      if ok ∧ 0 < port ∧ port < 65536 then ⟨host, port⟩ else ⟨address, port⟩

/-- A line of the annotation: nothing, a destination, or an error. -/
def parseLine (line : GoString) : Option (Option HTTPRouteDestination) :=
  match fields line with
  | [] => some none
  | first :: rest =>
      if (bytes "%").isSuffixOf first then
        (parseInt 32 (Strings.trimSuffix first (bytes "%"))).bind fun weight =>
          rest.head?.map fun address =>
            some { destination := destinationOf (splitDestinationProtocol address), weight := weight }
      else some (some { destination := destinationOf (splitDestinationProtocol first), weight := 100 })

/-- `destination.Parse`. -/
def destinationParse (annots : List (GoString × GoString)) : Option DestinationConfig :=
  (parseString annots (buildHigressAnnotationKey (bytes "destination"))).bind fun value =>
    ((splitLines value).mapM parseLine).map fun lines =>
      let destinations := lines.filterMap id
      { mcpDestination := destinations
        weightSum := (destinations.map HTTPRouteDestination.weight).sum }

/-! ### Normalisation -/

def InInt32 (n : ℤ) : Prop := -2147483648 ≤ n ∧ n < 2147483648

instance (n : ℤ) : Decidable (InInt32 n) := inferInstanceAs (Decidable (_ ∧ _))

/-- `int32(x)` of a number that has been cut off behind the point. A number that does not fit gives
some `int32`, which the language leaves open. -/
structure Conversion where
  int32 : ℤ → ℤ
  exact : ∀ n, InInt32 n → int32 n = n
  range : ∀ n, InInt32 (int32 n)

def HTTPRoute.weights (route : HTTPRoute) : List ℤ := route.route.map HTTPRouteDestination.weight

/-- The total that the weights are divided by. -/
def weightTotalOf (weightTotal : ℤ) (later : List ℤ) : ℤ :=
  let sum := toInt32 later.sum
  if sum < weightTotal then weightTotal else sum

/-- `normalizeWeightedCluster`: no result if the empty list is indexed or a weight is divided by
zero. -/
def normalizeWeightedCluster (conversion : Conversion) (cache : Option IngressRouteCache)
    (route : WrapperHTTPRoute) : Option (Option IngressRouteCache × WrapperHTTPRoute) :=
  match route.httpRoute.route with
  | [] => none
  | [d] =>
      some (cache, { route with
        httpRoute := { route.httpRoute with route := [{ d with weight := 100 }] } })
  | d :: later =>
      let weightTotal := weightTotalOf route.weightTotal (later.map HTTPRouteDestination.weight)
      if weightTotal = 0 then none
      else
        let later := later.map fun d =>
          { d with weight := conversion.int32 ((d.weight * 100).tdiv weightTotal) }
        let sum := toInt32 (later.map HTTPRouteDestination.weight).sum
        let route := { route with
          httpRoute := { route.httpRoute with
            route := { d with weight := toInt32 (100 - sum) } :: later } }
        some (cache.map (·.update route), route)

/-- The weights are percentages that add up to 100. -/
def Normalized (result : Option (Option IngressRouteCache × WrapperHTTPRoute)) : Prop :=
  ∃ cache route, result = some (cache, route) ∧
    (∀ w ∈ route.httpRoute.weights, 0 ≤ w ∧ w ≤ 100) ∧ route.httpRoute.weights.sum = 100

/-- There is a destination. If there are others behind it, then the total is not zero, none of them
has minus one per cent of it or less, and their full per cents are not more than 100. -/
def Balanced (weightTotal : ℤ) : List ℤ → Prop
  | [] => False
  | [_] => True
  | _ :: later =>
      let total := weightTotalOf weightTotal later
      total ≠ 0 ∧ (∀ w ∈ later, 0 ≤ (w * 100).tdiv total) ∧
        (later.map fun w => (w * 100).tdiv total).sum ≤ 100

/-! ### Weights alone -/

/-- What normalisation makes of the weights of a route. -/
def normalizeWeights (conversion : Conversion) (weightTotal : ℤ) : List ℤ → Option (List ℤ)
  | [] => none
  | [_] => some [100]
  | _ :: later =>
      let total := weightTotalOf weightTotal later
      if total = 0 then none
      else
        let later := later.map fun w => conversion.int32 ((w * 100).tdiv total)
        some (toInt32 (100 - toInt32 later.sum) :: later)

theorem normalizeWeights_cons (conversion : Conversion) (weightTotal w w' : ℤ) (later : List ℤ) :
    normalizeWeights conversion weightTotal (w :: w' :: later) =
      (let total := weightTotalOf weightTotal (w' :: later)
      if total = 0 then none
      else
        let shares := (w' :: later).map fun w => conversion.int32 ((w * 100).tdiv total)
        some (toInt32 (100 - toInt32 shares.sum) :: shares)) := rfl

theorem weights_normalizeWeightedCluster (conversion : Conversion)
    (cache : Option IngressRouteCache) (route : WrapperHTTPRoute) :
    (normalizeWeightedCluster conversion cache route).map (·.2.httpRoute.weights) =
      normalizeWeights conversion route.weightTotal route.httpRoute.weights := by
  rw [normalizeWeightedCluster, HTTPRoute.weights]
  cases route.httpRoute.route with
  | nil => rfl
  | cons d later =>
      cases later with
      | nil => rfl
      | cons d' later =>
          simp only [List.map_cons, normalizeWeights]
          split_ifs
          · rfl
          · simp [HTTPRoute.weights, Function.comp_def]

theorem normalized_iff_weights (conversion : Conversion) (cache : Option IngressRouteCache)
    (route : WrapperHTTPRoute) :
    Normalized (normalizeWeightedCluster conversion cache route) ↔
      ∃ ws, normalizeWeights conversion route.weightTotal route.httpRoute.weights = some ws ∧
        (∀ w ∈ ws, 0 ≤ w ∧ w ≤ 100) ∧ ws.sum = 100 := by
  rw [← weights_normalizeWeightedCluster conversion cache route]
  cases normalizeWeightedCluster conversion cache route with
  | none => simp [Normalized]
  | some result => simp [Normalized, Prod.ext_iff]

theorem toInt32_eq_self {n : ℤ} (h : InInt32 n) : toInt32 n = n := by
  obtain ⟨hlow, hhigh⟩ := h
  rw [toInt32]
  apply Int.bmod_eq_of_le <;> omega

theorem inInt32_of_percent {n : ℤ} (h : 0 ≤ n) (h' : n ≤ 100) : InInt32 n := ⟨by omega, by omega⟩

/-- Percentages that are not negative and not more than 100 in all are kept, and the first
destination gets the rest. -/
theorem exists_normalizeWeights {weightTotal : ℤ} {weights : List ℤ} (h : Balanced weightTotal weights)
    (conversion : Conversion) :
    ∃ ws, normalizeWeights conversion weightTotal weights = some ws ∧
      (∀ w ∈ ws, 0 ≤ w ∧ w ≤ 100) ∧ ws.sum = 100 := by
  match weights, h with
  | [_], _ => exact ⟨[100], rfl, by simp, rfl⟩
  | w₀ :: w₁ :: later, h =>
      obtain ⟨htotal, hnonneg, hsum⟩ := h
      generalize htotal' : weightTotalOf weightTotal (w₁ :: later) = total at *
      have hshare : ∀ w ∈ w₁ :: later, (w * 100).tdiv total ≤ 100 := by
        intro w hw
        have hpart : (w * 100).tdiv total ∈ (w₁ :: later).map fun w => (w * 100).tdiv total :=
          List.mem_map_of_mem hw
        exact (List.single_le_sum (by simpa using hnonneg) _ hpart).trans hsum
      have hkept : ((w₁ :: later).map fun w => conversion.int32 ((w * 100).tdiv total)) =
          (w₁ :: later).map fun w => (w * 100).tdiv total :=
        List.map_congr_left fun w hw =>
          conversion.exact _ (inInt32_of_percent (hnonneg w hw) (hshare w hw))
      have hpos : 0 ≤ ((w₁ :: later).map fun w => (w * 100).tdiv total).sum :=
        List.sum_nonneg (by simpa using hnonneg)
      generalize hlater : ((w₁ :: later).map fun w => (w * 100).tdiv total) = shares at *
      have hrest : toInt32 (100 - toInt32 shares.sum) = 100 - shares.sum := by
        rw [toInt32_eq_self (inInt32_of_percent hpos hsum),
          toInt32_eq_self (inInt32_of_percent (by omega) (by omega))]
      refine ⟨(100 - shares.sum) :: shares, ?_, ?_, by simp⟩
      · rw [normalizeWeights_cons]
        dsimp only
        rw [htotal', if_neg htotal, hkept, hrest]
      · intro w hw
        rcases List.mem_cons.mp hw with rfl | hw
        · omega
        · rw [← hlater] at hw
          obtain ⟨v, hv, rfl⟩ := List.mem_map.mp hw
          exact ⟨hnonneg v hv, hshare v hv⟩

/-- A number that does not fit becomes minus one. -/
def Conversion.minusOne : Conversion where
  int32 n := if InInt32 n then n else -1
  exact n h := if_pos h
  range n := by
    split_ifs with h
    · exact h
    · exact ⟨by omega, by omega⟩

/-- Only percentages that are not negative come out unchanged, and only such as leave something
that is not negative for the first destination. -/
theorem balanced_of_normalizeWeights {weightTotal : ℤ} {weights ws : List ℤ}
    (h : normalizeWeights .minusOne weightTotal weights = some ws)
    (hrange : ∀ w ∈ ws, 0 ≤ w ∧ w ≤ 100) (hsum : ws.sum = 100) : Balanced weightTotal weights := by
  match weights, h with
  | [_], _ => exact True.intro
  | w₀ :: w₁ :: later, h =>
      rw [normalizeWeights_cons] at h
      dsimp only at h
      split_ifs at h with htotal
      generalize htotal' : weightTotalOf weightTotal (w₁ :: later) = total at *
      obtain rfl := Option.some.inj h
      have hkept : ∀ w ∈ w₁ :: later, InInt32 ((w * 100).tdiv total) ∧
          0 ≤ (w * 100).tdiv total := by
        intro w hw
        have hw' := (hrange _ (List.mem_cons_of_mem _ (List.mem_map_of_mem hw))).1
        dsimp only [Conversion.minusOne] at hw'
        split_ifs at hw' with hfits
        · exact ⟨hfits, hw'⟩
        · omega
      have hlater : ((w₁ :: later).map fun w =>
          Conversion.minusOne.int32 ((w * 100).tdiv total)) =
          (w₁ :: later).map fun w => (w * 100).tdiv total :=
        List.map_congr_left fun w hw => Conversion.minusOne.exact _ (hkept w hw).1
      rw [hlater] at hrange hsum
      have hfirst := (hrange _ List.mem_cons_self).1
      rw [List.sum_cons] at hsum
      refine ⟨htotal'.symm ▸ htotal, ?_, ?_⟩
      · intro w hw
        rw [htotal']
        exact (hkept w hw).2
      · rw [htotal']
        omega

/-- Whatever becomes of numbers that do not fit, the weights of a route are percentages that add
up to 100 exactly if they are balanced before. -/
theorem normalized_iff (cache : Option IngressRouteCache) (route : WrapperHTTPRoute) :
    (∀ conversion, Normalized (normalizeWeightedCluster conversion cache route)) ↔
      Balanced route.weightTotal route.httpRoute.weights := by
  constructor
  · intro h
    obtain ⟨ws, hws, hrange, hsum⟩ := (normalized_iff_weights .minusOne cache route).mp (h .minusOne)
    exact balanced_of_normalizeWeights hws hrange hsum
  · intro h conversion
    exact (normalized_iff_weights conversion cache route).mpr (exists_normalizeWeights h conversion)

/-! ### Routes of an ingress -/

theorem applyRoute_route (route : HTTPRoute) (a : Annotations) :
    (applyRoute route a).route = route.route := by
  have hheader (r : HTTPRoute) : (headerControlApplyRoute r a.headerControl).route = r.route := by
    cases a.headerControl <;> rfl
  have hmatch (r : HTTPRoute) : (matchApplyRoute r a.match).route = r.route := by
    rw [matchApplyRoute]
    cases a.match.methods <;> cases a.match.headers <;> cases a.match.queryParams <;> rfl
  have hcase (r : HTTPRoute) : (ignoreCaseApplyRoute r a.ignoreUriCase).route = r.route := by
    rw [ignoreCaseApplyRoute]
    split <;> rfl
  rw [applyRoute, hheader, hmatch, hcase]

/-- The weights of a route are those of the annotation, and its total is their sum. -/
theorem weights_annotateRoute (c : Controller) (wrapper : WrapperConfig) (host : GoString)
    {httpPath : HTTPIngressPath} (hservice : httpPath.backend.service = none)
    (hresource : httpPath.backend.resource = true) {config : DestinationConfig}
    (hconfig : wrapper.annotationsConfig.destination = some config) :
    (annotateRoute (wrapperHttpRouteOf c wrapper host httpPath)).httpRoute.weights =
        config.mcpDestination.map HTTPRouteDestination.weight ∧
      (annotateRoute (wrapperHttpRouteOf c wrapper host httpPath)).weightTotal =
        toInt32 config.weightSum := by
  constructor
  · have hroute : (wrapperHttpRouteOf c wrapper host httpPath).httpRoute.route =
        config.mcpDestination := by
      change (backendToRouteDestination c httpPath.backend wrapper.config.namespace
        wrapper.annotationsConfig.destination).route = config.mcpDestination
      simp [backendToRouteDestination, hservice, hresource, hconfig]
    rw [HTTPRoute.weights, annotateRoute, applyRoute_route, hroute]
  · change toInt32 ((wrapper.annotationsConfig.destination.map
      DestinationConfig.weightSum).getD 0) = toInt32 config.weightSum
    rw [hconfig]
    rfl

/-- A route of an ingress with the annotation. -/
def annotatedRoute (destination : GoString) : WrapperHTTPRoute :=
  let annots := [(bytes "higress.io/destination", destination)]
  annotateRoute (wrapperHttpRouteOf ⟨[], [], [], fun _ _ => none⟩
    { config := ⟨bytes "a", bytes "b", annots, some {}⟩
      annotationsConfig := { destination := destinationParse annots } }
    (bytes "h") { path := bytes "/", backend := { service := none, resource := true } })

set_option maxRecDepth 4000 in
/-- The weights 150 and -50 are kept although they are no percentages, and a blank annotation leaves
no destination to index. -/
theorem annotations_unbalanced :
    (∀ conversion cache, ¬ Normalized (normalizeWeightedCluster conversion cache
      (annotatedRoute (bytes "150% a\n-50% b")))) ∧
    ∀ conversion cache, normalizeWeightedCluster conversion cache
      (annotatedRoute (bytes "\n")) = none := by
  constructor
  · intro conversion cache h
    obtain ⟨ws, hws, hrange, -⟩ := (normalized_iff_weights _ _ _).mp h
    have hroute : (annotatedRoute (bytes "150% a\n-50% b")).httpRoute.weights = [150, -50] ∧
        (annotatedRoute (bytes "150% a\n-50% b")).weightTotal = 100 :=
      @weights_annotateRoute _ _ _ _ rfl rfl ⟨[{ destination := ⟨bytes "a", 0⟩, weight := 150 },
        { destination := ⟨bytes "b", 0⟩, weight := -50 }], 100⟩ (by decide)
    have hkept : conversion.int32 ((-50 * 100 : ℤ).tdiv 100) = -50 :=
      conversion.exact (-50) (by decide)
    have hlater : normalizeWeights conversion 100 [150, -50] =
        some (toInt32 (100 - toInt32 [-50].sum) :: [-50]) := by
      rw [normalizeWeights, show weightTotalOf 100 [-50] = 100 by decide]
      · dsimp only
        rw [if_neg (by decide), List.map_singleton, hkept]
      · simp
    rw [hroute.1, hroute.2, hlater] at hws
    obtain rfl := Option.some.inj hws
    exact absurd (hrange (-50) (by simp)).1 (by decide)
  · intro conversion cache
    have hroute : (annotatedRoute (bytes "\n")).httpRoute.weights = [] :=
      (@weights_annotateRoute _ _ _ _ rfl rfl ⟨[], 0⟩ (by decide)).1
    rw [normalizeWeightedCluster, List.map_eq_nil_iff.mp hroute]

end Higress.Ingress
