import Higress.Lib.ByteSplit
import Higress.Lib.GoSlice
import Higress.Lib.Run
import Mathlib.Logic.Function.Basic

/-!
The transformer's operations on a multi-map of headers, query parameters or form fields. In the
code a value list is a slice: `map` lets two keys share one, `dedupe` shortens it in place, and
`append` and `rename` write behind it where there is room. Below that stand the same operations on
immutable lists.
-/

namespace Higress.Transformer

open Lib

/-! ### Rules -/

/-- What the plugin uses of Go's library and of gjson: `json` is the text of what is found. -/
structure Library (Re Json : Type*) where
  toLower : GoString → GoString
  toUpper : GoString → GoString
  matchString : Re → GoString → Bool
  replaceAllString : Re → GoString → GoString → GoString
  json : Json → GoString → Option GoString

structure Reg (Re : Type*) where
  hostReg : Option Re
  pathReg : Option Re

/-- The host and the path of a request. -/
structure Target where
  host : GoString
  path : GoString

section Rules

variable {Re Json : Type*} (lib : Library Re Json) (target : Target)

/-- `matchAndReplace`; `none` is no match. -/
def Reg.matchAndReplace (r : Reg Re) (value : GoString) : Option GoString :=
  match r.hostReg.filter (lib.matchString · target.host) with
  | some re => some (lib.replaceAllString re target.host value)
  | none =>
      match r.pathReg.filter (lib.matchString · target.path) with
      | some re => some (lib.replaceAllString re target.path value)
      | none => none

/-- The value of a rule; `none` where its patterns do not match. -/
def ruleValue (reg : Option (Reg Re)) (value : GoString) : Option GoString :=
  match reg with
  | none => some value
  | some r => r.matchAndReplace lib target value

end Rules

/-- One entry of a group of rules. -/
inductive Op (Re : Type*)
  | remove (key : GoString)
  | rename (oldKey newKey : GoString)
  | replace (key newValue : GoString) (reg : Option (Reg Re))
  | add (key value : GoString) (reg : Option (Reg Re))
  | append (key appendValue : GoString) (reg : Option (Reg Re))
  | map (mapSource fromKey toKey : GoString)
  | dedupe (key strategy : GoString)

/-- An operation with its group of entries. -/
inductive KvtOperation (Re : Type*)
  | remove (group : List GoString)
  | rename (group : List (GoString × GoString))
  | replace (group : List (GoString × GoString × Option (Reg Re)))
  | add (group : List (GoString × GoString × Option (Reg Re)))
  | append (group : List (GoString × GoString × Option (Reg Re)))
  | map (mapSource : GoString) (group : List (GoString × GoString))
  | dedupe (group : List (GoString × GoString))

def KvtOperation.ops {Re : Type*} : KvtOperation Re → List (Op Re)
  | remove group => group.map .remove
  | rename group => group.map fun e => .rename e.1 e.2
  | replace group => group.map fun e => .replace e.1 e.2.1 e.2.2
  | add group => group.map fun e => .add e.1 e.2.1 e.2.2
  | append group => group.map fun e => .append e.1 e.2.1 e.2.2
  | map mapSource group => group.map fun e => .map mapSource e.1 e.2
  | dedupe group => group.map fun e => .dedupe e.1 e.2

/-- How a list of values is reduced. -/
inductive Strategy
  | unique
  | last
  | splitFirst
  | splitLast
  | first

/-- The strategy of an upper-case name. -/
def strategyOf (name : GoString) : Strategy :=
  if name = bytes "RETAIN_UNIQUE" then .unique
  else if name = bytes "RETAIN_LAST" then .last
  else if name = bytes "SPLIT_AND_RETAIN_FIRST" then .splitFirst
  else if name = bytes "SPLIT_AND_RETAIN_LAST" then .splitLast
  else .first

/-- The loop with the set of values seen so far. -/
def uniques (vs : List GoString) : List GoString :=
  vs.foldl (fun us v => if v ∈ us then us else us ++ [v]) []

/-! ### The code on slices -/

/-- A place where `map` looks up a key: the map that is handled, another map, or JSON. -/
inductive Source (M Json : Type*)
  | self
  | kvs (m : M)
  | json (data : Json)

/-- A Go map of slices. -/
abbrev SliceMap := GoString → Option Slice

structure Memory where
  heap : Heap GoString
  kvs : SliceMap

namespace Memory

variable (m : Memory) (key : GoString)

/-- The slice of a key, which is `nil` for a key that is not there. -/
def get : Slice := (m.kvs key).getD Slice.nil

def set (s : Slice) : Memory := { m with kvs := Function.update m.kvs key (some s) }

def delete : Memory := { m with kvs := Function.update m.kvs key none }

/-- A key gets a new array. -/
def put (xs : List GoString) (cap : ℕ) : Memory :=
  ⟨(m.heap.alloc xs cap).1, Function.update m.kvs key (some (m.heap.alloc xs cap).2)⟩

/-- `kvs[key] = append(kvs[key], xs...)`. -/
def append (grow : Growth) (xs : List GoString) : Memory :=
  ⟨(m.heap.append grow (m.get key) xs).1,
    Function.update m.kvs key (some (m.heap.append grow (m.get key) xs).2)⟩

/-- A key gets a part of the fields of its first value. -/
def splitValue (v : GoString) (cut : Slice → Slice) : Memory :=
  let a := m.heap.alloc (split v (bytes ",")) (split v (bytes ",")).length
  ⟨a.1, Function.update m.kvs key (some (cut a.2))⟩

def dedupe (grow : Growth) : Strategy → Memory
  | .unique =>
      let us := uniques (m.heap.view (m.get key))
      m.put key us (grow.oneByOne us.length)
  | strategy =>
      match m.kvs key, m.heap.view (m.get key) with
      | some s, v :: _ =>
          match strategy with
          | .last => m.set key (s.since (s.len - 1))
          | .splitFirst => m.splitValue key v (·.upTo 1)
          | .splitLast => m.splitValue key v fun a => a.since (a.len - 1)
          | _ => m.set key (s.upTo 1)
      | _, _ => m

end Memory

section Steps

variable {Re Json : Type*} (lib : Library Re Json) (target : Target) (grow : Growth)
  (sources : GoString → Option (Source SliceMap Json))

/-- The key that `map` looks up. -/
def searchKey (mapSource fromKey : GoString) : GoString :=
  if mapSource = bytes "headers" then lib.toLower fromKey else fromKey

def step (m : Memory) : Op Re → Memory
  | .remove key => m.delete key
  | .rename oldKey newKey =>
      match m.kvs oldKey with
      | some ovs => (m.append newKey grow (m.heap.view ovs)).delete oldKey
      | none => m
  | .replace key newValue reg =>
      match ruleValue lib target reg newValue with
      | some v => m.put key [v] 1
      | none => m
  | .add key value reg =>
      if (m.kvs key).isSome then m
      else
        match ruleValue lib target reg value with
        | some v => m.put key [v] 1
        | none => m
  | .append key appendValue reg =>
      match ruleValue lib target reg appendValue with
      | some v => m.append key grow [v]
      | none => m
  | .map mapSource fromKey toKey =>
      match sources mapSource with
      | none => m
      | some .self => ((m.kvs (searchKey lib mapSource fromKey)).map (m.set toKey)).getD m
      | some (.kvs other) => ((other (searchKey lib mapSource fromKey)).map (m.set toKey)).getD m
      | some (.json data) =>
          match lib.json data (searchKey lib mapSource fromKey) with
          | some v => if v = [] then m else m.put toKey [v] 1
          | none => m
  | .dedupe key strategy => m.dedupe key grow (strategyOf (lib.toUpper strategy))

/-- `kvHandler.handle`. -/
def handle (m : Memory) (kvtOps : List (KvtOperation Re)) : Memory :=
  kvtOps.foldl (fun m kvtOp => kvtOp.ops.foldl (step lib target grow sources) m) m

end Steps

/-! ### The operations on immutable lists -/

/-- A map of value lists. -/
abbrev ValueMap := GoString → Option (List GoString)

/-- The map that is handled, and where `map` looks up keys. -/
structure Values (Json : Type*) where
  kvs : ValueMap
  sources : GoString → Option (Source ValueMap Json)

namespace Values

variable {Json : Type*} (w : Values Json) (key : GoString)

def get : List GoString := (w.kvs key).getD []

def set (vs : List GoString) : Values Json := { w with kvs := Function.update w.kvs key (some vs) }

def delete : Values Json := { w with kvs := Function.update w.kvs key none }

def dedupe : Strategy → Values Json
  | .unique => w.set key (uniques (w.get key))
  | strategy =>
      match w.kvs key with
      | some (v :: vs) =>
          match strategy with
          | .last => w.set key ((v :: vs).drop vs.length)
          | .splitFirst => w.set key ((split v (bytes ",")).take 1)
          | .splitLast => w.set key ((split v (bytes ",")).drop ((split v (bytes ",")).length - 1))
          | _ => w.set key [v]
      | _ => w

end Values

section ValueSteps

variable {Re Json : Type*} (lib : Library Re Json) (target : Target)

/-- An operation on immutable lists; `map` copies the values of its source. -/
def valueStep (w : Values Json) : Op Re → Values Json
  | .remove key => w.delete key
  | .rename oldKey newKey =>
      match w.kvs oldKey with
      | some ovs => (w.set newKey (w.get newKey ++ ovs)).delete oldKey
      | none => w
  | .replace key newValue reg =>
      match ruleValue lib target reg newValue with
      | some v => w.set key [v]
      | none => w
  | .add key value reg =>
      if (w.kvs key).isSome then w
      else
        match ruleValue lib target reg value with
        | some v => w.set key [v]
        | none => w
  | .append key appendValue reg =>
      match ruleValue lib target reg appendValue with
      | some v => w.set key (w.get key ++ [v])
      | none => w
  | .map mapSource fromKey toKey =>
      match w.sources mapSource with
      | none => w
      | some .self => ((w.kvs (searchKey lib mapSource fromKey)).map (w.set toKey)).getD w
      | some (.kvs other) => ((other (searchKey lib mapSource fromKey)).map (w.set toKey)).getD w
      | some (.json data) =>
          match lib.json data (searchKey lib mapSource fromKey) with
          | some v => if v = [] then w else w.set toKey [v]
          | none => w
  | .dedupe key strategy => w.dedupe key (strategyOf (lib.toUpper strategy))

def valueHandle (w : Values Json) (kvtOps : List (KvtOperation Re)) : Values Json :=
  kvtOps.foldl (fun w kvtOp => kvtOp.ops.foldl (valueStep lib target) w) w

end ValueSteps

/-! ### Slices show values -/

/-- The values of a map of slices. -/
def viewMap (heap : Heap GoString) (kvs : SliceMap) : ValueMap := fun k => (kvs k).map heap.view

def viewSource {Json : Type*} (heap : Heap GoString) : Source SliceMap Json → Source ValueMap Json
  | .self => .self
  | .kvs m => .kvs (viewMap heap m)
  | .json data => .json data

section View

variable {Re Json : Type*} {lib : Library Re Json} {target : Target} {grow : Growth}
  {sources : GoString → Option (Source SliceMap Json)} {m : Memory}

def view (sources : GoString → Option (Source SliceMap Json)) (m : Memory) : Values Json :=
  ⟨viewMap m.heap m.kvs, fun name => (sources name).map (viewSource m.heap)⟩

/-- A slice of some key: of the map that is handled, or of another map that `map` may look at. -/
def Holds (sources : GoString → Option (Source SliceMap Json)) (m : Memory) (except : List GoString)
    (t : Slice) : Prop :=
  (∃ k, k ∉ except ∧ m.kvs k = some t) ∨ ∃ name other k, sources name = some (.kvs other) ∧ other k = some t

/-- Every slice lies in its array. -/
def WellFormed (sources : GoString → Option (Source SliceMap Json)) (m : Memory) : Prop :=
  ∀ t, Holds sources m [] t → m.heap.Fits t

/-- The condition on a step: where values are appended in place, no slice of another key shows one of
the slots that are written, unless with the value that is written. -/
def Meets (lib : Library Re Json) (target : Target)
    (sources : GoString → Option (Source SliceMap Json)) (m : Memory) : Op Re → Prop
  | .rename oldKey newKey => ∀ ovs, m.kvs oldKey = some ovs →
      ∀ t, Holds sources m [oldKey, newKey] t → m.heap.Spares (m.get newKey) (m.heap.view ovs) t
  | .append key appendValue reg => ∀ v, ruleValue lib target reg appendValue = some v →
      ∀ t, Holds sources m [key] t → m.heap.Spares (m.get key) [v] t
  | _ => True

theorem WellFormed.get (h : WellFormed sources m) (key : GoString) : m.heap.Fits (m.get key) := by
  rw [Memory.get]
  cases hkey : m.kvs key with
  | none => exact Heap.fits_nil
  | some s => exact h s (.inl ⟨key, by simp, hkey⟩)

theorem view_get (key : GoString) : (view sources m).get key = m.heap.view (m.get key) := by
  simp only [Values.get, Memory.get, view, viewMap]
  cases m.kvs key with
  | none => exact Heap.view_nil.symm
  | some s => rfl

/-- Two memories that differ at some keys only: when the one shows what is expected there, it shows
the values of the other everywhere else exactly when no slice there has changed. -/
theorem view_eq_iff {heap : Heap GoString} {kvs : SliceMap} {values : ValueMap}
    {except : List GoString} (hkvs : ∀ k, k ∉ except → kvs k = m.kvs k)
    (hvalues : ∀ k, k ∉ except → values k = viewMap m.heap m.kvs k)
    (hexcept : ∀ k, k ∈ except → viewMap heap kvs k = values k) :
    view sources ⟨heap, kvs⟩ = ⟨values, (view sources m).sources⟩ ↔
      ∀ t, Holds sources m except t → heap.view t = m.heap.view t := by
  constructor
  · intro h t ht
    obtain ⟨hmap, hsources⟩ := Values.mk.inj h
    rcases ht with ⟨k, hk, hkt⟩ | ⟨name, other, k, hname, hkt⟩
    · have hat := congrFun hmap k
      rw [hvalues k hk] at hat
      simpa [viewMap, hkvs k hk, hkt] using hat
    · have hat := congrFun hsources name
      simp only [view, hname, Option.map_some, viewSource, Option.some.injEq, Source.kvs.injEq] at hat
      have hatk := congrFun hat k
      simpa [viewMap, hkt] using hatk
  · intro h
    have hmap : viewMap heap kvs = values := by
      ext1 k
      by_cases hk : k ∈ except
      · exact hexcept k hk
      · rw [hvalues k hk, viewMap, viewMap, hkvs k hk]
        cases hkt : m.kvs k with
        | none => rfl
        | some t => exact congrArg some (h t (.inl ⟨k, hk, hkt⟩))
    have hsources : (fun name => (sources name).map (viewSource heap)) = (view sources m).sources := by
      ext1 name
      change _ = (sources name).map (viewSource m.heap)
      cases hname : sources name with
      | none => rfl
      | some source =>
          cases source with
          | self => rfl
          | json data => rfl
          | kvs other =>
              have hother : viewMap heap other = viewMap m.heap other := by
                ext1 k
                rw [viewMap, viewMap]
                cases hkt : other k with
                | none => rfl
                | some t => exact congrArg some (h t (.inr ⟨name, other, k, hname, hkt⟩))
              simp [viewSource, hother]
    rw [view, hmap, hsources]

theorem WellFormed.change (h : WellFormed sources m) {heap : Heap GoString} {kvs : SliceMap}
    (hheap : ∀ t, m.heap.Fits t → heap.Fits t)
    (hkvs : ∀ k t, kvs k = some t → m.kvs k = some t ∨ heap.Fits t) :
    WellFormed sources ⟨heap, kvs⟩ := by
  rintro t (⟨k, -, hkt⟩ | ⟨name, other, k, hname, hkt⟩)
  · rcases hkvs k t hkt with hkt' | hfits
    · exact hheap t (h t (.inl ⟨k, by simp, hkt'⟩))
    · exact hfits
  · exact hheap t (h t (.inr ⟨name, other, k, hname, hkt⟩))

/-- A key gets a slice that is there, in a heap that still shows the others. -/
theorem view_update {heap : Heap GoString} (hheap : ∀ t, m.heap.Fits t → heap.view t = m.heap.view t)
    (h : WellFormed sources m) (key : GoString) (o : Option Slice) :
    view sources ⟨heap, Function.update m.kvs key o⟩ =
      ⟨Function.update (viewMap m.heap m.kvs) key (o.map heap.view), (view sources m).sources⟩ := by
  apply (@view_eq_iff _ _ _ heap _ _ [key] ?_ ?_ ?_).mpr
  · rintro t (⟨k, -, hkt⟩ | ⟨name, other, k, hname, hkt⟩)
    · exact hheap t (h t (.inl ⟨k, by simp, hkt⟩))
    · exact hheap t (h t (.inr ⟨name, other, k, hname, hkt⟩))
  · intro k hk
    rw [Function.update_of_ne (by simpa using hk)]
  · intro k hk
    rw [Function.update_of_ne (by simpa using hk)]
  · intro k hk
    obtain rfl : k = key := by simpa using hk
    simp [viewMap]

theorem WellFormed.update (h : WellFormed sources m) {heap : Heap GoString}
    (hheap : ∀ t, m.heap.Fits t → heap.Fits t) (key : GoString) {o : Option Slice}
    (ho : ∀ s, o = some s → heap.Fits s) :
    WellFormed sources ⟨heap, Function.update m.kvs key o⟩ := by
  apply h.change hheap
  intro k t hkt
  by_cases hk : k = key
  · subst hk
    rw [Function.update_self] at hkt
    exact .inr (ho t hkt)
  · rw [Function.update_of_ne hk] at hkt
    exact .inl hkt

section Operations

variable (h : WellFormed sources m) (key : GoString)

include h

theorem view_delete : view sources (m.delete key) = (view sources m).delete key :=
  view_update (fun _ _ => rfl) h key none

theorem wellFormed_delete : WellFormed sources (m.delete key) :=
  h.update (fun _ ht => ht) key (by simp)

theorem view_set {s : Slice} : view sources (m.set key s) = (view sources m).set key (m.heap.view s) :=
  view_update (fun _ _ => rfl) h key (some s)

theorem wellFormed_set {s : Slice} (hs : m.heap.Fits s) : WellFormed sources (m.set key s) :=
  h.update (fun _ ht => ht) key (by simpa using hs)

theorem view_put {xs : List GoString} {cap : ℕ} :
    view sources (m.put key xs cap) = (view sources m).set key xs := by
  rw [Memory.put, view_update (fun _ ht => Heap.view_alloc ht) h key, Option.map_some,
    Heap.view_alloc_self]
  rfl

theorem wellFormed_put {xs : List GoString} {cap : ℕ} (hcap : xs.length ≤ cap) :
    WellFormed sources (m.put key xs cap) :=
  h.update (fun _ ht => ht.alloc) key (by rintro s ⟨⟩; exact Heap.fits_alloc hcap)

theorem view_splitValue (v : GoString) (cut : Slice → Slice) {vs : List GoString}
    (hcut : ∀ (heap : Heap GoString) (s : Slice), s.len = (split v (bytes ",")).length →
      heap.view s = split v (bytes ",") → heap.view (cut s) = vs) :
    view sources (m.splitValue key v cut) = (view sources m).set key vs := by
  rw [Memory.splitValue, view_update (fun _ ht => Heap.view_alloc ht) h key, Option.map_some,
    hcut _ _ rfl Heap.view_alloc_self]
  rfl

theorem wellFormed_splitValue (v : GoString) (cut : Slice → Slice)
    (hcut : ∀ (heap : Heap GoString) (s : Slice), 1 ≤ s.len → heap.Fits s → heap.Fits (cut s)) :
    WellFormed sources (m.splitValue key v cut) := by
  refine h.update (fun _ ht => ht.alloc) key ?_
  rintro s ⟨⟩
  exact hcut _ _ (List.length_pos_iff.mpr (split_byte_ne_nil v)) (Heap.fits_alloc le_rfl)

theorem wellFormed_append (xs : List GoString) : WellFormed sources (m.append key grow xs) :=
  h.update (fun _ ht => ht.append (h.get key)) key
    (by rintro s ⟨⟩; exact Heap.fits_append_self (h.get key))

/-- Values appended to a key. -/
theorem view_append_iff (xs : List GoString) :
    view sources (m.append key grow xs) = (view sources m).set key ((view sources m).get key ++ xs) ↔
      ∀ t, Holds sources m [key] t → m.heap.Spares (m.get key) xs t := by
  have hfits (t : Slice) (ht : Holds sources m [key] t) : m.heap.Fits t :=
    h t (ht.imp_left fun ⟨k, _, hkt⟩ => ⟨k, by simp, hkt⟩)
  rw [Memory.append, Values.set, @view_eq_iff _ _ _ _ _ _ [key]]
  · exact forall_congr' fun t => forall_congr' fun ht => Heap.view_append_iff (h.get key) (hfits t ht)
  · intro k hk
    rw [Function.update_of_ne (by simpa using hk)]
  · intro k hk
    rw [Function.update_of_ne (by simpa using hk)]
    rfl
  · intro k hk
    obtain rfl : k = key := by simpa using hk
    rw [viewMap, Function.update_self, Function.update_self, Option.map_some,
      Heap.view_append_self (h.get k), view_get]

theorem wellFormed_rename (newKey : GoString) (xs : List GoString) :
    WellFormed sources ((m.append newKey grow xs).delete key) :=
  wellFormed_delete (wellFormed_append h newKey xs) key

theorem view_rename_iff (newKey : GoString) (xs : List GoString) :
    view sources ((m.append newKey grow xs).delete key) =
        ((view sources m).set newKey ((view sources m).get newKey ++ xs)).delete key ↔
      ∀ t, Holds sources m [key, newKey] t → m.heap.Spares (m.get newKey) xs t := by
  have hfits (t : Slice) (ht : Holds sources m [key, newKey] t) : m.heap.Fits t :=
    h t (ht.imp_left fun ⟨k, _, hkt⟩ => ⟨k, by simp, hkt⟩)
  rw [Memory.delete, Memory.append, Values.delete, Values.set, @view_eq_iff _ _ _ _ _ _ [key, newKey]]
  · exact forall_congr' fun t => forall_congr' fun ht =>
      Heap.view_append_iff (h.get newKey) (hfits t ht)
  · intro k hk
    simp only [List.mem_cons, List.not_mem_nil, or_false, not_or] at hk
    rw [Function.update_of_ne hk.1]
    exact Function.update_of_ne hk.2 _ _
  · intro k hk
    simp only [List.mem_cons, List.not_mem_nil, or_false, not_or] at hk
    rw [Function.update_of_ne hk.1]
    exact Function.update_of_ne hk.2 _ _
  · intro k hk
    by_cases hkey : k = key
    · simp [viewMap, hkey]
    · obtain rfl : k = newKey := by simpa [hkey] using hk
      rw [viewMap, Function.update_of_ne hkey, Function.update_of_ne hkey]
      dsimp only
      rw [Function.update_self, Function.update_self, Option.map_some,
        Heap.view_append_self (h.get k), view_get]

theorem view_dedupe (strategy : Strategy) :
    view sources (m.dedupe key grow strategy) = (view sources m).dedupe key strategy := by
  have hkvs : (view sources m).kvs key = (m.kvs key).map m.heap.view := rfl
  cases hkey : m.kvs key with
  | none =>
      cases strategy with
      | unique => rw [Memory.dedupe, view_put h, Values.dedupe, view_get]
      | _ => simp [Memory.dedupe, Values.dedupe, hkvs, hkey]
  | some s =>
      have hget : m.get key = s := by simp [Memory.get, hkey]
      cases hview : m.heap.view s with
      | nil =>
          cases strategy with
          | unique => rw [Memory.dedupe, view_put h, Values.dedupe, view_get]
          | _ => simp [Memory.dedupe, Values.dedupe, hkvs, hkey, hget, hview]
      | cons v vs =>
          have hlen : s.len = vs.length + 1 := by
            rw [← (h.get key).length_view.trans (congrArg Slice.len hget), hget, hview,
              List.length_cons]
          have hpos : 1 ≤ s.len := by omega
          cases strategy with
          | unique => rw [Memory.dedupe, view_put h, Values.dedupe, view_get]
          | last =>
              simp only [Memory.dedupe, Values.dedupe, hkvs, hkey, hget, hview, Option.map_some]
              rw [view_set h, Heap.view_since, hview, hlen, Nat.add_sub_cancel]
          | splitFirst =>
              simp only [Memory.dedupe, Values.dedupe, hkvs, hkey, hget, hview, Option.map_some]
              apply view_splitValue h
              intro heap t ht hsplit
              rw [Heap.view_upTo, hsplit]
              rw [ht]
              exact List.length_pos_iff.mpr (split_byte_ne_nil v)
          | splitLast =>
              simp only [Memory.dedupe, Values.dedupe, hkvs, hkey, hget, hview, Option.map_some]
              apply view_splitValue h
              intro heap t ht hsplit
              rw [Heap.view_since, hsplit, ht]
          | first =>
              simp only [Memory.dedupe, Values.dedupe, hkvs, hkey, hget, hview, Option.map_some]
              rw [view_set h, Heap.view_upTo hpos, hview]
              rfl

theorem wellFormed_dedupe (strategy : Strategy) : WellFormed sources (m.dedupe key grow strategy) := by
  cases hkey : m.kvs key with
  | none =>
      cases strategy with
      | unique => exact wellFormed_put h key (grow.le_oneByOne _)
      | _ => simpa [Memory.dedupe, hkey] using h
  | some s =>
      have hget : m.get key = s := by simp [Memory.get, hkey]
      have hfits : m.heap.Fits s := hget ▸ h.get key
      cases hview : m.heap.view s with
      | nil =>
          cases strategy with
          | unique => exact wellFormed_put h key (grow.le_oneByOne _)
          | _ => simpa [Memory.dedupe, hkey, hget, hview] using h
      | cons v vs =>
          have hpos : 1 ≤ s.len := by
            rw [← hfits.length_view, hview]
            exact Nat.succ_pos _
          cases strategy with
          | unique => exact wellFormed_put h key (grow.le_oneByOne _)
          | last =>
              simp only [Memory.dedupe, hkey, hget, hview]
              exact wellFormed_set h key (hfits.since (Nat.sub_le _ _))
          | splitFirst =>
              simp only [Memory.dedupe, hkey, hget, hview]
              exact wellFormed_splitValue h key v _ fun heap t ht hfits =>
                hfits.upTo (ht.trans hfits.len_le)
          | splitLast =>
              simp only [Memory.dedupe, hkey, hget, hview]
              exact wellFormed_splitValue h key v _ fun heap t _ hfits => hfits.since (Nat.sub_le _ _)
          | first =>
              simp only [Memory.dedupe, hkey, hget, hview]
              exact wellFormed_set h key (hfits.upTo (hpos.trans hfits.len_le))

end Operations

/-! ### Runs -/

theorem wellFormed_step (h : WellFormed sources m) (op : Op Re) :
    WellFormed sources (step lib target grow sources m op) := by
  cases op with
  | remove key => exact wellFormed_delete h key
  | rename oldKey newKey =>
      rw [step]
      cases m.kvs oldKey with
      | none => exact h
      | some ovs => exact wellFormed_rename h oldKey newKey _
  | replace key newValue reg =>
      rw [step]
      cases ruleValue lib target reg newValue with
      | none => exact h
      | some v => exact wellFormed_put h key le_rfl
  | add key value reg =>
      rw [step]
      split
      · exact h
      · cases ruleValue lib target reg value with
        | none => exact h
        | some v => exact wellFormed_put h key le_rfl
  | append key appendValue reg =>
      rw [step]
      cases ruleValue lib target reg appendValue with
      | none => exact h
      | some v => exact wellFormed_append h key _
  | map mapSource fromKey toKey =>
      simp only [step]
      cases hsource : sources mapSource with
      | none => exact h
      | some source =>
          cases source with
          | self =>
              cases hfrom : m.kvs (searchKey lib mapSource fromKey) with
              | none => simpa [hfrom] using h
              | some s => simpa [hfrom] using wellFormed_set h toKey (h s (.inl ⟨_, by simp, hfrom⟩))
          | kvs other =>
              cases hfrom : other (searchKey lib mapSource fromKey) with
              | none => simpa [hfrom] using h
              | some s =>
                  simpa [hfrom] using wellFormed_set h toKey (h s (.inr ⟨_, other, _, hsource, hfrom⟩))
          | json data =>
              dsimp only
              cases lib.json data (searchKey lib mapSource fromKey) with
              | none => exact h
              | some v =>
                  dsimp only
                  split
                  · exact h
                  · exact wellFormed_put h toKey le_rfl
  | dedupe key strategy => exact wellFormed_dedupe h key _

theorem view_map (h : WellFormed sources m) (mapSource fromKey toKey : GoString) :
    view sources (step lib target grow sources m (.map mapSource fromKey toKey)) =
      valueStep lib target (view sources m) (.map mapSource fromKey toKey) := by
  have hsources : (view sources m).sources mapSource =
      (sources mapSource).map (viewSource m.heap) := rfl
  simp only [step, valueStep, hsources]
  cases sources mapSource with
  | none => rfl
  | some source =>
      cases source with
      | self =>
          change _ = (((m.kvs (searchKey lib mapSource fromKey)).map m.heap.view).map _).getD _
          cases m.kvs (searchKey lib mapSource fromKey) with
          | none => rfl
          | some s => exact view_set h toKey
      | kvs other =>
          dsimp only
          change _ = (((other (searchKey lib mapSource fromKey)).map m.heap.view).map _).getD _
          cases other (searchKey lib mapSource fromKey) with
          | none => rfl
          | some s => exact view_set h toKey
      | json data =>
          simp only [Option.map_some, viewSource]
          cases lib.json data (searchKey lib mapSource fromKey) with
          | none => rfl
          | some v =>
              dsimp only
              split
              · rfl
              · exact view_put h toKey

/-- One step acts on the values as on immutable lists exactly when it meets the condition. -/
theorem view_step_iff (h : WellFormed sources m) (op : Op Re) :
    view sources (step lib target grow sources m op) = valueStep lib target (view sources m) op ↔
      Meets lib target sources m op := by
  cases op with
  | remove key => exact iff_of_true (view_delete h key) True.intro
  | rename oldKey newKey =>
      have hold : (view sources m).kvs oldKey = (m.kvs oldKey).map m.heap.view := rfl
      rw [step, valueStep, hold, Meets]
      cases m.kvs oldKey with
      | none => simp
      | some ovs => simpa using view_rename_iff h oldKey newKey (m.heap.view ovs)
  | replace key newValue reg =>
      refine iff_of_true ?_ True.intro
      rw [step, valueStep]
      cases ruleValue lib target reg newValue with
      | none => rfl
      | some v => exact view_put h key
  | add key value reg =>
      refine iff_of_true ?_ True.intro
      have hkey : ((view sources m).kvs key).isSome = (m.kvs key).isSome := by simp [view, viewMap]
      rw [step, valueStep, hkey]
      split
      · rfl
      · cases ruleValue lib target reg value with
        | none => rfl
        | some v => exact view_put h key
  | append key appendValue reg =>
      rw [step, valueStep, Meets]
      cases ruleValue lib target reg appendValue with
      | none => simp
      | some v => simpa using view_append_iff h key [v]
  | map mapSource fromKey toKey => exact iff_of_true (view_map h mapSource fromKey toKey) True.intro
  | dedupe key strategy => exact iff_of_true (view_dedupe h key _) True.intro

/-- A rule of one entry. -/
def Op.single : Op Re → KvtOperation Re
  | remove key => .remove [key]
  | rename oldKey newKey => .rename [(oldKey, newKey)]
  | replace key newValue reg => .replace [(key, newValue, reg)]
  | add key value reg => .add [(key, value, reg)]
  | append key appendValue reg => .append [(key, appendValue, reg)]
  | map mapSource fromKey toKey => .map mapSource [(fromKey, toKey)]
  | dedupe key strategy => .dedupe [(key, strategy)]

theorem flatMap_single (ops : List (Op Re)) : (ops.map Op.single).flatMap KvtOperation.ops = ops := by
  induction ops with
  | nil => rfl
  | cons op ops ih =>
      rw [List.map_cons, List.flatMap_cons, ih]
      cases op with
      | _ => rfl

theorem handle_eq (kvtOps : List (KvtOperation Re)) :
    handle lib target grow sources m kvtOps =
      (kvtOps.flatMap KvtOperation.ops).foldl (step lib target grow sources) m := by
  rw [handle, List.foldl_flatMap]

theorem valueHandle_eq (w : Values Json) (kvtOps : List (KvtOperation Re)) :
    valueHandle lib target w kvtOps =
      (kvtOps.flatMap KvtOperation.ops).foldl (valueStep lib target) w := by
  rw [valueHandle, List.foldl_flatMap]

end View

section Semantics

variable {Re Json : Type*} (lib : Library Re Json) (target : Target) (grow : Growth)
  (sources : GoString → Option (Source SliceMap Json))

/-- A list of rules, cut behind any entry, leaves the maps that it leaves on immutable lists. -/
def HasValueSemantics (m : Memory) (kvtOps : List (KvtOperation Re)) : Prop :=
  ∀ rules, rules.flatMap KvtOperation.ops <+: kvtOps.flatMap KvtOperation.ops →
    view sources (handle lib target grow sources m rules) =
      valueHandle lib target (view sources m) rules

/-- The operations have value semantics exactly as long as no append in place writes over a slot
that another key shows. -/
theorem handle_hasValueSemantics_iff (m : Memory) (h : WellFormed sources m)
    (kvtOps : List (KvtOperation Re)) :
    HasValueSemantics lib target grow sources m kvtOps ↔
      Run.Along (step lib target grow sources) (Meets lib target sources) m
        (kvtOps.flatMap KvtOperation.ops) := by
  rw [← @Run.forall_prefix_iff_along _ _ (WellFormed sources) _ (view sources)
    (step lib target grow sources) (valueStep lib target) _ (fun _ op hm => wellFormed_step hm op)
    (fun _ op hm => view_step_iff hm op) m h]
  constructor
  · intro hrules done hdone
    have := hrules (done.map Op.single) (by rwa [flatMap_single])
    rwa [handle_eq, valueHandle_eq, flatMap_single] at this
  · intro hdone rules hrules
    rw [handle_eq, valueHandle_eq]
    exact hdone _ hrules

end Semantics

/-! ### Headers -/

/-- `convertHeaders`. -/
def convertHeaders (toLower : GoString → GoString) (grow : Growth) (hs : List (GoString × GoString)) :
    Memory :=
  hs.foldl (fun m h => m.append (toLower h.1) grow [h.2]) ⟨[], fun _ => none⟩

theorem wellFormed_convertHeaders {Json : Type*} {sources : GoString → Option (Source SliceMap Json)}
    (hsources : ∀ name other, sources name ≠ some (.kvs other)) (toLower : GoString → GoString)
    (grow : Growth) (hs : List (GoString × GoString)) :
    WellFormed sources (convertHeaders toLower grow hs) := by
  have hrun (m : Memory) (hm : WellFormed sources m) :
      WellFormed sources (hs.foldl (fun m h => m.append (toLower h.1) grow [h.2]) m) := by
    induction hs generalizing m with
    | nil => exact hm
    | cons h hs ih => exact ih _ (wellFormed_append hm _ _)
  apply hrun
  rintro t (⟨k, -, hkt⟩ | ⟨name, other, k, hname, -⟩)
  · exact absurd hkt (by simp)
  · exact absurd hname (hsources name other)

/-- Go's library as far as an example needs it: ASCII, and arrays that double. -/
def sampleLibrary : Library Unit Unit where
  toLower := lower
  toUpper s := s.map fun b => if 97 ≤ b ∧ b ≤ 122 then b - 32 else b
  matchString _ _ := false
  replaceAllString _ s _ := s
  json _ _ := none

def sampleGrowth : Growth := ⟨fun cap needed => max needed (2 * cap), fun _ _ => le_max_left _ _⟩

/-- The headers of a response are handled, and `map` looks up its keys there. -/
def selfSource (name : GoString) : Option (Source SliceMap Unit) :=
  if name = bytes "headers" then some .self else none

def twoValues : Memory :=
  convertHeaders lower sampleGrowth [(bytes "H", bytes "a"), (bytes "h", bytes "b")]

theorem wellFormed_twoValues : WellFormed selfSource twoValues :=
  wellFormed_convertHeaders (fun name other => by rw [selfSource]; split <;> simp) _ _ _

/-- A copy that has no room left is not written in place. -/
theorem handle_map_append : HasValueSemantics sampleLibrary ⟨[], []⟩ sampleGrowth selfSource twoValues
    [.map (bytes "headers") [(bytes "h", bytes "g")], .append [(bytes "g", bytes "x", none)]] := by
  rw [handle_hasValueSemantics_iff _ _ _ _ _ wellFormed_twoValues]
  refine ⟨True.intro, ?_, True.intro⟩
  rintro v hv t - hroom
  obtain rfl : v = bytes "x" := (Option.some.inj hv).symm
  exact absurd hroom (by decide)

/-- A copy that was shortened: what is appended to it writes over the second value of its source. -/
theorem handle_map_dedupe_append : ¬ HasValueSemantics sampleLibrary ⟨[], []⟩ sampleGrowth selfSource
    twoValues [.map (bytes "headers") [(bytes "h", bytes "g")],
      .dedupe [(bytes "g", bytes "RETAIN_FIRST")], .append [(bytes "g", bytes "x", none)]] := by
  intro h
  have hvalues := congrArg (fun w => w.kvs (bytes "h")) (h _ (List.prefix_refl _))
  exact absurd hvalues (by decide)

end Higress.Transformer
