import Higress.Lib.GoMap
import Higress.Lib.Json

/-!
The client capabilities of the protocol (`capabilities.go`): how they are read
from a request, and which of the capabilities that a method requires a client
has not declared.

A raw JSON message stands for the value it spells. A Go map is the list of its
members, each name once; nothing depends on their order.
-/

namespace Higress.Mcp.Capabilities

open Lib GoMap

/-! ### Objects -/

abbrev JSONObject := List (GoString × Json)

def decodeJSONObject : Json → Option JSONObject
  | .obj ms => some (lastWins ms)
  | _ => none

/-! ### Values -/

/-- What `json.Unmarshal` stores in an `any`; numbers are floats. -/
inductive Value (F : Type*)
  | nil
  | bool (b : Bool)
  | float (x : F)
  | string (s : GoString)
  | slice (vs : List (Value F))
  | map (ms : List (GoString × Value F))

section

variable {F : Type*} (parseFloat : GoString → Option F)

mutual

/-- `json.Unmarshal` into an `any`. A number out of range is an error. -/
def decodeAny : Json → Option (Value F)
  | .null => some .nil
  | .bool b => some (.bool b)
  | .num lit => (parseFloat lit).map .float
  | .str s => some (.string s)
  | .arr vs => (decodeAnys vs).map .slice
  | .obj ms => (decodeAnyMembers ms).map fun ms => .map (lastWins ms)

def decodeAnys : List Json → Option (List (Value F))
  | [] => some []
  | v :: vs => do
      let x ← decodeAny v
      let xs ← decodeAnys vs
      return x :: xs

def decodeAnyMembers : List (GoString × Json) → Option (List (GoString × Value F))
  | [] => some []
  | (name, v) :: ms => do
      let x ← decodeAny v
      let xs ← decodeAnyMembers ms
      return (name, x) :: xs

end

mutual

/-- `reflect.DeepEqual`. -/
def deepEqual [BEq F] : Value F → Value F → Bool
  | .nil, .nil => true
  | .bool a, .bool b => a == b
  | .float x, .float y => x == y
  | .string s, .string t => s == t
  | .slice vs, .slice ws => deepEquals vs ws
  | .map ms, .map ns => ms.length == ns.length && deepEqualMembers ms ns
  | _, _ => false

def deepEquals [BEq F] : List (Value F) → List (Value F) → Bool
  | [], [] => true
  | v :: vs, w :: ws => deepEqual v w && deepEquals vs ws
  | _, _ => false

def deepEqualMembers [BEq F] :
    List (GoString × Value F) → List (GoString × Value F) → Bool
  | [], _ => true
  | (name, v) :: ms, ns =>
      (match ns.lookup name with
        | some w => deepEqual v w
        | none => false) && deepEqualMembers ms ns

end

def jsonValuesEqual [BEq F] (left right : Json) : Bool :=
  match decodeAny parseFloat left, decodeAny parseFloat right with
  | some leftValue, some rightValue => deepEqual leftValue rightValue
  | _, _ => false

/-! ### Missing members -/

mutual

/-- What is missing of a required value where there is an actual one. -/
def missingValue [BEq F] (actualValue : Json) : Json → Option Json
  | .obj requiredObject =>
      match decodeJSONObject actualValue with
      | none => some (.obj requiredObject)
      | some actualObject =>
          let nested := missingJSONObjectMembers actualObject requiredObject
          if nested.length > 0 then some (.obj nested) else none
  | requiredValue =>
      if jsonValuesEqual parseFloat actualValue requiredValue then none else some requiredValue

/-- `missingJSONObjectMembers` on the members of the required object; one that
comes again later does not count. -/
def missingJSONObjectMembers [BEq F] (actual : JSONObject) :
    List (GoString × Json) → JSONObject
  | [] => []
  | (name, requiredValue) :: required =>
      if required.any (·.1 == name) then missingJSONObjectMembers actual required
      else
        match actual.lookup name with
        | none => (name, requiredValue) :: missingJSONObjectMembers actual required
        | some actualValue =>
            match missingValue actualValue requiredValue with
            | none => missingJSONObjectMembers actual required
            | some missing => (name, missing) :: missingJSONObjectMembers actual required

end

end

/-! ### Client capabilities -/

structure RootCapabilities where

structure SamplingCapabilities where
  context : Option JSONObject
  tools : Option JSONObject

structure ElicitationCapabilities where
  form : Option JSONObject
  url : Option JSONObject

structure ClientCapabilities where
  experimental : Option (List (GoString × JSONObject)) := none
  roots : Option RootCapabilities := none
  sampling : Option SamplingCapabilities := none
  elicitation : Option ElicitationCapabilities := none
  extensions : Option (List (GoString × JSONObject)) := none
  additional : List (GoString × JSONObject) := []

/-- The names with a field of their own. -/
inductive Known
  | experimental
  | roots
  | sampling
  | elicitation
  | extensions
  deriving DecidableEq

def Known.name : Known → GoString
  | .experimental => bytes "experimental"
  | .roots => bytes "roots"
  | .sampling => bytes "sampling"
  | .elicitation => bytes "elicitation"
  | .extensions => bytes "extensions"

def Known.all : List Known := [.experimental, .roots, .sampling, .elicitation, .extensions]

def isKnown (name : GoString) : Bool := Known.all.any (·.name == name)

def isLetter (b : UInt8) : Bool := 65 ≤ b && b ≤ 90 || 97 ≤ b && b ≤ 122

def isAlnum (b : UInt8) : Bool := isLetter b || Json.isDigit b

/-- A word with its first and its last byte in one class and the others in a
larger one. -/
def isWord (first last inner : UInt8 → Bool) (w : GoString) : Bool :=
  w.head?.any first && w.getLast?.any last && w.all inner

/-- The regular expression `extensionCapabilityName`: labels, a slash, and a
name that may be empty. -/
def extensionCapabilityName (name : GoString) : Bool :=
  match name.splitOn 47 with
  | [labels, rest] =>
      (labels.splitOn 46).all (isWord isLetter isAlnum fun b => isAlnum b || b == 45) &&
        (rest.isEmpty ||
          isWord isAlnum isAlnum (fun b => isAlnum b || b == 46 || b == 95 || b == 45) rest)
  | _ => false

def decodeJSONObjectMap (validName : GoString → Bool) (raw : Json) :
    Option (List (GoString × JSONObject)) := do
  let members ← decodeJSONObject raw
  members.mapM fun m =>
    if m.1 = [] ∨ !validName m.1 then none else (decodeJSONObject m.2).map (m.1, ·)

/-- An open object with two members that are read; all its members have to be
objects. -/
def decodeOpenObject (first second : GoString) (raw : Json) :
    Option (Option JSONObject × Option JSONObject) := do
  let members ← decodeJSONObject raw
  let objects ← members.mapM fun m => (decodeJSONObject m.2).map (m.1, ·)
  return (objects.lookup first, objects.lookup second)

def decodeSamplingCapabilities (raw : Json) : Option SamplingCapabilities :=
  (decodeOpenObject (bytes "context") (bytes "tools") raw).map fun o => ⟨o.1, o.2⟩

def decodeElicitationCapabilities (raw : Json) : Option ElicitationCapabilities :=
  (decodeOpenObject (bytes "form") (bytes "url") raw).map fun o => ⟨o.1, o.2⟩

/-- `ClientCapabilities.UnmarshalJSON`. The loop over the members visits each
name once, so the cases of its switch are lookups. -/
def unmarshalJSON (data : Json) : Option ClientCapabilities := do
  let members ← decodeJSONObject data
  let field := fun k : Known => members.lookup k.name
  let experimental ← (field .experimental).mapM (decodeJSONObjectMap fun _ => true)
  let roots ← (field .roots).mapM fun raw => (decodeJSONObject raw).map fun _ => RootCapabilities.mk
  let sampling ← (field .sampling).mapM decodeSamplingCapabilities
  let elicitation ← (field .elicitation).mapM decodeElicitationCapabilities
  let extensions ← (field .extensions).mapM (decodeJSONObjectMap extensionCapabilityName)
  let additional ← (members.filter fun m => !isKnown m.1).mapM fun m =>
    if m.1 = [] then none else (decodeJSONObject m.2).map (m.1, ·)
  return { experimental, roots, sampling, elicitation, extensions, additional }

/-- A member of an object that is written only if it is there. -/
def entry (name : GoString) (v : Option Json) : JSONObject := (v.map (name, ·)).toList

def objectMap (ms : List (GoString × JSONObject)) : Json := .obj (ms.map fun m => (m.1, .obj m.2))

/-- The members that `MarshalJSON` writes for the known fields. -/
def ClientCapabilities.field (c : ClientCapabilities) : Known → Option Json
  | .experimental => c.experimental.map objectMap
  | .roots => c.roots.map fun _ => .obj []
  | .sampling => c.sampling.map fun s =>
      .obj (entry (bytes "context") (s.context.map .obj) ++ entry (bytes "tools") (s.tools.map .obj))
  | .elicitation => c.elicitation.map fun e =>
      .obj (entry (bytes "form") (e.form.map .obj) ++ entry (bytes "url") (e.url.map .obj))
  | .extensions => c.extensions.map objectMap

/-- `ClientCapabilities.MarshalJSON`. -/
def ClientCapabilities.marshalJSON (c : ClientCapabilities) : Json :=
  .obj (lastWins (c.additional.map (fun m => (m.1, .obj m.2)) ++
    Known.all.flatMap fun k => entry k.name (c.field k)))

def ClientCapabilities.isEmpty (c : ClientCapabilities) : Bool :=
  c.roots.isNone && c.sampling.isNone && c.elicitation.isNone &&
    (c.experimental.getD []).length == 0 && (c.extensions.getD []).length == 0 &&
    c.additional.length == 0

/-- `missingClientCapabilities`. -/
def missingClientCapabilities {F : Type*} [BEq F] (parseFloat : GoString → Option F)
    (actual required : ClientCapabilities) : ClientCapabilities :=
  let actualObject := (decodeJSONObject actual.marshalJSON).getD []
  let requiredObject := (decodeJSONObject required.marshalJSON).getD []
  let missingObject := missingJSONObjectMembers parseFloat actualObject requiredObject
  if missingObject.length = 0 then {}
  else (unmarshalJSON (.obj missingObject)).getD {}

/-! ### Declared members -/

section

variable {F : Type*} [BEq F] (parseFloat : GoString → Option F)

/-- The member at a path of names. -/
def member : List GoString → Json → Option Json
  | [], v => some v
  | name :: path, v => do
      let object ← decodeJSONObject v
      let v ← object.lookup name
      member path v

/-- An object stands for its presence; other values have to be equal. -/
def Agrees (actual : Json) : Json → Prop
  | .obj _ => ∃ ms, actual = .obj ms
  | required => jsonValuesEqual parseFloat actual required = true

/-- Every member of what is required, at any depth, is there. -/
def Declares (actual required : Json) : Prop :=
  ∀ path v, member path required = some v →
    ∃ a, member path actual = some a ∧ Agrees parseFloat a v

theorem member_obj (name : GoString) (path : List GoString) (ms : List (GoString × Json)) :
    member (name :: path) (.obj ms) = ((lastWins ms).lookup name).bind (member path) := by
  simp [member, decodeJSONObject, Option.bind_eq_bind]

theorem declares_obj_iff {as rs : List (GoString × Json)} :
    Declares parseFloat (.obj as) (.obj rs) ↔ ∀ name v, (lastWins rs).lookup name = some v →
      ∃ a, (lastWins as).lookup name = some a ∧ Declares parseFloat a v := by
  constructor
  · intro h name v hv
    obtain ⟨a, ha, -⟩ := h [name] v (by rw [member_obj, hv]; rfl)
    rw [member_obj] at ha
    obtain ⟨a', ha', haa⟩ := Option.bind_eq_some_iff.mp ha
    refine ⟨a', ha', fun path w hw => ?_⟩
    obtain ⟨b, hb, hagrees⟩ := h (name :: path) w (by rw [member_obj, hv]; exact hw)
    rw [member_obj, ha'] at hb
    exact ⟨b, hb, hagrees⟩
  · intro h path w hw
    cases path with
    | nil =>
        obtain rfl : Json.obj rs = w := by simpa [member] using hw
        exact ⟨.obj as, rfl, as, rfl⟩
    | cons name path =>
        rw [member_obj] at hw
        obtain ⟨v, hv, hw⟩ := Option.bind_eq_some_iff.mp hw
        obtain ⟨a, ha, hdeclares⟩ := h name v hv
        rw [member_obj, ha]
        exact hdeclares path w hw

theorem declares_leaf_iff {a v : Json} (hv : decodeJSONObject v = none) :
    Declares parseFloat a v ↔ jsonValuesEqual parseFloat a v = true := by
  have hagrees : Agrees parseFloat a v ↔ jsonValuesEqual parseFloat a v = true := by
    cases v <;> first | rfl | simp [decodeJSONObject] at hv
  constructor
  · intro h
    obtain ⟨b, hb, hag⟩ := h [] v rfl
    obtain rfl : a = b := by simpa [member] using hb
    exact hagrees.mp hag
  · intro h path w hw
    cases path with
    | nil =>
        obtain rfl : v = w := by simpa [member] using hw
        exact ⟨a, rfl, hagrees.mpr h⟩
    | cons name path => simp [member, hv] at hw

/-- Only an object declares an object. -/
theorem exists_obj_of_declares {a : Json} {rs : List (GoString × Json)}
    (h : Declares parseFloat a (.obj rs)) : ∃ as, a = .obj as := by
  obtain ⟨b, hb, hagrees⟩ := h [] _ rfl
  obtain rfl : a = b := by simpa [member] using hb
  exact hagrees

theorem missingValue_leaf {a v : Json} (hv : decodeJSONObject v = none) :
    missingValue parseFloat a v = none ↔ Declares parseFloat a v := by
  have heq : missingValue parseFloat a v =
      if jsonValuesEqual parseFloat a v then none else some v := by
    cases v <;> first | rfl | simp [decodeJSONObject] at hv
  rw [heq, declares_leaf_iff parseFloat hv]
  split <;> simp_all

mutual

theorem missingValue_eq_none_iff (a : Json) :
    ∀ v, missingValue parseFloat a v = none ↔ Declares parseFloat a v
  | .null | .bool _ | .num _ | .str _ | .arr _ => missingValue_leaf parseFloat rfl
  | .obj rs => by
      rw [missingValue]
      by_cases ha : ∃ as, a = .obj as
      · obtain ⟨as, rfl⟩ := ha
        have hnested := missingJSONObjectMembers_eq_nil_iff (lastWins as) rs
        rw [declares_obj_iff, ← hnested]
        dsimp only [decodeJSONObject]
        split
        · rename_i hlen
          simp [List.ne_nil_of_length_pos hlen]
        · rename_i hlen
          simpa using hlen
      · have hnone : decodeJSONObject a = none := by
          cases a <;> first | rfl | exact absurd ⟨_, rfl⟩ ha
        rw [hnone]
        simp only [reduceCtorEq, false_iff]
        exact fun h => ha (exists_obj_of_declares parseFloat h)

/-- Nothing is missing exactly when every member is declared. -/
theorem missingJSONObjectMembers_eq_nil_iff (actual : JSONObject) :
    ∀ rs, missingJSONObjectMembers parseFloat actual rs = [] ↔
      ∀ name v, (lastWins rs).lookup name = some v →
        ∃ a, actual.lookup name = some a ∧ Declares parseFloat a v
  | [] => by simp [missingJSONObjectMembers, lastWins]
  | (name, v) :: rs => by
      have ih := missingJSONObjectMembers_eq_nil_iff actual rs
      have hv := fun a => missingValue_eq_none_iff a v
      rw [missingJSONObjectMembers, lastWins]
      split
      · exact ih
      · rename_i hnew
        have hlast : (lastWins rs).lookup name = none := by
          rw [GoMap.lookup_eq_none_iff]
          intro hmem
          obtain ⟨m, hm, rfl⟩ := List.mem_map.mp hmem
          exact hnew (List.any_eq_true.mpr ⟨m, mem_of_mem_lastWins hm, by simp⟩)
        -- the first member apart from the others
        have hsplit : (∀ n w, ((name, v) :: lastWins rs).lookup n = some w →
            ∃ a, actual.lookup n = some a ∧ Declares parseFloat a w) ↔
            (∃ a, actual.lookup name = some a ∧ Declares parseFloat a v) ∧
              missingJSONObjectMembers parseFloat actual rs = [] := by
          rw [ih]
          constructor
          · intro h
            refine ⟨h name v (by simp), fun n w hw => h n w ?_⟩
            have hne : (n == name) = false := by
              rw [beq_eq_false_iff_ne]
              rintro rfl
              simp [hlast] at hw
            rw [List.lookup_cons, hne]
            exact hw
          · rintro ⟨hfirst, hrest⟩ n w hw
            rw [List.lookup_cons] at hw
            split at hw
            · rename_i heq
              obtain rfl : v = w := by simpa using hw
              obtain rfl : n = name := by simpa using heq
              exact hfirst
            · exact hrest n w hw
        rw [hsplit]
        cases hact : actual.lookup name with
        | none => simp
        | some a =>
            simp only [Option.some.injEq, exists_eq_left', ← hv]
            cases missingValue parseFloat a v <;> simp

end

/-! ### What is missing -/

/-- What is missing of one member. -/
def missingMember (actual : JSONObject) (m : GoString × Json) : Option Json :=
  match actual.lookup m.1 with
  | none => some m.2
  | some a => missingValue parseFloat a m.2

theorem missingJSONObjectMembers_eq (actual : JSONObject) (rs : List (GoString × Json)) :
    missingJSONObjectMembers parseFloat actual rs =
      (lastWins rs).filterMap fun m => (missingMember parseFloat actual m).map (m.1, ·) := by
  induction rs with
  | nil => rfl
  | cons m rs ih =>
      obtain ⟨name, v⟩ := m
      rw [missingJSONObjectMembers, lastWins]
      split
      · exact ih
      · rw [List.filterMap_cons, missingMember]
        cases actual.lookup name with
        | none => simp [ih]
        | some a =>
            dsimp only
            cases missingValue parseFloat a v <;> simp [ih]

theorem mem_missingJSONObjectMembers {actual : JSONObject} {rs : List (GoString × Json)}
    {name : GoString} {w : Json} :
    (name, w) ∈ missingJSONObjectMembers parseFloat actual rs ↔
      ∃ v, (name, v) ∈ lastWins rs ∧ missingMember parseFloat actual (name, v) = some w := by
  rw [missingJSONObjectMembers_eq, List.mem_filterMap]
  constructor
  · rintro ⟨⟨n, v⟩, hmem, h⟩
    obtain ⟨w', hw', heq⟩ := Option.map_eq_some_iff.mp h
    obtain ⟨rfl, rfl⟩ := Prod.mk.inj heq
    exact ⟨v, hmem, hw'⟩
  · rintro ⟨v, hmem, h⟩
    exact ⟨(name, v), hmem, by rw [h]; rfl⟩

theorem nodup_missingJSONObjectMembers (actual : JSONObject) (rs : List (GoString × Json)) :
    ((missingJSONObjectMembers parseFloat actual rs).map Prod.fst).Nodup := by
  refine (nodup_lastWins rs).sublist ?_
  rw [missingJSONObjectMembers_eq]
  induction lastWins rs with
  | nil => simp
  | cons m ms ih =>
      rw [List.filterMap_cons]
      cases missingMember parseFloat actual m with
      | none => exact ih.trans (List.sublist_cons_self _ _)
      | some w => exact ih.cons_cons _

/-- An object of objects whose names satisfy a condition. -/
def Nested (p : GoString → Prop) (v : Json) : Prop :=
  ∃ ns, v = .obj ns ∧ ∀ m ∈ ns, p m.1 ∧ ∃ os, m.2 = .obj os

/-- What is missing of an object is an object, empty only if all of it is
missing. -/
theorem missingValue_obj {a w : Json} {rs : List (GoString × Json)}
    (h : missingValue parseFloat a (.obj rs) = some w) :
    ∃ ns, w = .obj ns ∧ (ns = rs ∨ ns ≠ [] ∧
      ∃ actual, ns = missingJSONObjectMembers parseFloat actual rs) := by
  rw [missingValue] at h
  split at h
  · exact ⟨rs, (Option.some.inj h).symm, Or.inl rfl⟩
  · rename_i actual _
    dsimp only at h
    split at h
    · rename_i hlen
      exact ⟨_, (Option.some.inj h).symm, Or.inr ⟨List.ne_nil_of_length_pos hlen, actual, rfl⟩⟩
    · simp at h

/-- Of an object that is there never nothing is missing. -/
theorem ne_nil_of_missingValue_obj {as rs ns : List (GoString × Json)}
    (h : missingValue parseFloat (.obj as) (.obj rs) = some (.obj ns)) : ns ≠ [] := by
  rw [missingValue] at h
  dsimp only [decodeJSONObject] at h
  split at h
  · rename_i hlen
    obtain rfl := Json.obj.inj (Option.some.inj h)
    exact List.ne_nil_of_length_pos hlen
  · simp at h

theorem missingMember_obj {actual : JSONObject} {name : GoString} {w : Json}
    {rs : List (GoString × Json)}
    (h : missingMember parseFloat actual (name, .obj rs) = some w) :
    ∃ ns, w = .obj ns ∧ (ns = rs ∨ ns ≠ [] ∧
      ∃ actual, ns = missingJSONObjectMembers parseFloat actual rs) := by
  rw [missingMember] at h
  split at h
  · exact ⟨rs, (Option.some.inj h).symm, Or.inl rfl⟩
  · exact missingValue_obj parseFloat h

theorem Nested.missing {p : GoString → Prop} {actual : JSONObject} {name : GoString} {v w : Json}
    (hv : Nested p v) (h : missingMember parseFloat actual (name, v) = some w) : Nested p w := by
  obtain ⟨rs, rfl, hrs⟩ := hv
  obtain ⟨ns, rfl, rfl | ⟨-, inner, rfl⟩⟩ := missingMember_obj parseFloat h
  · exact ⟨ns, rfl, hrs⟩
  · refine ⟨_, rfl, fun m hm => ?_⟩
    obtain ⟨v', hv', hmiss⟩ := (mem_missingJSONObjectMembers parseFloat).mp hm
    obtain ⟨hp, os, hos⟩ := hrs _ (mem_of_mem_lastWins hv')
    dsimp only at hos
    rw [hos] at hmiss
    obtain ⟨ns, hns, -⟩ := missingMember_obj parseFloat hmiss
    exact ⟨hp, ns, hns⟩

end

/-! ### Reading capabilities -/

theorem decodeJSONObject_obj (ms : List (GoString × Json)) :
    decodeJSONObject (.obj ms) = some (lastWins ms) := rfl

theorem mapM_eq_some {α β : Type*} {f : α → Option β} {l : List α}
    (h : ∀ x ∈ l, (f x).isSome = true) : ∃ ys, l.mapM f = some ys ∧ ys.length = l.length := by
  induction l with
  | nil => exact ⟨[], rfl, rfl⟩
  | cons x l ih =>
      obtain ⟨y, hy⟩ := Option.isSome_iff_exists.mp (h x (by simp))
      obtain ⟨ys, hys, hlen⟩ := ih fun x hx => h x (by simp [hx])
      exact ⟨y :: ys, by simp [hy, hys], by simp [hlen]⟩

/-- Reading a member that may be there. -/
theorem optionMapM_eq_some {α β : Type*} {f : α → Option β} {o : Option α}
    (h : ∀ x, o = some x → ∃ y, f x = some y) :
    ∃ r, o.mapM f = some r ∧ (r.isNone = true ↔ o = none) := by
  cases o with
  | none => exact ⟨none, rfl, by simp⟩
  | some x =>
      obtain ⟨y, hy⟩ := h x rfl
      exact ⟨some y, by simp [hy], by simp⟩

/-- A collection that is not there and an empty one are read alike. -/
theorem collection_mapM_eq_some {validName : GoString → Bool} {o : Option Json}
    (h : ∀ v, o = some v → Nested (fun n => n ≠ [] ∧ validName n = true) v) :
    ∃ r, o.mapM (decodeJSONObjectMap validName) = some r ∧
      ((r.getD []).length = 0 ↔ ∀ v, o = some v → v = .obj []) := by
  cases o with
  | none => exact ⟨none, rfl, by simp⟩
  | some v =>
      obtain ⟨ns, rfl, hns⟩ := h v rfl
      have hall : ∀ m ∈ lastWins ns, (if m.1 = [] ∨ !validName m.1 then none
          else (decodeJSONObject m.2).map (m.1, ·)).isSome = true := by
        intro m hm
        obtain ⟨⟨hne, hvalid⟩, os, hos⟩ := hns m (mem_of_mem_lastWins hm)
        rw [if_neg (by simp [hne, hvalid]), hos]
        rfl
      obtain ⟨xs, hxs, hlen⟩ := mapM_eq_some hall
      have hdecode : decodeJSONObjectMap validName (.obj ns) = some xs := hxs
      refine ⟨some xs, by simp [hdecode], ?_⟩
      rw [Option.getD_some, hlen, List.length_eq_zero_iff, lastWins_eq_nil_iff]
      simp

theorem decodeOpenObject_nested {first second : GoString} {v : Json}
    (h : Nested (fun _ => True) v) : ∃ o, decodeOpenObject first second v = some o := by
  obtain ⟨ns, rfl, hns⟩ := h
  have hall : ∀ m ∈ lastWins ns,
      ((decodeJSONObject m.2).map fun o => (m.1, o)).isSome = true := by
    intro m hm
    obtain ⟨-, os, hos⟩ := hns m (mem_of_mem_lastWins hm)
    rw [hos]
    rfl
  obtain ⟨xs, hxs, -⟩ := mapM_eq_some hall
  exact ⟨(xs.lookup first, xs.lookup second), by simp [decodeOpenObject, decodeJSONObject_obj, hxs]⟩

/-- A member of capabilities that are read without error. -/
structure Decodable (m : GoString × Json) : Prop where
  name : m.1 ≠ []
  object : ∃ ns, m.2 = .obj ns
  experimental : m.1 = Known.experimental.name → Nested (· ≠ []) m.2
  extensions : m.1 = Known.extensions.name →
    Nested (fun n => n ≠ [] ∧ extensionCapabilityName n = true) m.2
  sampling : m.1 = Known.sampling.name ∨ m.1 = Known.elicitation.name →
    Nested (fun _ => True) m.2

/-- A member that leaves nothing behind in the capabilities read from it. -/
def Vanishes (m : GoString × Json) : Prop :=
  (m.1 = Known.experimental.name ∨ m.1 = Known.extensions.name) ∧ m.2 = .obj []

theorem isKnown_iff {name : GoString} : isKnown name = true ↔ ∃ k : Known, name = k.name := by
  rw [isKnown, List.any_eq_true]
  constructor
  · rintro ⟨k, -, hk⟩
    exact ⟨k, (beq_iff_eq.mp hk).symm⟩
  · rintro ⟨k, rfl⟩
    refine ⟨k, ?_, by simp⟩
    cases k <;> simp [Known.all]

theorem Known.name_injective : Function.Injective Known.name := by
  intro k k' h
  cases k <;> cases k' <;> first | rfl | exact absurd h (by decide)

theorem vanishes_known {k : Known} {raw : Json} :
    Vanishes (k.name, raw) ↔ (k = .experimental ∨ k = .extensions) ∧ raw = .obj [] := by
  rw [Vanishes, Known.name_injective.eq_iff, Known.name_injective.eq_iff]

theorem forall_vanishes_iff {ms : List (GoString × Json)} (hnodup : (ms.map Prod.fst).Nodup) :
    (∀ m ∈ ms, Vanishes m) ↔
      (∀ (k : Known) raw, ms.lookup k.name = some raw → Vanishes (k.name, raw)) ∧
        (ms.filter fun m => !isKnown m.1) = [] := by
  constructor
  · intro h
    refine ⟨fun k raw hraw => h _ ((GoMap.lookup_eq_some_iff hnodup).mp hraw), ?_⟩
    rw [List.filter_eq_nil_iff]
    intro m hm
    rw [Bool.not_eq_true', Bool.not_eq_false, isKnown_iff]
    rcases (h m hm).1 with hname | hname
    · exact ⟨_, hname⟩
    · exact ⟨_, hname⟩
  · rintro ⟨hknown, hfilter⟩ m hm
    have : isKnown m.1 = true := by
      simpa using List.filter_eq_nil_iff.mp hfilter m hm
    obtain ⟨k, hk⟩ := isKnown_iff.mp this
    have hlookup : ms.lookup k.name = some m.2 := by
      rw [GoMap.lookup_eq_some_iff hnodup, ← hk]
      exact hm
    have := hknown k m.2 hlookup
    rwa [← hk] at this

/-- What is read is empty exactly when all members vanish. -/
theorem unmarshalJSON_isEmpty {ms : List (GoString × Json)} (hnodup : (ms.map Prod.fst).Nodup)
    (hms : ∀ m ∈ ms, Decodable m) :
    ∃ c, unmarshalJSON (.obj ms) = some c ∧ (c.isEmpty = true ↔ ∀ m ∈ ms, Vanishes m) := by
  have hfield : ∀ {k : Known} {raw : Json}, ms.lookup k.name = some raw → Decodable (k.name, raw) :=
    fun h => hms _ ((GoMap.lookup_eq_some_iff hnodup).mp h)
  obtain ⟨experimental, hexp, hexpEmpty⟩ := @collection_mapM_eq_some (fun _ => true)
    (ms.lookup Known.experimental.name) fun v hv => by
      obtain ⟨ns, rfl, hns⟩ := (hfield hv).experimental rfl
      exact ⟨ns, rfl, fun m hm => ⟨⟨(hns m hm).1, rfl⟩, (hns m hm).2⟩⟩
  obtain ⟨extensions, hext, hextEmpty⟩ := @collection_mapM_eq_some extensionCapabilityName
    (ms.lookup Known.extensions.name) fun v hv => (hfield hv).extensions rfl
  obtain ⟨roots, hroots, hrootsNone⟩ := @optionMapM_eq_some _ _
    (fun raw => (decodeJSONObject raw).map fun _ => RootCapabilities.mk)
    (ms.lookup Known.roots.name) fun v hv => by
      obtain ⟨ns, hns⟩ := (hfield hv).object
      dsimp only at hns
      exact ⟨⟨⟩, by rw [hns]; rfl⟩
  obtain ⟨sampling, hsampling, hsamplingNone⟩ := @optionMapM_eq_some _ _
    decodeSamplingCapabilities (ms.lookup Known.sampling.name) fun v hv => by
      obtain ⟨o, ho⟩ := decodeOpenObject_nested ((hfield hv).sampling (Or.inl rfl))
      exact ⟨_, by rw [decodeSamplingCapabilities, ho]; rfl⟩
  obtain ⟨elicitation, helicitation, helicitationNone⟩ := @optionMapM_eq_some _ _
    decodeElicitationCapabilities (ms.lookup Known.elicitation.name) fun v hv => by
      obtain ⟨o, ho⟩ := decodeOpenObject_nested ((hfield hv).sampling (Or.inr rfl))
      exact ⟨_, by rw [decodeElicitationCapabilities, ho]; rfl⟩
  have hadditional : ∀ m ∈ ms.filter fun m => !isKnown m.1,
      (if m.1 = [] then none else (decodeJSONObject m.2).map (m.1, ·)).isSome = true := by
    intro m hm
    have hdec := hms m (List.mem_filter.mp hm).1
    obtain ⟨ns, hns⟩ := hdec.object
    rw [if_neg hdec.name, hns]
    rfl
  obtain ⟨additional, hadd, haddlen⟩ := mapM_eq_some hadditional
  refine ⟨{ experimental, roots, sampling, elicitation, extensions, additional }, ?_, ?_⟩
  · rw [unmarshalJSON, decodeJSONObject_obj, lastWins_eq_self hnodup]
    simp only [Option.bind_eq_bind, Option.bind_some, hexp, hext, hroots, hsampling,
      helicitation, hadd]
    rfl
  · rw [forall_vanishes_iff hnodup, ← List.length_eq_zero_iff, ← haddlen]
    simp only [ClientCapabilities.isEmpty, Bool.and_eq_true, beq_iff_eq, hrootsNone, hsamplingNone,
      helicitationNone, hexpEmpty, hextEmpty, vanishes_known]
    refine and_congr_left fun _ => ?_
    constructor
    · rintro ⟨⟨⟨⟨hr, hs⟩, he⟩, hx⟩, hy⟩ k v hv
      cases k with
      | experimental => exact ⟨Or.inl rfl, hx v hv⟩
      | extensions => exact ⟨Or.inr rfl, hy v hv⟩
      | roots => simp [hr] at hv
      | sampling => simp [hs] at hv
      | elicitation => simp [he] at hv
    · intro h
      have hnone : ∀ k : Known, k ≠ .experimental → k ≠ .extensions → ms.lookup k.name = none := by
        intro k hk hk'
        by_contra hne
        obtain ⟨v, hv⟩ := Option.ne_none_iff_exists'.mp hne
        exact (h k v hv).1.elim hk hk'
      refine ⟨⟨⟨⟨hnone _ ?_ ?_, hnone _ ?_ ?_⟩, hnone _ ?_ ?_⟩, ?_⟩, ?_⟩
      all_goals first | decide | exact fun v hv => (h _ v hv).2

/-! ### Capabilities that were read -/

/-- What holds of capabilities that were read. -/
structure WellFormed (c : ClientCapabilities) : Prop where
  experimental : ∀ xs, c.experimental = some xs → ∀ m ∈ xs, m.1 ≠ []
  extensions : ∀ xs, c.extensions = some xs →
    ∀ m ∈ xs, m.1 ≠ [] ∧ extensionCapabilityName m.1 = true
  additional : ∀ m ∈ c.additional, m.1 ≠ [] ∧ isKnown m.1 = false
  nodup : (c.additional.map Prod.fst).Nodup

theorem mem_of_mapM {α β : Type*} {f : α → Option β} {l : List α} {ys : List β}
    (h : l.mapM f = some ys) {y : β} (hy : y ∈ ys) : ∃ x ∈ l, f x = some y := by
  induction l generalizing ys with
  | nil =>
      obtain rfl : [] = ys := by simpa using h
      simp at hy
  | cons x l ih =>
      simp only [List.mapM_cons, Option.bind_eq_bind, Option.bind_eq_some_iff] at h
      obtain ⟨y', hy', ys', hys', heq⟩ := h
      obtain rfl : y' :: ys' = ys := by simpa using heq
      rcases List.mem_cons.mp hy with rfl | hy
      · exact ⟨x, by simp, hy'⟩
      · obtain ⟨x', hx', hf⟩ := ih hys' hy
        exact ⟨x', by simp [hx'], hf⟩

theorem names_of_decodeJSONObjectMap {validName : GoString → Bool} {v : Json}
    {xs : List (GoString × JSONObject)} (h : decodeJSONObjectMap validName v = some xs) :
    ∀ m ∈ xs, m.1 ≠ [] ∧ validName m.1 = true := by
  intro m hm
  simp only [decodeJSONObjectMap, Option.bind_eq_bind, Option.bind_eq_some_iff] at h
  obtain ⟨members, -, hmap⟩ := h
  obtain ⟨m', -, hm'⟩ := mem_of_mapM hmap hm
  split at hm'
  · simp at hm'
  · rename_i hname
    obtain ⟨o, -, rfl⟩ := Option.map_eq_some_iff.mp hm'
    simpa using hname

theorem names_of_mapM {f : GoString × Json → Option (GoString × JSONObject)}
    (hf : ∀ m m', f m = some m' → m'.1 = m.1) {l : List (GoString × Json)}
    {ys : List (GoString × JSONObject)} (h : l.mapM f = some ys) :
    ys.map Prod.fst = l.map Prod.fst := by
  induction l generalizing ys with
  | nil =>
      obtain rfl : [] = ys := by simpa using h
      rfl
  | cons m l ih =>
      simp only [List.mapM_cons, Option.bind_eq_bind, Option.bind_eq_some_iff] at h
      obtain ⟨y, hy, ys', hys', heq⟩ := h
      obtain rfl : y :: ys' = ys := by simpa using heq
      rw [List.map_cons, List.map_cons, ih hys', hf m y hy]

theorem wellFormed_of_unmarshalJSON {data : Json} {c : ClientCapabilities}
    (h : unmarshalJSON data = some c) : WellFormed c := by
  simp only [unmarshalJSON, Option.bind_eq_bind, Option.bind_eq_some_iff] at h
  obtain ⟨members, hmembers, experimental, hexp, roots, -, sampling, -, elicitation, -,
    extensions, hext, additional, hadd, heq⟩ := h
  obtain rfl : _ = c := Option.some.inj heq
  have hcollection : ∀ {validName : GoString → Bool} {o : Option Json} {r},
      o.mapM (decodeJSONObjectMap validName) = some r → ∀ xs, r = some xs →
      ∀ m ∈ xs, m.1 ≠ [] ∧ validName m.1 = true := by
    rintro validName o r hr xs rfl
    cases o with
    | none => simp at hr
    | some v => exact names_of_decodeJSONObjectMap (by simpa using hr)
  have hname : ∀ (m : GoString × Json) (m' : GoString × JSONObject), (if m.1 = [] then none else
      (decodeJSONObject m.2).map (m.1, ·)) = some m' → m'.1 = m.1 ∧ m.1 ≠ [] := by
    intro m m' hm
    split at hm
    · simp at hm
    · rename_i hne
      obtain ⟨o, -, rfl⟩ := Option.map_eq_some_iff.mp hm
      exact ⟨rfl, hne⟩
  refine ⟨fun xs hxs m hm => (hcollection hexp xs hxs m hm).1, hcollection hext, ?_, ?_⟩
  · intro m hm
    obtain ⟨m', hm', hf⟩ := mem_of_mapM hadd hm
    obtain ⟨heq, hne⟩ := hname m' m hf
    rw [heq]
    exact ⟨hne, by simpa using (List.mem_filter.mp hm').2⟩
  · dsimp only
    rw [names_of_mapM (fun m m' hm => (hname m m' hm).1) hadd]
    have hnodup : (members.map Prod.fst).Nodup := by
      cases data <;> simp only [decodeJSONObject, reduceCtorEq, Option.some.injEq] at hmembers
      rw [← hmembers]
      exact nodup_lastWins _
    exact hnodup.sublist ((List.filter_sublist).map Prod.fst)

/-- The members that are written. -/
def ClientCapabilities.members (c : ClientCapabilities) : JSONObject :=
  c.additional.map (fun m => (m.1, .obj m.2)) ++
    Known.all.flatMap fun k => entry k.name (c.field k)

theorem mem_members {c : ClientCapabilities} {name : GoString} {v : Json} :
    (name, v) ∈ c.members ↔ (∃ o, (name, o) ∈ c.additional ∧ v = .obj o) ∨
      ∃ k : Known, name = k.name ∧ c.field k = some v := by
  rw [ClientCapabilities.members, List.mem_append, List.mem_map, List.mem_flatMap]
  refine or_congr ?_ ?_
  · constructor
    · rintro ⟨m, hm, heq⟩
      obtain ⟨rfl, rfl⟩ := Prod.mk.inj heq
      exact ⟨m.2, hm, rfl⟩
    · rintro ⟨o, ho, rfl⟩
      exact ⟨_, ho, rfl⟩
  · constructor
    · rintro ⟨k, -, hk⟩
      obtain ⟨v', hv', heq⟩ := Option.map_eq_some_iff.mp (Option.mem_toList.mp hk)
      obtain ⟨rfl, rfl⟩ := Prod.mk.inj heq
      exact ⟨k, rfl, hv'⟩
    · rintro ⟨k, rfl, hk⟩
      refine ⟨k, by cases k <;> simp [Known.all], ?_⟩
      rw [entry, hk]
      simp

theorem WellFormed.nodup_members {c : ClientCapabilities} (hc : WellFormed c) :
    (c.members.map Prod.fst).Nodup := by
  have hknown : ∀ k : Known, ((entry k.name (c.field k)).map Prod.fst).Sublist [k.name] := by
    intro k
    rw [entry]
    cases c.field k with
    | none => simp
    | some v => simp
  have hnames : ((Known.all.flatMap fun k => entry k.name (c.field k)).map Prod.fst).Sublist
      (Known.all.map Known.name) := by
    induction Known.all with
    | nil => simp
    | cons k ks ih =>
        rw [List.flatMap_cons, List.map_append, List.map_cons]
        exact (hknown k).append ih
  have hadditional : (c.additional.map fun m => (m.1, Json.obj m.2)).map Prod.fst =
      c.additional.map Prod.fst := by
    rw [List.map_map]
    rfl
  rw [ClientCapabilities.members, List.map_append, hadditional, List.nodup_append]
  refine ⟨hc.nodup, List.Nodup.sublist hnames (by decide), ?_⟩
  rintro a ha b hb rfl
  obtain ⟨m, hm, rfl⟩ := List.mem_map.mp ha
  obtain ⟨k, -, hk⟩ := List.mem_map.mp (hnames.subset hb)
  have := (hc.additional m hm).2
  rw [← hk, isKnown_iff.mpr ⟨k, rfl⟩] at this
  simp at this

theorem WellFormed.marshalJSON {c : ClientCapabilities} (hc : WellFormed c) :
    c.marshalJSON = .obj c.members := by
  rw [ClientCapabilities.marshalJSON, ← ClientCapabilities.members, lastWins_eq_self hc.nodup_members]

theorem WellFormed.lookup_known {c : ClientCapabilities} (hc : WellFormed c) (k : Known) :
    c.members.lookup k.name = c.field k := by
  cases hfield : c.field k with
  | some v =>
      rw [GoMap.lookup_eq_some_iff hc.nodup_members, mem_members]
      exact Or.inr ⟨k, rfl, hfield⟩
  | none =>
      rw [GoMap.lookup_eq_none_iff]
      intro hmem
      obtain ⟨m, hm, hname⟩ := List.mem_map.mp hmem
      rcases mem_members.mp hm with ⟨o, ho, -⟩ | ⟨k', hk', hv⟩
      · have := (hc.additional _ ho).2
        rw [hname, isKnown_iff.mpr ⟨k, rfl⟩] at this
        simp at this
      · obtain rfl := Known.name_injective (hname.symm.trans hk')
        rw [hfield] at hv
        simp at hv

theorem nested_objectMap {p : GoString → Prop} {xs : List (GoString × JSONObject)}
    (h : ∀ m ∈ xs, p m.1) : Nested p (objectMap xs) := by
  refine ⟨_, rfl, fun m hm => ?_⟩
  obtain ⟨x, hx, rfl⟩ := List.mem_map.mp hm
  exact ⟨h x hx, x.2, rfl⟩

theorem nested_entries (first second : GoString) (o o' : Option JSONObject) :
    Nested (fun _ => True) (.obj (entry first (o.map .obj) ++ entry second (o'.map .obj))) := by
  refine ⟨_, rfl, fun m hm => ⟨trivial, ?_⟩⟩
  cases o <;> cases o' <;> simp [entry] at hm
  · exact ⟨_, by rw [hm]⟩
  · exact ⟨_, by rw [hm]⟩
  · rcases hm with rfl | rfl
    · exact ⟨_, rfl⟩
    · exact ⟨_, rfl⟩

theorem decodable_known {k : Known} {v : Json} (hobj : ∃ ns, v = .obj ns)
    (hexp : k = .experimental → Nested (· ≠ []) v)
    (hext : k = .extensions → Nested (fun n => n ≠ [] ∧ extensionCapabilityName n = true) v)
    (hopen : k = .sampling ∨ k = .elicitation → Nested (fun _ => True) v) :
    Decodable (k.name, v) where
  name := by
    have hname : k.name ≠ [] := by cases k <;> decide
    exact hname
  object := hobj
  experimental := fun h => hexp (Known.name_injective h)
  extensions := fun h => hext (Known.name_injective h)
  sampling := fun h => hopen (h.imp (fun h => Known.name_injective h) fun h => Known.name_injective h)

/-- Capabilities that were read are written so that they can be read again. -/
theorem WellFormed.decodable {c : ClientCapabilities} (hc : WellFormed c) {m : GoString × Json}
    (hm : m ∈ c.members) : Decodable m := by
  obtain ⟨name, v⟩ := m
  rcases mem_members.mp hm with ⟨o, ho, rfl⟩ | ⟨k, rfl, hv⟩
  · have hadd := hc.additional _ ho
    have hne : ∀ k : Known, name ≠ k.name := by
      rintro k rfl
      rw [isKnown_iff.mpr ⟨k, rfl⟩] at hadd
      simp at hadd
    exact ⟨hadd.1, ⟨o, rfl⟩, fun h => absurd h (hne _), fun h => absurd h (hne _),
      fun h => h.elim (fun h => absurd h (hne _)) fun h => absurd h (hne _)⟩
  · cases k with
    | experimental =>
        obtain ⟨xs, hxs, rfl⟩ := Option.map_eq_some_iff.mp hv
        exact decodable_known ⟨_, rfl⟩ (fun _ => nested_objectMap (hc.experimental xs hxs))
          (by simp) (by simp)
    | extensions =>
        obtain ⟨xs, hxs, rfl⟩ := Option.map_eq_some_iff.mp hv
        exact decodable_known ⟨_, rfl⟩ (by simp)
          (fun _ => nested_objectMap (hc.extensions xs hxs)) (by simp)
    | roots =>
        obtain ⟨-, -, rfl⟩ := Option.map_eq_some_iff.mp hv
        exact decodable_known ⟨_, rfl⟩ (by simp) (by simp) (by simp)
    | sampling =>
        obtain ⟨o, -, rfl⟩ := Option.map_eq_some_iff.mp hv
        exact decodable_known ⟨_, rfl⟩ (by simp) (by simp) fun _ => nested_entries _ _ _ _
    | elicitation =>
        obtain ⟨o, -, rfl⟩ := Option.map_eq_some_iff.mp hv
        exact decodable_known ⟨_, rfl⟩ (by simp) (by simp) fun _ => nested_entries _ _ _ _

/-! ### The gate -/

/-- A required collection, left out if it is empty and not declared. -/
def declaredCollection :
    Option (List (GoString × JSONObject)) → Option (List (GoString × JSONObject)) →
      Option (List (GoString × JSONObject))
  | some [], none => none
  | required, _ => required

/-- The requirements without the empty collections that a client does not
declare. -/
def withoutUndeclaredEmpty (actual required : ClientCapabilities) : ClientCapabilities :=
  { required with
    experimental := declaredCollection required.experimental actual.experimental
    extensions := declaredCollection required.extensions actual.extensions }

/-- Nothing is missing but an empty collection. -/
def Overlooked {F : Type*} [BEq F] (parseFloat : GoString → Option F)
    (actual required : ClientCapabilities) : Prop :=
  (required.experimental = some [] ∧ actual.experimental = none ∨
    required.extensions = some [] ∧ actual.extensions = none) ∧
  Declares parseFloat actual.marshalJSON (withoutUndeclaredEmpty actual required).marshalJSON

section

variable {F : Type*} [BEq F] (parseFloat : GoString → Option F)
  {actual required : ClientCapabilities}

theorem declares_iff (ha : WellFormed actual) (hr : WellFormed required) :
    Declares parseFloat actual.marshalJSON required.marshalJSON ↔
      ∀ m ∈ required.members, missingMember parseFloat actual.members m = none := by
  rw [ha.marshalJSON, hr.marshalJSON, declares_obj_iff, lastWins_eq_self ha.nodup_members,
    lastWins_eq_self hr.nodup_members]
  have hmember : ∀ m : GoString × Json, missingMember parseFloat actual.members m = none ↔
      ∃ a, actual.members.lookup m.1 = some a ∧ Declares parseFloat a m.2 := by
    intro m
    rw [missingMember]
    cases actual.members.lookup m.1 with
    | none => simp
    | some a => simp [missingValue_eq_none_iff]
  constructor
  · intro h m hm
    exact (hmember m).mpr (h m.1 m.2 ((GoMap.lookup_eq_some_iff hr.nodup_members).mpr hm))
  · intro h name v hv
    exact (hmember (name, v)).mp (h _ ((GoMap.lookup_eq_some_iff hr.nodup_members).mp hv))

/-- The gate is open when every member is declared, or vanishes when it is read
again and is not there at all. -/
theorem missing_isEmpty_iff (ha : WellFormed actual) (hr : WellFormed required) :
    (missingClientCapabilities parseFloat actual required).isEmpty = true ↔
      ∀ m ∈ required.members, missingMember parseFloat actual.members m = none ∨
        Vanishes m ∧ actual.members.lookup m.1 = none := by
  have hsome : ∀ {name w}, (name, w) ∈ missingJSONObjectMembers parseFloat actual.members
      required.members ↔ ∃ v, (name, v) ∈ required.members ∧
        missingMember parseFloat actual.members (name, v) = some w := by
    intro name w
    rw [mem_missingJSONObjectMembers, lastWins_eq_self hr.nodup_members]
  have hdecodable : ∀ m ∈ missingJSONObjectMembers parseFloat actual.members required.members,
      Decodable m := by
    intro m hm
    obtain ⟨v, hv, hmiss⟩ := hsome.mp hm
    have hdec := hr.decodable hv
    obtain ⟨rs, hrs⟩ := hdec.object
    dsimp only at hrs
    have hobj : ∃ ns, m.2 = .obj ns := by
      rw [hrs] at hmiss
      obtain ⟨ns, hns, -⟩ := missingMember_obj parseFloat hmiss
      exact ⟨ns, hns⟩
    exact ⟨hdec.name, hobj, fun h => (hdec.experimental h).missing parseFloat hmiss,
      fun h => (hdec.extensions h).missing parseFloat hmiss,
      fun h => (hdec.sampling h).missing parseFloat hmiss⟩
  obtain ⟨c, hc, hempty⟩ := unmarshalJSON_isEmpty
    (nodup_missingJSONObjectMembers parseFloat actual.members required.members) hdecodable
  have hcode : (missingClientCapabilities parseFloat actual required).isEmpty = true ↔
      ∀ m ∈ missingJSONObjectMembers parseFloat actual.members required.members, Vanishes m := by
    rw [missingClientCapabilities, ha.marshalJSON, hr.marshalJSON, decodeJSONObject_obj,
      decodeJSONObject_obj, lastWins_eq_self ha.nodup_members, lastWins_eq_self hr.nodup_members,
      Option.getD_some, Option.getD_some, hc, Option.getD_some]
    split
    · rename_i hlen
      rw [List.length_eq_zero_iff.mp hlen]
      simp [ClientCapabilities.isEmpty]
    · exact hempty
  rw [hcode]
  constructor
  · intro h m hm
    cases hmiss : missingMember parseFloat actual.members m with
    | none => exact Or.inl rfl
    | some w =>
        obtain ⟨hname, hw⟩ := h (m.1, w) (hsome.mpr ⟨m.2, hm, hmiss⟩)
        dsimp only at hname hw
        subst hw
        right
        cases hlookup : actual.members.lookup m.1 with
        | none =>
            rw [missingMember, hlookup] at hmiss
            exact ⟨⟨hname, Option.some.inj hmiss⟩, rfl⟩
        | some a =>
            -- what is missing of a member that is there is not empty
            obtain ⟨rs, hrs⟩ := (hr.decodable hm).object
            obtain ⟨as, has⟩ := (ha.decodable
              ((GoMap.lookup_eq_some_iff ha.nodup_members).mp hlookup)).object
            dsimp only at has
            rw [missingMember, hlookup, hrs, has] at hmiss
            exact absurd rfl (ne_nil_of_missingValue_obj parseFloat hmiss)
  · rintro h ⟨name, w⟩ hm
    obtain ⟨v, hv, hmiss⟩ := hsome.mp hm
    rcases h _ hv with hnone | ⟨hvanishes, hlookup⟩
    · rw [hmiss] at hnone
      simp at hnone
    · rw [missingMember, hlookup] at hmiss
      obtain rfl : v = w := Option.some.inj hmiss
      exact hvanishes

theorem declaredCollection_eq_some_iff {r a : Option (List (GoString × JSONObject))} {xs} :
    declaredCollection r a = some xs ↔ r = some xs ∧ ¬ (xs = [] ∧ a = none) := by
  rw [declaredCollection.eq_def]
  split
  · simp [eq_comm]
  · rename_i hne
    constructor
    · rintro rfl
      refine ⟨rfl, ?_⟩
      rintro ⟨rfl, rfl⟩
      exact hne rfl rfl
    · exact fun h => h.1

theorem objectMap_declared {r a : Option (List (GoString × JSONObject))} {v : Json} :
    (declaredCollection r a).map objectMap = some v ↔
      r.map objectMap = some v ∧ ¬ (v = .obj [] ∧ a.map objectMap = none) := by
  simp only [Option.map_eq_some_iff, declaredCollection_eq_some_iff, Option.map_eq_none_iff]
  constructor
  · rintro ⟨xs, ⟨hr, hnot⟩, rfl⟩
    exact ⟨⟨xs, hr, rfl⟩, fun h => hnot ⟨by simpa [objectMap] using h.1, h.2⟩⟩
  · rintro ⟨⟨xs, hr, rfl⟩, hnot⟩
    exact ⟨xs, ⟨hr, fun h => hnot ⟨by simp [objectMap, h.1], h.2⟩⟩, rfl⟩

theorem field_withoutUndeclaredEmpty {k : Known} {v : Json} :
    (withoutUndeclaredEmpty actual required).field k = some v ↔
      required.field k = some v ∧ ¬ (Vanishes (k.name, v) ∧ actual.field k = none) := by
  rw [vanishes_known]
  cases k with
  | experimental =>
      rw [show (Known.experimental = .experimental ∨ Known.experimental = .extensions) = True by simp,
        true_and]
      exact objectMap_declared
  | extensions =>
      rw [show (Known.extensions = .experimental ∨ Known.extensions = .extensions) = True by simp,
        true_and]
      exact objectMap_declared
  | roots => simp [ClientCapabilities.field, withoutUndeclaredEmpty]
  | sampling => simp [ClientCapabilities.field, withoutUndeclaredEmpty]
  | elicitation => simp [ClientCapabilities.field, withoutUndeclaredEmpty]

theorem wellFormed_withoutUndeclaredEmpty (hr : WellFormed required) :
    WellFormed (withoutUndeclaredEmpty actual required) := by
  exact ⟨fun xs hxs => hr.experimental xs (declaredCollection_eq_some_iff.mp hxs).1,
    fun xs hxs => hr.extensions xs (declaredCollection_eq_some_iff.mp hxs).1, hr.additional,
    hr.nodup⟩

theorem mem_members_withoutUndeclaredEmpty (ha : WellFormed actual) (hr : WellFormed required)
    {m : GoString × Json} : m ∈ (withoutUndeclaredEmpty actual required).members ↔
      m ∈ required.members ∧ ¬ (Vanishes m ∧ actual.members.lookup m.1 = none) := by
  obtain ⟨name, v⟩ := m
  rw [mem_members, mem_members]
  constructor
  · rintro (⟨o, ho, rfl⟩ | ⟨k, rfl, hk⟩)
    · refine ⟨Or.inl ⟨o, ho, rfl⟩, fun h => ?_⟩
      have hknown : isKnown name = true := by
        rw [isKnown_iff]
        rcases h.1.1 with hname | hname
        · exact ⟨_, hname⟩
        · exact ⟨_, hname⟩
      simp [(hr.additional _ ho).2] at hknown
    · rw [field_withoutUndeclaredEmpty] at hk
      refine ⟨Or.inr ⟨k, rfl, hk.1⟩, ?_⟩
      rw [ha.lookup_known]
      exact hk.2
  · rintro ⟨⟨o, ho, rfl⟩ | ⟨k, rfl, hk⟩, hnot⟩
    · exact Or.inl ⟨o, ho, rfl⟩
    · rw [ha.lookup_known] at hnot
      exact Or.inr ⟨k, rfl, field_withoutUndeclaredEmpty.mpr ⟨hk, hnot⟩⟩

/-- What the gate tests: the requirements without the undeclared empty
collections. -/
theorem missing_isEmpty_iff_declares (ha : WellFormed actual) (hr : WellFormed required) :
    (missingClientCapabilities parseFloat actual required).isEmpty = true ↔
      Declares parseFloat actual.marshalJSON
        (withoutUndeclaredEmpty actual required).marshalJSON := by
  rw [missing_isEmpty_iff parseFloat ha hr,
    declares_iff parseFloat ha (wellFormed_withoutUndeclaredEmpty hr)]
  simp only [mem_members_withoutUndeclaredEmpty ha hr]
  constructor
  · rintro h m ⟨hm, hnot⟩
    exact (h m hm).resolve_right hnot
  · intro h m hm
    by_cases hv : Vanishes m ∧ actual.members.lookup m.1 = none
    · exact Or.inr hv
    · exact Or.inl (h m ⟨hm, hv⟩)

/-- An undeclared empty collection is not declared. -/
theorem not_declares_of_undeclaredEmpty (ha : WellFormed actual) (hr : WellFormed required)
    (h : required.experimental = some [] ∧ actual.experimental = none ∨
      required.extensions = some [] ∧ actual.extensions = none) :
    ¬ Declares parseFloat actual.marshalJSON required.marshalJSON := by
  have hfield : ∀ k : Known, required.field k = some (.obj []) → actual.field k = none →
      ¬ Declares parseFloat actual.marshalJSON required.marshalJSON := by
    intro k hreq hact hdecl
    have hmem : (k.name, Json.obj []) ∈ required.members := mem_members.mpr (Or.inr ⟨k, rfl, hreq⟩)
    have := (declares_iff parseFloat ha hr).mp hdecl _ hmem
    rw [missingMember, ha.lookup_known, hact] at this
    simp at this
  rcases h with ⟨hreq, hact⟩ | ⟨hreq, hact⟩
  · refine hfield .experimental ?_ ?_
    · simp [ClientCapabilities.field, hreq, objectMap]
    · simp [ClientCapabilities.field, hact]
  · refine hfield .extensions ?_ ?_
    · simp [ClientCapabilities.field, hreq, objectMap]
    · simp [ClientCapabilities.field, hact]

theorem withoutUndeclaredEmpty_eq_self
    (h : ¬ (required.experimental = some [] ∧ actual.experimental = none ∨
      required.extensions = some [] ∧ actual.extensions = none)) :
    withoutUndeclaredEmpty actual required = required := by
  have hdeclared : ∀ r a : Option (List (GoString × JSONObject)), ¬ (r = some [] ∧ a = none) →
      declaredCollection r a = r := by
    intro r a hra
    rw [declaredCollection.eq_def]
    split
    · simp at hra
    · rfl
  rw [not_or] at h
  rw [withoutUndeclaredEmpty, hdeclared _ _ h.1, hdeclared _ _ h.2]

/-- The gate agrees with what is declared unless all that is missing is an empty
collection. -/
theorem isEmpty_iff_declares_iff (ha : WellFormed actual) (hr : WellFormed required) :
    ((missingClientCapabilities parseFloat actual required).isEmpty = true ↔
      Declares parseFloat actual.marshalJSON required.marshalJSON) ↔
      ¬ Overlooked parseFloat actual required := by
  rw [missing_isEmpty_iff_declares parseFloat ha hr, Overlooked]
  by_cases h : required.experimental = some [] ∧ actual.experimental = none ∨
      required.extensions = some [] ∧ actual.extensions = none
  · simp [not_declares_of_undeclaredEmpty parseFloat ha hr h, h]
  · simp [withoutUndeclaredEmpty_eq_self h, h]

end

end Higress.Mcp.Capabilities
