import Mathlib.Data.List.Nodup
import Mathlib.Data.List.TakeWhile
import Higress.Lib.Scan
import Higress.Lib.GoString

/-!
Value references in annotations and generated configs, and their restriction to
the namespace of the object that supplied them.

`TemplateRegex` is `\$\{([^.}/]+)\.(?:([^/}]+)/)?([^.}/]+)\.([^}]+)\}`. Each of
its repeated classes excludes the character that follows it, so a repetition
can only end at the first such character and nothing has to be backtracked but
the optional namespace group. The classes exclude `}` as well: a match always
ends at the first closing brace. All delimiters are ASCII, so matching runes
and matching bytes is the same.
-/

namespace Higress.Ingress.Template

open Higress.Lib

/-! ### The pattern -/

/-- The class `[^.}/]`. -/
def isNamePart (b : UInt8) : Bool := b != 46 && b != 125 && b != 47

/-- The class `[^/}]`. -/
def isNamespacePart (b : UInt8) : Bool := b != 47 && b != 125

/-- The class `[^}]`. -/
def isKeyPart (b : UInt8) : Bool := b != 125

/-- A single character of the pattern. -/
def eat (b : UInt8) : GoString → Option GoString
  | [] => none
  | c :: s => if c = b then some s else none

/-- A non-empty repetition of a class up to the delimiter `b`. -/
def field (p : UInt8 → Bool) (b : UInt8) (s : GoString) : Option (GoString × GoString) :=
  match eat b (s.dropWhile p) with
  | none => none
  | some rest => if s.takeWhile p = [] then none else some (s.takeWhile p, rest)

/-- The submatches of the pattern. The namespace group does not match the empty
string, so an empty namespace stands for a group that is absent. -/
structure Ref where
  valueType : GoString
  «namespace» : GoString
  name : GoString
  key : GoString
  deriving DecidableEq

/-- What the groups behind the type matched: namespace, name and key. -/
abbrev Path := GoString × GoString × GoString

/-- The groups `([^.}/]+)\.([^}]+)\}`. -/
def matchNameKey (s : GoString) : Option ((GoString × GoString) × GoString) := do
  let (name, s) ← field isNamePart 46 s
  let (key, s) ← field isKeyPart 125 s
  return ((name, key), s)

/-- Everything behind the type: the namespace group is tried first. -/
def matchPath (s : GoString) : Option (Path × GoString) :=
  let qualified := do
    let (ns, s) ← field isNamespacePart 47 s
    let ((name, key), s) ← matchNameKey s
    return ((ns, name, key), s)
  qualified <|> do
    let ((name, key), s) ← matchNameKey s
    return (([], name, key), s)

def matchAt (s : GoString) : Option (Ref × GoString) := do
  let s ← eat 36 s
  let s ← eat 123 s
  let (valueType, s) ← field isNamePart 46 s
  let ((ns, name, key), s) ← matchPath s
  return (⟨valueType, ns, name, key⟩, s)

/-- The text of a reference without the braces. -/
def Ref.body (r : Ref) : GoString :=
  r.valueType ++ 46 :: ((if r.namespace = [] then [] else r.namespace ++ [47]) ++
    (r.name ++ 46 :: r.key))

def Ref.text (r : Ref) : GoString := 36 :: 123 :: (r.body ++ [125])

/-! ### Matches end at the first closing brace -/

theorem eat_eq_some_iff {b : UInt8} {s rest : GoString} : eat b s = some rest ↔ s = b :: rest := by
  cases s with
  | nil => simp [eat]
  | cons c s =>
      simp only [eat, List.cons.injEq]
      split <;> simp_all

theorem field_eq_some_iff {p : UInt8 → Bool} {b : UInt8} (hb : p b = false) {s t rest : GoString} :
    field p b s = some (t, rest) ↔ s = t ++ b :: rest ∧ t ≠ [] ∧ ∀ x ∈ t, p x = true := by
  constructor
  · intro h
    unfold field at h
    split at h
    · simp at h
    · rename_i rest' heat
      split at h
      · simp at h
      · rename_i hne
        obtain ⟨rfl, rfl⟩ : s.takeWhile p = t ∧ rest' = rest := by simpa using h
        refine ⟨?_, hne, fun x hx => List.mem_takeWhile_imp hx⟩
        rw [← eat_eq_some_iff.mp heat, List.takeWhile_append_dropWhile]
  · rintro ⟨rfl, hne, hall⟩
    have htake : (t ++ b :: rest).takeWhile p = t := by
      rw [List.takeWhile_append_of_pos hall]
      simp [hb]
    have hdrop : (t ++ b :: rest).dropWhile p = b :: rest := by
      rw [List.dropWhile_append_of_pos hall]
      simp [hb]
    simp [field, htake, hdrop, eat, hne]

/-- The groups behind the namespace, read from a text without a brace. -/
def nameKey (a : GoString) : Option (GoString × GoString) := do
  let (name, key) ← field isNamePart 46 a
  if key = [] then none else return (name, key)

/-- The groups behind the type, read from a text without a brace. -/
def parsePath (a : GoString) : Option Path :=
  let qualified := do
    let (ns, s) ← field isNamespacePart 47 a
    let (name, key) ← nameKey s
    return (ns, name, key)
  qualified <|> (nameKey a).map fun (name, key) => ([], name, key)

def parseBody (a : GoString) : Option Ref := do
  let (valueType, s) ← field isNamePart 46 a
  let (ns, name, key) ← parsePath s
  return ⟨valueType, ns, name, key⟩

theorem isNamePart_iff {b : UInt8} : isNamePart b = true ↔ b ≠ 46 ∧ b ≠ 125 ∧ b ≠ 47 := by
  simp [isNamePart, and_assoc]

theorem isNamespacePart_iff {b : UInt8} : isNamespacePart b = true ↔ b ≠ 47 ∧ b ≠ 125 := by
  simp [isNamespacePart]

/-- A field that ends before the brace does not see the brace. -/
theorem field_append {p : UInt8 → Bool} {b : UInt8} (hp : p 125 = false) (hb : p b = false)
    (hne : b ≠ 125) (a rest : GoString) :
    field p b (a ++ 125 :: rest) = (field p b a).map fun ts => (ts.1, ts.2 ++ 125 :: rest) := by
  refine Option.ext fun ⟨t, s⟩ => ?_
  simp only [Option.map_eq_some_iff, Prod.exists, field_eq_some_iff hb, Prod.mk.injEq]
  constructor
  · rintro ⟨heq, hne', hall⟩
    rcases List.append_eq_append_iff.mp heq with ⟨x, hx, hrest⟩ | ⟨x, hx, hrest⟩
    · -- the brace would be inside the field or its delimiter
      cases x with
      | nil => simp_all
      | cons c x =>
          obtain ⟨rfl, -⟩ : 125 = c ∧ _ := by simpa using hrest
          have h125 := hall 125 (by simp [hx])
          simp [hp] at h125
    · cases x with
      | nil => simp_all
      | cons c x =>
          obtain ⟨rfl, rfl⟩ : b = c ∧ s = x ++ 125 :: rest := by simpa using hrest
          exact ⟨t, x, ⟨hx, hne', hall⟩, rfl, rfl⟩
  · rintro ⟨t', s', ⟨rfl, hne', hall⟩, rfl, rfl⟩
    exact ⟨by simp, hne', hall⟩

theorem field_key_append {a : GoString} (ha : 125 ∉ a) (rest : GoString) :
    field isKeyPart 125 (a ++ 125 :: rest) = if a = [] then none else some (a, rest) := by
  have hall : ∀ x ∈ a, isKeyPart x = true := by
    intro x hx
    have : x ≠ 125 := fun h => ha (h ▸ hx)
    simpa [isKeyPart] using this
  have hb : isKeyPart 125 = false := by decide
  split
  · rename_i hempty
    subst hempty
    simp [field, isKeyPart, eat]
  · rename_i hne
    exact (field_eq_some_iff hb).mpr ⟨rfl, hne, hall⟩

theorem notMem_of_field {p : UInt8 → Bool} {b : UInt8} (hb : p b = false) {a t s : GoString}
    (h : field p b a = some (t, s)) (ha : 125 ∉ a) : 125 ∉ s := by
  obtain ⟨rfl, -, -⟩ := (field_eq_some_iff hb).mp h
  simp only [List.mem_append, List.mem_cons, not_or] at ha
  exact ha.2.2

theorem isNamePart_delim : isNamePart 46 = false ∧ isNamePart 125 = false := by decide

theorem isNamespacePart_delim : isNamespacePart 47 = false ∧ isNamespacePart 125 = false := by
  decide

theorem matchNameKey_append {a : GoString} (ha : 125 ∉ a) (rest : GoString) :
    matchNameKey (a ++ 125 :: rest) = (nameKey a).map fun nk => (nk, rest) := by
  unfold matchNameKey nameKey
  rw [field_append isNamePart_delim.2 isNamePart_delim.1 (by decide)]
  cases h : field isNamePart 46 a with
  | none => rfl
  | some ts =>
      have hs := notMem_of_field isNamePart_delim.1 h ha
      simp only [Option.map_some, Option.bind_eq_bind, Option.bind_some, field_key_append hs]
      split <;> rfl

theorem matchPath_append {a : GoString} (ha : 125 ∉ a) (rest : GoString) :
    matchPath (a ++ 125 :: rest) = (parsePath a).map fun path => (path, rest) := by
  unfold matchPath parsePath
  rw [field_append isNamespacePart_delim.2 isNamespacePart_delim.1 (by decide),
    matchNameKey_append ha]
  cases h : field isNamespacePart 47 a with
  | none => cases nameKey a <;> rfl
  | some ts =>
      have hs := notMem_of_field isNamespacePart_delim.1 h ha
      simp only [Option.map_some, Option.bind_eq_bind, Option.bind_some, matchNameKey_append hs]
      cases nameKey ts.2 <;> cases nameKey a <;> rfl

theorem matchAt_append {a : GoString} (ha : 125 ∉ a) (rest : GoString) :
    matchAt (36 :: 123 :: (a ++ 125 :: rest)) = (parseBody a).map fun r => (r, rest) := by
  unfold matchAt parseBody
  simp only [eat, if_true, Option.bind_eq_bind, Option.bind_some]
  rw [field_append isNamePart_delim.2 isNamePart_delim.1 (by decide)]
  cases h : field isNamePart 46 a with
  | none => rfl
  | some ts =>
      have hs := notMem_of_field isNamePart_delim.1 h ha
      simp only [Option.map_some, Option.bind_some, matchPath_append hs]
      cases parsePath ts.2 <;> rfl

/-- A text without a closing brace has no reference. -/
theorem brace_mem_of_matchAt {s rest : GoString} {r : Ref} (h : matchAt s = some (r, rest)) :
    125 ∈ s := by
  have hkey : ∀ {s : GoString} {x}, matchNameKey s = some x → 125 ∈ s := by
    intro s x hx
    simp only [matchNameKey, Option.bind_eq_bind, Option.bind_eq_some_iff, Option.pure_def] at hx
    obtain ⟨⟨name, s'⟩, hname, ⟨key, s''⟩, hkey, -⟩ := hx
    have hs' : s' = key ++ 125 :: s'' := ((field_eq_some_iff (by decide)).mp hkey).1
    rw [((field_eq_some_iff isNamePart_delim.1).mp hname).1, hs']
    simp
  have hpath : ∀ {s : GoString} {x}, matchPath s = some x → 125 ∈ s := by
    intro s x hx
    simp only [matchPath, Option.bind_eq_bind, Option.orElse_eq_orElse, Option.orElse_eq_or,
      Option.or_eq_some_iff] at hx
    rcases hx with hx | ⟨-, hx⟩
    · simp only [Option.bind_eq_some_iff] at hx
      obtain ⟨⟨ns, s'⟩, hns, x', hx', -⟩ := hx
      rw [((field_eq_some_iff isNamespacePart_delim.1).mp hns).1]
      have := hkey hx'
      simp only at this
      simp [this]
    · simp only [Option.bind_eq_some_iff] at hx
      obtain ⟨x', hx', -⟩ := hx
      exact hkey hx'
  simp only [matchAt, Option.bind_eq_bind, Option.bind_eq_some_iff] at h
  obtain ⟨s₁, h₁, s₂, h₂, ⟨valueType, s₃⟩, h₃, x, h₄, -⟩ := h
  rw [eat_eq_some_iff.mp h₁, eat_eq_some_iff.mp h₂,
    ((field_eq_some_iff isNamePart_delim.1).mp h₃).1]
  have := hpath h₄
  simp only at this
  simp [this]

theorem eq_append_brace {s : GoString} (h : 125 ∈ s) :
    ∃ a rest, 125 ∉ a ∧ s = a ++ 125 :: rest := by
  obtain ⟨a, rest, rfl, ha⟩ := List.eq_append_cons_of_mem h
  exact ⟨a, rest, ha, rfl⟩

/-- A match is an opening `${` whose text up to the first closing brace parses
as a reference. -/
theorem matchAt_eq_some_iff {s rest : GoString} {r : Ref} :
    matchAt s = some (r, rest) ↔
      ∃ a, 125 ∉ a ∧ s = 36 :: 123 :: (a ++ 125 :: rest) ∧ parseBody a = some r := by
  constructor
  · intro h
    have h' := h
    simp only [matchAt, Option.bind_eq_bind, Option.bind_eq_some_iff] at h'
    obtain ⟨s₁, h₁, s₂, h₂, -⟩ := h'
    rw [eat_eq_some_iff.mp h₂] at h₁
    have hs := eat_eq_some_iff.mp h₁
    subst hs
    have hmem := brace_mem_of_matchAt h
    simp only [List.mem_cons, show (125 : UInt8) ≠ 36 by decide, show (125 : UInt8) ≠ 123 by decide,
      false_or] at hmem
    obtain ⟨a, rest', ha, rfl⟩ := eq_append_brace hmem
    rw [matchAt_append ha] at h
    obtain ⟨r', hr', heq⟩ := Option.map_eq_some_iff.mp h
    obtain ⟨rfl, rfl⟩ : r' = r ∧ rest' = rest := by simpa using heq
    exact ⟨a, ha, rfl, hr'⟩
  · rintro ⟨a, ha, rfl, hr⟩
    rw [matchAt_append ha, hr]
    rfl

/-! ### What a reference consists of -/

/-- The groups as their classes allow them. -/
structure Ref.Valid (r : Ref) : Prop where
  valueType_ne_nil : r.valueType ≠ []
  valueType_part : ∀ x ∈ r.valueType, isNamePart x = true
  namespace_part : ∀ x ∈ r.namespace, isNamespacePart x = true
  name_ne_nil : r.name ≠ []
  name_part : ∀ x ∈ r.name, isNamePart x = true
  key_ne_nil : r.key ≠ []

theorem nameKey_eq_some_iff {a name key : GoString} :
    nameKey a = some (name, key) ↔
      a = name ++ 46 :: key ∧ name ≠ [] ∧ (∀ x ∈ name, isNamePart x = true) ∧ key ≠ [] := by
  simp only [nameKey, Option.bind_eq_bind, Option.bind_eq_some_iff, Prod.exists]
  constructor
  · rintro ⟨n, k, hfield, hk⟩
    split at hk
    · simp at hk
    · rename_i hne
      obtain ⟨rfl, rfl⟩ : n = name ∧ k = key := by simpa using hk
      obtain ⟨rfl, hn, hall⟩ := (field_eq_some_iff isNamePart_delim.1).mp hfield
      exact ⟨rfl, hn, hall, hne⟩
  · rintro ⟨rfl, hn, hall, hk⟩
    exact ⟨name, key, (field_eq_some_iff isNamePart_delim.1).mpr ⟨rfl, hn, hall⟩, by simp [hk]⟩

/-- The namespace group is left out only when the rest does not parse with it. -/
theorem parsePath_eq_some_iff {a ns name key : GoString} :
    parsePath a = some (ns, name, key) ↔
      (∃ s, field isNamespacePart 47 a = some (ns, s) ∧ nameKey s = some (name, key)) ∨
        ns = [] ∧ nameKey a = some (name, key) ∧
          ∀ ns' s, field isNamespacePart 47 a = some (ns', s) → nameKey s = none := by
  unfold parsePath
  cases hf : field isNamespacePart 47 a with
  | none =>
      cases hn : nameKey a with
      | none => simp
      | some nk =>
          obtain ⟨n, k⟩ := nk
          simp [eq_comm]
  | some ts =>
      obtain ⟨ns', s⟩ := ts
      cases hs : nameKey s with
      | none =>
          cases hn : nameKey a with
          | none => simp [hs]
          | some nk =>
              obtain ⟨n, k⟩ := nk
              simp [hs, eq_comm]
      | some nk =>
          obtain ⟨n, k⟩ := nk
          simp [hs]

theorem parseBody_eq_some_iff {a : GoString} {r : Ref} :
    parseBody a = some r ↔ ∃ s, field isNamePart 46 a = some (r.valueType, s) ∧
      parsePath s = some (r.namespace, r.name, r.key) := by
  obtain ⟨valueType, ns, name, key⟩ := r
  simp only [parseBody, Option.bind_eq_bind, Option.bind_eq_some_iff, Prod.exists,
    Option.pure_def, Option.some.injEq, Ref.mk.injEq]
  constructor
  · rintro ⟨vt, s, hf, ns', name', key', hp, rfl, rfl, rfl, rfl⟩
    exact ⟨s, hf, hp⟩
  · rintro ⟨s, hf, hp⟩
    exact ⟨valueType, s, hf, ns, name, key, hp, rfl, rfl, rfl, rfl⟩

theorem Ref.body_eq_of_parseBody {a : GoString} {r : Ref} (h : parseBody a = some r) :
    r.body = a ∧ r.Valid := by
  obtain ⟨s, hf, hp⟩ := parseBody_eq_some_iff.mp h
  obtain ⟨rfl, hvt, hvt'⟩ := (field_eq_some_iff isNamePart_delim.1).mp hf
  rcases parsePath_eq_some_iff.mp hp with ⟨s', hns, hnk⟩ | ⟨hns, hnk, -⟩
  · obtain ⟨rfl, hne, hall⟩ := (field_eq_some_iff isNamespacePart_delim.1).mp hns
    obtain ⟨rfl, hn, hn', hk⟩ := nameKey_eq_some_iff.mp hnk
    exact ⟨by simp [Ref.body, hne], ⟨hvt, hvt', hall, hn, hn', hk⟩⟩
  · obtain ⟨rfl, hn, hn', hk⟩ := nameKey_eq_some_iff.mp hnk
    exact ⟨by simp [Ref.body, hns], ⟨hvt, hvt', by simp [hns], hn, hn', hk⟩⟩

/-- A reference with a namespace is read back from its own text. -/
theorem Ref.Valid.parseBody_body {r : Ref} (h : r.Valid) (hns : r.namespace ≠ []) :
    parseBody r.body = some r := by
  refine parseBody_eq_some_iff.mpr ⟨_, (field_eq_some_iff isNamePart_delim.1).mpr
    ⟨rfl, h.valueType_ne_nil, h.valueType_part⟩, parsePath_eq_some_iff.mpr (Or.inl ⟨_,
    (field_eq_some_iff isNamespacePart_delim.1).mpr ⟨?_, hns, h.namespace_part⟩,
    nameKey_eq_some_iff.mpr ⟨rfl, h.name_ne_nil, h.name_part, h.key_ne_nil⟩⟩)⟩
  simp [hns]

/-- `TemplateRegex`. -/
def templateRegex : Matcher UInt8 Ref where
  matchAt := matchAt
  text := Ref.text
  text_ne_nil r := by simp [Ref.text]
  matchAt_eq h := by
    obtain ⟨a, -, rfl, hr⟩ := matchAt_eq_some_iff.mp h
    simp [Ref.text, (Ref.body_eq_of_parseBody hr).1]

/-! ### Restriction to the owner -/

/-- `RefusedReferencePlaceholder`. -/
def refusedReferencePlaceholder : GoString := bytes "secret-reference-refused"

/-- What `rewriteReference` returns: the replacement, a readable form of the
reference, and whether the owner may resolve it. -/
structure Rewrite where
  replacement : GoString
  ref : GoString
  allowed : Bool
  deriving DecidableEq

def rewriteReference (m ownerNamespace : GoString) : Rewrite :=
  match templateRegex.findAll m with
  | [] => ⟨[], [], false⟩  -- not reached, `m` is a match
  | sub :: _ =>
      if ownerNamespace = [] then ⟨refusedReferencePlaceholder, sub.body, false⟩
      else if sub.namespace = [] then
        ⟨Ref.text { sub with «namespace» := ownerNamespace }, sub.body, true⟩
      else if sub.namespace ≠ ownerNamespace then ⟨refusedReferencePlaceholder, sub.body, false⟩
      else ⟨m, sub.body, true⟩

def defuseString (value ownerNamespace fieldName : GoString) : GoString × List GoString :=
  if Strings.contains value (bytes "$\x7b") then
    (templateRegex.replaceAll (fun r => (rewriteReference r.text ownerNamespace).replacement) value,
      (templateRegex.findAll value).filterMap fun r =>
        let rewrite := rewriteReference r.text ownerNamespace
        if rewrite.allowed then none
        else some (fieldName ++ bytes "=$\x7b" ++ rewrite.ref ++ bytes "\x7d"))
  else (value, [])

/-- The variables of the loop of `DefuseTemplates`. `sanitized` is `none` as
long as it is the input map itself, so that an assignment to it would change
the input. -/
structure DefuseState where
  values : List (GoString × GoString)
  sanitized : Option (List (GoString × GoString)) := none
  refused : List GoString := []

/-- The assignment to a field that the map has. -/
def assign (m : List (GoString × GoString)) (fieldName value : GoString) :
    List (GoString × GoString) :=
  m.map fun kv => if kv.1 = fieldName then (fieldName, value) else kv

def DefuseState.assign (st : DefuseState) (fieldName value : GoString) : DefuseState :=
  match st.sanitized with
  | none => { st with values := Template.assign st.values fieldName value }
  | some m => { st with sanitized := some (Template.assign m fieldName value) }

def defuseField (ownerNamespace : GoString) (st : DefuseState) (kv : GoString × GoString) :
    DefuseState :=
  let (replaced, fieldRefused) := defuseString kv.2 ownerNamespace kv.1
  let st := { st with refused := st.refused ++ fieldRefused }
  if replaced = kv.2 then st
  else
    let st := if st.sanitized.isNone then { st with sanitized := some st.values } else st
    st.assign kv.1 replaced

/-- A Go map from strings to strings, with its entries in iteration order. -/
structure GoMap where
  entries : List (GoString × GoString)
  nodup : (entries.map Prod.fst).Nodup

/-- `DefuseTemplates`, with all its variables at the end of the loop. -/
def defuseTemplates (values : GoMap) (ownerNamespace : GoString) : DefuseState :=
  values.entries.foldl (defuseField ownerNamespace) { values := values.entries }

/-- The map that is returned. -/
def DefuseState.result (st : DefuseState) : List (GoString × GoString) :=
  st.sanitized.getD st.values

/-! ### References that a replacement creates -/

section

variable {r₁ : Ref} {b₁ : GoString}

/-- If a text parses as name and key with anything behind it, it does so with
an opening reference behind it. -/
theorem nameKey_append_ref (hb : parseBody b₁ = some r₁) {w y : GoString}
    (h : (nameKey (w ++ y)).isSome) : (nameKey (w ++ 36 :: 123 :: b₁)).isSome := by
  obtain ⟨⟨name, key⟩, hnk⟩ := Option.isSome_iff_exists.mp h
  obtain ⟨heq, hname, hpart, -⟩ := nameKey_eq_some_iff.mp hnk
  obtain ⟨s₁, hf, -⟩ := parseBody_eq_some_iff.mp hb
  obtain ⟨rfl, -, hvt⟩ := (field_eq_some_iff isNamePart_delim.1).mp hf
  have hs₁ : s₁ ≠ [] := by
    obtain ⟨hbody, hvalid⟩ := Ref.body_eq_of_parseBody hb
    rw [Ref.body] at hbody
    have := List.cons.inj (List.append_cancel_left hbody)
    rw [← this.2]
    simp
  -- either the whole of `w` belongs to the name, or the name ends inside `w`
  have hinside : ∀ x, name = w ++ x → (nameKey (w ++ 36 :: 123 :: (r₁.valueType ++ 46 :: s₁))).isSome := by
    intro x hx
    refine Option.isSome_iff_exists.mpr ⟨(w ++ 36 :: 123 :: r₁.valueType, s₁),
      nameKey_eq_some_iff.mpr ⟨by simp, by simp, fun z hz => ?_, hs₁⟩⟩
    simp only [List.mem_append, List.mem_cons] at hz
    rcases hz with hz | rfl | rfl | hz
    · exact hpart z (by simp [hx, hz])
    · decide
    · decide
    · exact hvt z hz
  rcases List.append_eq_append_iff.mp heq with ⟨x, hx, -⟩ | ⟨x, hx, hrest⟩
  · exact hinside x hx
  · cases x with
    | nil => exact hinside [] (by simpa using hx.symm)
    | cons c x =>
        obtain ⟨rfl, -⟩ : 46 = c ∧ _ := by simpa using hrest
        refine Option.isSome_iff_exists.mpr ⟨(name, x ++ 36 :: 123 :: (r₁.valueType ++ 46 :: s₁)),
          nameKey_eq_some_iff.mpr ⟨by simp [hx], hname, hpart, by simp⟩⟩

theorem parsePath_eq_none_iff {a : GoString} :
    parsePath a = none ↔ nameKey a = none ∧
      ∀ ns s, field isNamespacePart 47 a = some (ns, s) → nameKey s = none := by
  constructor
  · intro h
    have hall : ∀ ns s, field isNamespacePart 47 a = some (ns, s) → nameKey s = none := by
      intro ns s hf
      by_contra hsome
      obtain ⟨⟨name, key⟩, hnk⟩ := Option.ne_none_iff_exists'.mp hsome
      simp [parsePath_eq_some_iff.mpr (Or.inl ⟨s, hf, hnk⟩)] at h
    refine ⟨?_, hall⟩
    by_contra hsome
    obtain ⟨⟨name, key⟩, hnk⟩ := Option.ne_none_iff_exists'.mp hsome
    simp [parsePath_eq_some_iff.mpr (Or.inr ⟨rfl, hnk, hall⟩)] at h
  · rintro ⟨hnk, hall⟩
    by_contra hsome
    obtain ⟨⟨ns, name, key⟩, hp⟩ := Option.ne_none_iff_exists'.mp hsome
    rcases parsePath_eq_some_iff.mp hp with ⟨s, hf, hs⟩ | ⟨-, hs, -⟩
    · simp [hall ns s hf] at hs
    · simp [hnk] at hs

/-- A text that starts with a name character and has no slash parses as name
and key in front of an opening reference. -/
theorem nameKey_isSome_of_head (hb : parseBody b₁ = some r₁) {c : UInt8} {v : GoString}
    (hc : isNamePart c = true) (hv : ∀ x ∈ v, isNamespacePart x = true) :
    (nameKey (c :: v ++ 36 :: 123 :: b₁)).isSome := by
  by_cases hdot : (46 : UInt8) ∈ v
  · obtain ⟨n, x, rfl, hn⟩ := List.eq_append_cons_of_mem hdot
    refine nameKey_append_ref hb (y := [97]) (Option.isSome_iff_exists.mpr ⟨(c :: n, x ++ [97]),
      nameKey_eq_some_iff.mpr ⟨by simp, by simp, fun z hz => ?_, by simp⟩⟩)
    rcases List.mem_cons.mp hz with rfl | hz
    · exact hc
    · have h := isNamespacePart_iff.mp (hv z (by simp [hz]))
      exact isNamePart_iff.mpr ⟨fun h46 => hn (h46 ▸ hz), h.2, h.1⟩
  · refine nameKey_append_ref hb (y := [46, 97]) (Option.isSome_iff_exists.mpr ⟨(c :: v, [97]),
      nameKey_eq_some_iff.mpr ⟨by simp, by simp, fun z hz => ?_, by simp⟩⟩)
    rcases List.mem_cons.mp hz with rfl | hz
    · exact hc
    · have h := isNamespacePart_iff.mp (hv z hz)
      exact isNamePart_iff.mpr ⟨fun h46 => hdot (h46 ▸ hz), h.2, h.1⟩

/-- Suppose `u` stands between an opening `${` and a reference and the whole is
not a reference. Whatever the inner reference is replaced by, the outer one can
only become a reference whose namespace starts with a dot. -/
theorem head_namespace_of_new_ref (hb : parseBody b₁ = some r₁) {u y : GoString} {r : Ref}
    (hin : parseBody (u ++ 36 :: 123 :: b₁) = none) (hout : parseBody (u ++ y) = some r) :
    r.namespace.head? = some 46 := by
  obtain ⟨s, hf, hp⟩ := parseBody_eq_some_iff.mp hout
  obtain ⟨heq, hvt, hvtpart⟩ := (field_eq_some_iff isNamePart_delim.1).mp hf
  obtain ⟨s₁, hf₁, hp₁⟩ := parseBody_eq_some_iff.mp hb
  obtain ⟨hb₁, -, hvt₁⟩ := (field_eq_some_iff isNamePart_delim.1).mp hf₁
  -- the type of the outer reference cannot reach the inner one
  have hshort : ∀ x, r.valueType ≠ u ++ x := by
    intro x hx
    have hparse : parseBody (u ++ 36 :: 123 :: b₁) =
        some ⟨u ++ 36 :: 123 :: r₁.valueType, r₁.namespace, r₁.name, r₁.key⟩ := by
      refine parseBody_eq_some_iff.mpr ⟨s₁, (field_eq_some_iff isNamePart_delim.1).mpr
        ⟨by simp [hb₁], by simp, fun z hz => ?_⟩, hp₁⟩
      simp only [List.mem_append, List.mem_cons] at hz
      rcases hz with hz | rfl | rfl | hz
      · exact hvtpart z (by simp [hx, hz])
      · decide
      · decide
      · exact hvt₁ z hz
    simp [hparse] at hin
  obtain ⟨v, rfl, rfl⟩ : ∃ v, u = r.valueType ++ 46 :: v ∧ s = v ++ y := by
    rcases List.append_eq_append_iff.mp heq with ⟨x, hx, -⟩ | ⟨x, hx, hrest⟩
    · exact absurd hx (hshort x)
    · cases x with
      | nil => exact absurd (by simpa using hx.symm) (hshort [])
      | cons c x =>
          obtain ⟨rfl, rfl⟩ : 46 = c ∧ s = x ++ y := by simpa using hrest
          exact ⟨x, hx, rfl⟩
  have hnone : parsePath (v ++ 36 :: 123 :: b₁) = none := by
    by_contra hsome
    obtain ⟨⟨ns, name, key⟩, hpath⟩ := Option.ne_none_iff_exists'.mp hsome
    have hparse : parseBody ((r.valueType ++ 46 :: v) ++ 36 :: 123 :: b₁) =
        some ⟨r.valueType, ns, name, key⟩ :=
      parseBody_eq_some_iff.mpr ⟨v ++ 36 :: 123 :: b₁,
        (field_eq_some_iff isNamePart_delim.1).mpr ⟨by simp, hvt, hvtpart⟩, hpath⟩
    rw [hparse] at hin
    simp at hin
  obtain ⟨hnk, hqual⟩ := parsePath_eq_none_iff.mp hnone
  rcases parsePath_eq_some_iff.mp hp with ⟨s', hns, hnk'⟩ | ⟨-, hnk', -⟩
  · obtain ⟨heq', hne, hnspart⟩ := (field_eq_some_iff isNamespacePart_delim.1).mp hns
    have hreach : ∀ x, r.namespace = v ++ x → r.namespace.head? = some 46 := by
      intro x hx
      cases v with
      | nil =>
          have h := nameKey_append_ref hb (w := []) (y := [97, 46, 97]) (by decide)
          rw [hnk] at h
          simp at h
      | cons c v =>
          by_cases hc : c = 46
          · simp [hx, hc]
          · have hcpart := isNamespacePart_iff.mp (hnspart c (by simp [hx]))
            have h := nameKey_isSome_of_head hb (v := v) (isNamePart_iff.mpr ⟨hc, hcpart.2, hcpart.1⟩)
              fun z hz => hnspart z (by simp [hx, hz])
            rw [hnk] at h
            simp at h
    rcases List.append_eq_append_iff.mp heq' with ⟨x, hx, -⟩ | ⟨x, hx, hrest⟩
    · exact hreach x hx
    · cases x with
      | nil => exact hreach [] (by simpa using hx.symm)
      | cons c x =>
          -- the namespace ends inside `v`
          obtain ⟨rfl, rfl⟩ : 47 = c ∧ s' = x ++ y := by simpa using hrest
          have h := nameKey_append_ref hb (w := x) (y := y) (by simp [hnk'])
          have hfield : field isNamespacePart 47 (v ++ 36 :: 123 :: b₁) =
              some (r.namespace, x ++ 36 :: 123 :: b₁) :=
            (field_eq_some_iff isNamespacePart_delim.1).mpr ⟨by simp [hx], hne, hnspart⟩
          rw [hqual _ _ hfield] at h
          simp at h
  · have h := nameKey_append_ref hb (w := v) (y := y) (by simp [hnk'])
    rw [hnk] at h
    simp at h

end

/-! ### The result of a replacement -/

/-- A text in which no reference starts and that closes none. -/
def Inert (w : GoString) : Prop := w ≠ [] ∧ 36 ∉ w ∧ 123 ∉ w ∧ 125 ∉ w

/-- A text that is a reference with a namespace. -/
def Qualified (ns w : GoString) : Prop :=
  ∃ r : Ref, r.Valid ∧ 125 ∉ r.body ∧ r.namespace = ns ∧ w = r.text

/-- The output of a replacement with the origin of each byte: `true` marks the
bytes that were put in for a match. -/
def pieces (f : Ref → GoString) (s : GoString) : List (UInt8 × Bool) :=
  (templateRegex.tokens s).flatMap
    (Sum.elim (fun c => [(c, false)]) (fun r => (f r).map fun c => (c, true)))

section

variable {f : Ref → GoString} {s rest : GoString} {r : Ref} {c : UInt8}

theorem pieces_of_match (h : matchAt s = some (r, rest)) :
    pieces f s = ((f r).map fun c => (c, true)) ++ pieces f rest := by
  rw [pieces, Matcher.tokens_of_match (M := templateRegex) h]
  rfl

theorem pieces_of_none (h : matchAt (c :: s) = none) :
    pieces f (c :: s) = (c, false) :: pieces f s := by
  rw [pieces, Matcher.tokens_of_none (M := templateRegex) h]
  rfl

theorem map_fst_pieces (f : Ref → GoString) (s : GoString) :
    (pieces f s).map Prod.fst = templateRegex.replaceAll f s := by
  rw [pieces, Matcher.replaceAll, List.map_flatMap]
  refine List.flatMap_congr fun t _ => ?_
  cases t <;> simp [Function.comp_def]

/-- What may be put in for a match, so that nothing but the references already
in sight can come out. -/
def Safe (ns : GoString) (f : Ref → GoString) : Prop :=
  ∀ s r rest, matchAt s = some (r, rest) → Inert (f r) ∨ ns ≠ [] ∧ Qualified ns (f r)

theorem Safe.last {ns : GoString} (hf : Safe ns f) (h : matchAt s = some (r, rest)) :
    125 ∉ f r ∨ ∃ w, 125 ∉ w ∧ f r = w ++ [125] := by
  rcases hf s r rest h with hinert | ⟨-, r', -, hb, -, htext⟩
  · exact Or.inl hinert.2.2.2
  · refine Or.inr ⟨36 :: 123 :: r'.body, ?_, by simp [htext, Ref.text]⟩
    simpa using hb

/-- Behind a closing brace of the output the input is scanned as if it started
there. -/
theorem pieces_after_brace {ns : GoString} (hf : Safe ns f) {a b : GoString} (ha : 125 ∉ a)
    (h : templateRegex.replaceAll f s = a ++ 125 :: b) :
    ∃ s' front, s'.length < s.length ∧ pieces f s = front ++ pieces f s' ∧
      front.map Prod.fst = a ++ [125] ∧ b = templateRegex.replaceAll f s' := by
  induction s using templateRegex.scan_induction generalizing a with
  | hnil => simp at h
  | hhit s r rest hm ih =>
      have hlt := Matcher.length_lt_of_match hm
      rw [Matcher.replaceAll_of_match hm] at h
      rcases hf.last hm with hnone | ⟨w, hw, hlast⟩
      · obtain ⟨a', rfl, h'⟩ : ∃ a', a = f r ++ a' ∧
            templateRegex.replaceAll f rest = a' ++ 125 :: b := by
          rcases List.append_eq_append_iff.mp h with ⟨x, hx, hrest⟩ | ⟨x, hx, hrest⟩
          · exact ⟨x, hx, hrest⟩
          · cases x with
            | nil => exact ⟨[], by simpa using hx.symm, by simpa using hrest.symm⟩
            | cons d x =>
                obtain ⟨rfl, -⟩ : 125 = d ∧ _ := by simpa using hrest
                exact absurd (by simp [hx]) hnone
        simp only [List.mem_append, not_or] at ha
        obtain ⟨s', front, hlen, hp, hfront, hb⟩ := ih ha.2 h'
        refine ⟨s', _ ++ front, hlen.trans hlt, by rw [pieces_of_match hm, hp, List.append_assoc],
          ?_, hb⟩
        simp [hfront, Function.comp_def]
      · rw [hlast, List.append_assoc, List.singleton_append] at h
        obtain ⟨rfl, hb⟩ := append_cons_inj_of_notMem hw ha h
        refine ⟨rest, _, hlt, pieces_of_match hm, ?_, hb.symm⟩
        simp [hlast, Function.comp_def]
  | hmiss c s hm ih =>
      rw [Matcher.replaceAll_of_none hm] at h
      cases a with
      | nil =>
          obtain ⟨rfl, hb⟩ : c = 125 ∧ templateRegex.replaceAll f s = b := by simpa using h
          exact ⟨s, [(125, false)], by simp, pieces_of_none hm, by simp, hb.symm⟩
      | cons d a =>
          obtain ⟨rfl, h'⟩ : c = d ∧ templateRegex.replaceAll f s = a ++ 125 :: b := by
            simpa using h
          simp only [List.mem_cons, not_or] at ha
          obtain ⟨s', front, hlen, hp, hfront, hb⟩ := ih ha.2 h'
          exact ⟨s', (c, false) :: front, by simp; omega, by rw [pieces_of_none hm, hp]; simp,
            by simp [hfront], hb⟩

/-- How the output up to its first closing brace came about: the input has the
same text there, or it has a reference that was replaced. -/
theorem first_replacement {a b : GoString} (ha : 125 ∉ a)
    (hne : ∀ s r rest, matchAt s = some (r, rest) → f r ≠ [])
    (h : templateRegex.replaceAll f s = a ++ 125 :: b) :
    (∃ b', s = a ++ 125 :: b') ∨
      ∃ u y b₁ r₁ z, 125 ∉ u ∧ 125 ∉ b₁ ∧ s = u ++ 36 :: 123 :: (b₁ ++ 125 :: z) ∧
        parseBody b₁ = some r₁ ∧ a = u ++ y ∧ ∃ x, (pieces f s)[u.length]? = some (x, true) := by
  induction s using templateRegex.scan_induction generalizing a with
  | hnil => simp at h
  | hhit s r rest hm ih =>
      obtain ⟨b₁, hb₁, rfl, hr⟩ := matchAt_eq_some_iff.mp hm
      refine Or.inr ⟨[], a, b₁, r, rest, by simp, hb₁, rfl, hr, rfl, ?_⟩
      rw [pieces_of_match hm]
      cases hfr : f r with
      | nil => exact absurd hfr (hne _ _ _ hm)
      | cons x w => exact ⟨x, by simp⟩
  | hmiss c s hm ih =>
      rw [Matcher.replaceAll_of_none hm] at h
      cases a with
      | nil =>
          obtain ⟨rfl, -⟩ : c = 125 ∧ templateRegex.replaceAll f s = b := by simpa using h
          exact Or.inl ⟨s, rfl⟩
      | cons d a =>
          obtain ⟨rfl, h'⟩ : c = d ∧ templateRegex.replaceAll f s = a ++ 125 :: b := by
            simpa using h
          simp only [List.mem_cons, not_or] at ha
          rcases ih ha.2 h' with ⟨b', rfl⟩ | ⟨u, y, b₁, r₁, z, hu, hb₁, rfl, hr₁, rfl, x, hx⟩
          · exact Or.inl ⟨b', rfl⟩
          · refine Or.inr ⟨c :: u, y, b₁, r₁, z, by simp [ha.1, hu], hb₁, rfl, hr₁, rfl, x, ?_⟩
            rw [pieces_of_none hm]
            simpa using hx

/-- A reference of the output that was none in the input. Its namespace starts
with a dot, and part of it was put in for a reference. -/
theorem new_ref {ns : GoString} (hf : Safe ns f) (hnone : matchAt (c :: s) = none)
    (hsome : matchAt (c :: templateRegex.replaceAll f s) = some (r, rest)) :
    r.namespace.head? = some 46 ∧
      ∃ j x, j < r.text.length ∧ (pieces f (c :: s))[j]? = some (x, true) := by
  have hne : ∀ s r rest, matchAt s = some (r, rest) → f r ≠ [] := by
    intro s r rest h
    rcases hf s r rest h with hinert | ⟨-, r', -, -, -, htext⟩
    · exact hinert.1
    · simp [htext, Ref.text]
  obtain ⟨a, ha, hopen, hr⟩ := matchAt_eq_some_iff.mp hsome
  obtain ⟨rfl, heq⟩ := List.cons.inj hopen
  clear hopen
  -- the opening brace is one of the input
  obtain ⟨s₂, rfl, hmiss⟩ : ∃ s₂, s = 123 :: s₂ ∧ matchAt s = none := by
    cases hm : matchAt s with
    | none =>
        cases s with
        | nil => simp at heq
        | cons d s =>
            rw [Matcher.replaceAll_of_none (M := templateRegex) hm] at heq
            exact ⟨s, by rw [(List.cons.inj heq).1], rfl⟩
    | some rr =>
        rw [Matcher.replaceAll_of_match (M := templateRegex) hm] at heq
        rcases hf s rr.1 rr.2 hm with ⟨hne', -, h123, -⟩ | ⟨-, r', -, -, -, htext⟩
        · cases hfr : f rr.1 with
          | nil => exact absurd hfr hne'
          | cons x w =>
              rw [hfr] at heq h123
              simp [(List.cons.inj heq).1] at h123
        · simp [htext, Ref.text] at heq
  rw [Matcher.replaceAll_of_none (M := templateRegex) hmiss] at heq
  have hout := (List.cons.inj heq).2
  have hlen : r.text.length = a.length + 3 := by
    simp [Ref.text, (Ref.body_eq_of_parseBody hr).1]
  rcases first_replacement ha hne hout with ⟨b', rfl⟩ | ⟨u, y, b₁, r₁, z, hu, hb₁, rfl, hr₁, rfl, x, hx⟩
  · -- the same text was a reference in the input already
    rw [matchAt_append ha, hr] at hnone
    simp at hnone
  · have hbody : parseBody (u ++ 36 :: 123 :: b₁) = none := by
      have hfree : 125 ∉ u ++ 36 :: 123 :: b₁ := by simp [hu, hb₁]
      have hsplit : u ++ 36 :: 123 :: (b₁ ++ 125 :: z) = (u ++ 36 :: 123 :: b₁) ++ 125 :: z := by
        simp
      rw [hsplit, matchAt_append hfree] at hnone
      simpa using hnone
    refine ⟨head_namespace_of_new_ref hr₁ hbody hr, u.length + 2, x, ?_, ?_⟩
    · rw [hlen, List.length_append]
      omega
    · rw [pieces_of_none hnone, pieces_of_none hmiss]
      simpa using hx

theorem matchAt_of_ne_dollar {d : UInt8} (hd : 36 ≠ d) (t : GoString) : matchAt (d :: t) = none := by
  simp [matchAt, eat, hd.symm]

theorem findAll_append_of_notMem {w t : GoString} (hw : 36 ∉ w) :
    templateRegex.findAll (w ++ t) = templateRegex.findAll t := by
  induction w with
  | nil => rfl
  | cons d w ih =>
      simp only [List.mem_cons, not_or] at hw
      rw [List.cons_append, Matcher.findAll_of_none (M := templateRegex)
        (matchAt_of_ne_dollar hw.1 _), ih hw.2]

theorem findAllIndex_append_of_notMem {w t : GoString} (hw : 36 ∉ w) :
    templateRegex.findAllIndex (w ++ t) =
      (templateRegex.findAllIndex t).map fun ja => (w.length + ja.1, ja.2) := by
  induction w with
  | nil => simp
  | cons d w ih =>
      simp only [List.mem_cons, not_or] at hw
      rw [List.cons_append, Matcher.findAllIndex_of_none (M := templateRegex)
        (matchAt_of_ne_dollar hw.1 _), ih hw.2, List.map_map]
      exact List.map_congr_left fun ja _ => by simp; omega

/-- Every reference of the output is one of the qualified texts put in, or its
namespace starts with a dot. -/
theorem namespace_of_findAll_replaceAll {ns : GoString} (hf : Safe ns f) (s : GoString) :
    ∀ r ∈ templateRegex.findAll (templateRegex.replaceAll f s),
      ns ≠ [] ∧ r.namespace = ns ∨ r.namespace.head? = some 46 := by
  induction hn : s.length using Nat.strongRecOn generalizing s with
  | _ n ih =>
      subst hn
      cases hm : matchAt s with
      | some rr =>
          have hrest := ih _ (Matcher.length_lt_of_match (M := templateRegex) hm) rr.2 rfl
          rw [Matcher.replaceAll_of_match (M := templateRegex) hm]
          rcases hf s rr.1 rr.2 hm with hinert | ⟨hns, r', hvalid, hb, hns', htext⟩
          · rw [findAll_append_of_notMem hinert.2.1]
            exact hrest
          · have hmatch : matchAt (f rr.1 ++ templateRegex.replaceAll f rr.2) =
                some (r', templateRegex.replaceAll f rr.2) := by
              refine matchAt_eq_some_iff.mpr ⟨r'.body, hb, by simp [htext, Ref.text], ?_⟩
              exact hvalid.parseBody_body (by rwa [hns'])
            rw [Matcher.findAll_of_match (M := templateRegex) hmatch]
            intro r hr
            rcases List.mem_cons.mp hr with rfl | hr
            · exact Or.inl ⟨hns, hns'⟩
            · exact hrest r hr
      | none =>
          cases s with
          | nil => simp [Matcher.findAll]
          | cons c s =>
              rw [Matcher.replaceAll_of_none (M := templateRegex) hm]
              cases hout : matchAt (c :: templateRegex.replaceAll f s) with
              | none =>
                  rw [Matcher.findAll_of_none (M := templateRegex) hout]
                  exact ih s.length (by simp) s rfl
              | some rr =>
                  obtain ⟨r, rest⟩ := rr
                  rw [Matcher.findAll_of_match (M := templateRegex) hout]
                  obtain ⟨a, ha, heq, hr⟩ := matchAt_eq_some_iff.mp hout
                  have hbrace : templateRegex.replaceAll f (c :: s) =
                      (36 :: 123 :: a) ++ 125 :: rest := by
                    rw [Matcher.replaceAll_of_none (M := templateRegex) hm, heq]
                    simp
                  obtain ⟨s', -, hlen, -, -, rfl⟩ := pieces_after_brace hf (by simp [ha]) hbrace
                  intro r' hr'
                  rcases List.mem_cons.mp hr' with rfl | hr'
                  · exact Or.inr (new_ref hf hm hout).1
                  · exact ih _ hlen s' rfl r' hr'

/-- Every reference of the output has bytes that were put in for one of the
input. -/
theorem put_in_of_findAllIndex {ns : GoString} (hf : Safe ns f) (s : GoString) :
    ∀ ir ∈ templateRegex.findAllIndex (templateRegex.replaceAll f s), ∃ j x,
      ir.1 ≤ j ∧ j < ir.1 + ir.2.text.length ∧ (pieces f s)[j]? = some (x, true) := by
  induction hn : s.length using Nat.strongRecOn generalizing s with
  | _ n ih =>
      subst hn
      -- a reference found behind a part of the output, with the pieces of that part
      have hshift : ∀ s' front, s'.length < s.length → pieces f s = front ++ pieces f s' →
          ∀ ir ∈ (templateRegex.findAllIndex (templateRegex.replaceAll f s')).map
            fun ja => (front.length + ja.1, ja.2), ∃ j x, ir.1 ≤ j ∧
              j < ir.1 + ir.2.text.length ∧ (pieces f s)[j]? = some (x, true) := by
        intro s' front hlt hp ir hir
        obtain ⟨ja, hja, rfl⟩ := List.mem_map.mp hir
        obtain ⟨j, x, hle, hlt', hx⟩ := ih _ hlt s' rfl ja hja
        refine ⟨front.length + j, x, by simp only; omega, by simp only; omega, ?_⟩
        rw [hp, List.getElem?_append_right (by omega)]
        simpa using hx
      cases hm : matchAt s with
      | some rr =>
          have hlt := Matcher.length_lt_of_match (M := templateRegex) hm
          have hp := pieces_of_match (f := f) hm
          rw [Matcher.replaceAll_of_match (M := templateRegex) hm]
          rcases hf s rr.1 rr.2 hm with hinert | ⟨hns, r', hvalid, hb, hns', htext⟩
          · rw [findAllIndex_append_of_notMem hinert.2.1]
            simpa using hshift rr.2 _ hlt hp
          · have hmatch : matchAt (f rr.1 ++ templateRegex.replaceAll f rr.2) =
                some (r', templateRegex.replaceAll f rr.2) := by
              refine matchAt_eq_some_iff.mpr ⟨r'.body, hb, by simp [htext, Ref.text], ?_⟩
              exact hvalid.parseBody_body (by rwa [hns'])
            rw [Matcher.findAllIndex_of_match (M := templateRegex) hmatch]
            intro ir hir
            rcases List.mem_cons.mp hir with rfl | hir
            · refine ⟨0, 36, by simp, by simp [Ref.text], ?_⟩
              rw [hp, htext, Ref.text]
              simp
            · have hlen : ((f rr.1).map fun c => (c, true)).length = r'.text.length := by
                simp [htext]
              exact hshift rr.2 _ hlt hp ir (by rw [hlen]; exact hir)
      | none =>
          cases s with
          | nil => simp [Matcher.findAllIndex, Matcher.locate]
          | cons c s =>
              rw [Matcher.replaceAll_of_none (M := templateRegex) hm]
              cases hout : matchAt (c :: templateRegex.replaceAll f s) with
              | none =>
                  rw [Matcher.findAllIndex_of_none (M := templateRegex) hout]
                  simpa using hshift s [(c, false)] (by simp) (pieces_of_none hm)
              | some rr =>
                  obtain ⟨r, rest⟩ := rr
                  rw [Matcher.findAllIndex_of_match (M := templateRegex) hout]
                  obtain ⟨a, ha, heq, hr⟩ := matchAt_eq_some_iff.mp hout
                  have hbrace : templateRegex.replaceAll f (c :: s) =
                      (36 :: 123 :: a) ++ 125 :: rest := by
                    rw [Matcher.replaceAll_of_none (M := templateRegex) hm, heq]
                    simp
                  obtain ⟨s', front, hlen, hp, hfront, rfl⟩ :=
                    pieces_after_brace hf (by simp [ha]) hbrace
                  intro ir hir
                  rcases List.mem_cons.mp hir with rfl | hir
                  · obtain ⟨j, x, hj, hx⟩ := (new_ref hf hm hout).2
                    exact ⟨j, x, by simp, by simpa using hj, hx⟩
                  · have hl : front.length = r.text.length := by
                      rw [← List.length_map (f := Prod.fst), hfront, Ref.text,
                        (Ref.body_eq_of_parseBody hr).1]
                      simp
                    exact hshift s' front hlen hp ir (by rw [hl]; exact hir)

end

/-! ### Annotations of an owner -/

/-- A DNS label: lower case letters, digits and inner dashes. -/
def isDNSLabel (s : GoString) : Bool :=
  let alnum := fun b : UInt8 => (97 ≤ b && b ≤ 122) || (48 ≤ b && b ≤ 57)
  s.length ≤ 63 && (s.all fun b => alnum b || b == 45) &&
    (s.head?.map alnum).getD false && (s.getLast?.map alnum).getD false

theorem isDNSLabel_mem {s : GoString} (h : isDNSLabel s = true) :
    ∀ b ∈ s, b ≠ 46 ∧ b ≠ 47 ∧ b ≠ 125 := by
  intro b hb
  simp only [isDNSLabel, Bool.and_eq_true, List.all_eq_true] at h
  have hb' := h.1.1.2 b hb
  refine ⟨?_, ?_, ?_⟩ <;> rintro rfl <;> revert hb' <;> decide

theorem isDNSLabel_head {s : GoString} (h : s.head? = some 46) : isDNSLabel s = false := by
  by_contra hlabel
  have hlabel' : isDNSLabel s = true := by simpa using hlabel
  exact (isDNSLabel_mem hlabel' 46 (List.mem_of_mem_head? h)).1 rfl

section

variable {s rest : GoString} {r : Ref}

theorem findAll_text (h : matchAt s = some (r, rest)) : templateRegex.findAll r.text = [r] := by
  obtain ⟨a, ha, -, hr⟩ := matchAt_eq_some_iff.mp h
  have hm : matchAt r.text = some (r, []) := by
    refine matchAt_eq_some_iff.mpr ⟨a, ha, ?_, hr⟩
    simp [Ref.text, (Ref.body_eq_of_parseBody hr).1]
  rw [Matcher.findAll_of_match (M := templateRegex) hm]
  rfl

/-- The replacement of a match, with the repeated match resolved. -/
theorem rewriteReference_text (h : matchAt s = some (r, rest)) (ownerNamespace : GoString) :
    (rewriteReference r.text ownerNamespace).replacement =
      if ownerNamespace = [] then refusedReferencePlaceholder
      else if r.namespace = [] then Ref.text { r with «namespace» := ownerNamespace }
      else if r.namespace ≠ ownerNamespace then refusedReferencePlaceholder
      else r.text := by
  rw [rewriteReference, findAll_text h]
  dsimp only
  split_ifs <;> rfl

theorem inert_placeholder : Inert refusedReferencePlaceholder := by
  refine ⟨?_, ?_, ?_, ?_⟩ <;> decide

theorem mem_findAll_matchAt {s : GoString} {r : Ref} (h : r ∈ templateRegex.findAll s) :
    ∃ s' rest, matchAt s' = some (r, rest) := by
  induction s using templateRegex.scan_induction with
  | hnil => simp [Matcher.findAll] at h
  | hhit s a rest hm ih =>
      rw [Matcher.findAll_of_match hm] at h
      rcases List.mem_cons.mp h with rfl | h
      · exact ⟨s, rest, hm⟩
      · exact ih h
  | hmiss c s hm ih =>
      rw [Matcher.findAll_of_none hm] at h
      exact ih h

end

/-- What the owner of a value may leave in it. -/
theorem safe_rewriteReference {ownerNamespace : GoString}
    (h : ownerNamespace = [] ∨ isDNSLabel ownerNamespace = true) :
    Safe ownerNamespace fun r => (rewriteReference r.text ownerNamespace).replacement := by
  intro s r rest hm
  simp only [rewriteReference_text hm]
  by_cases hempty : ownerNamespace = []
  · rw [if_pos hempty]
    exact Or.inl inert_placeholder
  · have hlabel : isDNSLabel ownerNamespace = true := h.resolve_left hempty
    obtain ⟨a, ha, -, hr⟩ := matchAt_eq_some_iff.mp hm
    obtain ⟨hbody, hvalid⟩ := Ref.body_eq_of_parseBody hr
    have hpart : ∀ x ∈ ownerNamespace, isNamespacePart x = true := fun x hx =>
      isNamespacePart_iff.mpr (isDNSLabel_mem hlabel x hx).2
    rw [if_neg hempty]
    split
    · -- the short form is expanded
      rename_i hns
      refine Or.inr ⟨hempty, { r with «namespace» := ownerNamespace },
        ⟨hvalid.1, hvalid.2, hpart, hvalid.4, hvalid.5, hvalid.6⟩, ?_, rfl, rfl⟩
      have howner : (125 : UInt8) ∉ ownerNamespace := fun h125 =>
        (isDNSLabel_mem hlabel 125 h125).2.2 rfl
      rw [← hbody] at ha
      simp only [Ref.body, hns, if_true, List.nil_append, List.mem_append, List.mem_cons, not_or] at ha
      simp [Ref.body, hempty, howner, ha]
    · split
      · exact Or.inl inert_placeholder
      · rename_i hns
        exact Or.inr ⟨hempty, r, hvalid, by rwa [hbody], by simpa using hns, rfl⟩

/-- The check for an opening reference only saves work. -/
theorem defuseString_eq (value ownerNamespace fieldName : GoString) :
    (defuseString value ownerNamespace fieldName).1 = templateRegex.replaceAll
      (fun r => (rewriteReference r.text ownerNamespace).replacement) value := by
  unfold defuseString
  split
  · rfl
  · rename_i hno
    refine (Matcher.replaceAll_eq_self fun r hr => ?_).symm
    have hopen : ∀ s : GoString, templateRegex.findAll s ≠ [] →
        Strings.contains s (bytes "$\x7b") = true := by
      intro s
      induction s using templateRegex.scan_induction with
      | hnil => simp [Matcher.findAll]
      | hhit s a rest hm ih =>
          intro _
          obtain ⟨b, -, rfl, -⟩ := matchAt_eq_some_iff.mp hm
          have hlit : bytes "$\x7b" = [36, 123] := by decide
          rw [Strings.contains, Strings.index, hlit]
          simp
      | hmiss c s hm ih =>
          intro hne
          rw [Matcher.findAll_of_none hm] at hne
          have h := ih hne
          rw [Strings.contains] at h ⊢
          rw [Strings.index]
          split
          · rfl
          · simpa using h
    exact absurd (hopen value (List.ne_nil_of_mem hr)) (by simpa using hno)

/-! ### The loop over the annotations -/

theorem assign_of_nodup {m₁ m₂ : List (GoString × GoString)} {k v v' : GoString}
    (h₁ : k ∉ m₁.map Prod.fst) (h₂ : k ∉ m₂.map Prod.fst) :
    assign (m₁ ++ (k, v) :: m₂) k v' = m₁ ++ (k, v') :: m₂ := by
  have hsame : ∀ m : List (GoString × GoString), k ∉ m.map Prod.fst →
      (m.map fun kv => if kv.1 = k then (k, v') else kv) = m := by
    intro m hm
    refine (List.map_congr_left fun kv hkv => ?_).trans (List.map_id m)
    have hne : kv.1 ≠ k := fun h => hm (h ▸ List.mem_map_of_mem hkv)
    simp [hne]
  simp [assign, hsame m₁ h₁, hsame m₂ h₂]

/-- The loop invariant: the input map is as it was, and the returned one has
the fields passed so far defused. -/
theorem foldl_defuseField {all done rest : List (GoString × GoString)} {ownerNamespace : GoString}
    (hall : all = done ++ rest) (hnodup : (all.map Prod.fst).Nodup) {st : DefuseState}
    (hvalues : st.values = all)
    (hresult : st.result =
      (done.map fun kv => (kv.1, (defuseString kv.2 ownerNamespace kv.1).1)) ++ rest) :
    (rest.foldl (defuseField ownerNamespace) st).values = all ∧
      (rest.foldl (defuseField ownerNamespace) st).result =
        all.map fun kv => (kv.1, (defuseString kv.2 ownerNamespace kv.1).1) := by
  induction rest generalizing done st with
  | nil => simpa [hall] using And.intro hvalues hresult
  | cons kv rest ih =>
      obtain ⟨k, v⟩ := kv
      refine @ih (done ++ [(k, v)]) (by simp [hall]) _ ?_ ?_
      · unfold defuseField DefuseState.assign
        cases hs : st.sanitized <;> simp only [Option.isNone_none, Option.isNone_some] <;>
          split <;> simp [hvalues]
      · rw [hall, List.map_append, List.map_cons] at hnodup
        have hk := List.nodup_middle.mp hnodup
        simp only [List.nodup_cons, List.mem_append, not_or] at hk
        unfold defuseField
        dsimp only
        split
        · rename_i hsame
          simpa [hsame, DefuseState.result] using hresult
        · have hassign := @assign_of_nodup
            (done.map fun kv => (kv.1, (defuseString kv.2 ownerNamespace kv.1).1)) rest k v
            (defuseString v ownerNamespace k).1 (by simpa [Function.comp_def] using hk.1.1) hk.1.2
          rw [DefuseState.result] at hresult
          cases hs : st.sanitized <;> simp [hs, DefuseState.assign, DefuseState.result] at hresult ⊢
          · rw [hresult, hassign]
          · rw [hresult, hassign]

/-- The restriction of references to their owner. The input map is left as it
was, the returned one has the same fields, and a value that only refers to the
owner's namespace is returned verbatim. For an owner with a DNS label as
namespace, every reference left in a value names a namespace, and one that is a
DNS label is the owner's. Without an owner every reference left in a value has
bytes of a placeholder in it, so it is none of those of the input, and its
namespace is no DNS label. -/
theorem defuseTemplates_restricts (values : GoMap) (ownerNamespace : GoString)
    (howner : ownerNamespace = [] ∨ isDNSLabel ownerNamespace = true) :
    let st := defuseTemplates values ownerNamespace
    let defused := fun kv : GoString × GoString => (defuseString kv.2 ownerNamespace kv.1).1
    st.values = values.entries ∧
      (st.result = values.entries.map fun kv => (kv.1, defused kv)) ∧
      (∀ kv ∈ values.entries, (∀ r ∈ templateRegex.findAll kv.2,
        ownerNamespace ≠ [] ∧ r.namespace = ownerNamespace) → kv ∈ st.result) ∧
      (ownerNamespace ≠ [] → ∀ kv ∈ st.result, ∀ r ∈ templateRegex.findAll kv.2,
        r.namespace ≠ [] ∧ (isDNSLabel r.namespace = true → r.namespace = ownerNamespace)) ∧
      (ownerNamespace = [] → ∀ kv ∈ values.entries,
        (pieces (fun _ => refusedReferencePlaceholder) kv.2).map Prod.fst = defused kv ∧
        ∀ ir ∈ templateRegex.findAllIndex (defused kv),
          isDNSLabel ir.2.namespace = false ∧
          ∃ j x, ir.1 ≤ j ∧ j < ir.1 + ir.2.text.length ∧
            (pieces (fun _ => refusedReferencePlaceholder) kv.2)[j]? = some (x, true)) := by
  intro st defused
  have hsafe := safe_rewriteReference howner
  obtain ⟨hvalues, hresult⟩ := @foldl_defuseField values.entries [] values.entries ownerNamespace
    rfl values.nodup { values := values.entries } rfl rfl
  refine ⟨hvalues, hresult, fun kv hkv hall => ?_, fun hne kv hkv r hr => ?_,
    fun hempty kv _ => ?_⟩
  · have hsame : defused kv = kv.2 := by
      simp only [defused, defuseString_eq]
      refine Matcher.replaceAll_eq_self fun r hr => ?_
      obtain ⟨s, rest, hm⟩ := mem_findAll_matchAt hr
      obtain ⟨hne, hns⟩ := hall r hr
      rw [rewriteReference_text hm, if_neg hne, if_neg (by rwa [hns]), if_neg (by simp [hns])]
      rfl
    change kv ∈ (defuseTemplates values ownerNamespace).result
    rw [defuseTemplates, hresult]
    exact List.mem_map.mpr ⟨kv, hkv, by simp only [defused] at hsame; rw [hsame]⟩
  · change kv ∈ (defuseTemplates values ownerNamespace).result at hkv
    rw [defuseTemplates, hresult] at hkv
    obtain ⟨kv', -, rfl⟩ := List.mem_map.mp hkv
    rw [defuseString_eq] at hr
    rcases namespace_of_findAll_replaceAll hsafe kv'.2 r hr with ⟨-, hns⟩ | hdot
    · exact ⟨by rwa [hns], fun _ => hns⟩
    · refine ⟨fun h => by simp [h] at hdot, fun h => ?_⟩
      simp [isDNSLabel_head hdot] at h
  · have hreplace : defused kv = templateRegex.replaceAll
        (fun _ => refusedReferencePlaceholder) kv.2 := by
      simp only [defused, defuseString_eq]
      refine Matcher.replaceAll_congr fun r hr => ?_
      obtain ⟨s, rest, hm⟩ := mem_findAll_matchAt hr
      rw [rewriteReference_text hm, if_pos hempty]
    have hrefused : Safe [] fun _ => refusedReferencePlaceholder :=
      fun _ _ _ _ => Or.inl inert_placeholder
    refine ⟨by rw [map_fst_pieces, hreplace], fun ir hir => ?_⟩
    rw [hreplace] at hir
    refine ⟨isDNSLabel_head ?_, put_in_of_findAllIndex hrefused kv.2 ir hir⟩
    have hfound := Matcher.mem_findAll_of_mem_findAllIndex hir
    rcases namespace_of_findAll_replaceAll hrefused kv.2 ir.2 hfound with ⟨h, -⟩ | hdot
    · exact absurd rfl h
    · exact hdot

/-- An owner that refers to its own secret in the short form and to that of
another namespace. -/
theorem defuseTemplates_restricts_tenant :
    ((defuseTemplates ⟨[(bytes "k", bytes "$\x7bsecret.app.key\x7d $\x7bsecret.b/app.key\x7d")],
        by simp⟩ (bytes "a")).result =
      [(bytes "k", bytes "$\x7bsecret.a/app.key\x7d secret-reference-refused")]) ∧
    ∀ r ∈ templateRegex.findAll (bytes "$\x7bsecret.a/app.key\x7d secret-reference-refused"),
      isDNSLabel r.namespace = true → r.namespace = bytes "a" := by
  have hresult : (defuseTemplates
      ⟨[(bytes "k", bytes "$\x7bsecret.app.key\x7d $\x7bsecret.b/app.key\x7d")], by simp⟩
      (bytes "a")).result =
        [(bytes "k", bytes "$\x7bsecret.a/app.key\x7d secret-reference-refused")] := by
    decide +kernel
  refine ⟨hresult, fun r hr hlabel => ?_⟩
  obtain ⟨-, -, -, hmain, -⟩ := defuseTemplates_restricts
    ⟨[(bytes "k", bytes "$\x7bsecret.app.key\x7d $\x7bsecret.b/app.key\x7d")], by simp⟩
    (bytes "a") (Or.inr (by decide))
  exact (hmain (by decide) _ (by rw [hresult]; exact List.mem_singleton.mpr rfl) r hr).2 hlabel

end Higress.Ingress.Template
