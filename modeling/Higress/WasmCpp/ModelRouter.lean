import Mathlib.Data.Nat.Find
import Higress.Lib.Blocks

/-!
The model router on multipart bodies. The body is held back until the part with the model has come;
the parts are what stands between the boundaries in what has come so far. The first part with the
header of the model field anywhere in it is taken, and its first line behind its header block is the
model.
-/

namespace Higress.WasmCpp.ModelRouter

open Lib

def crlf : GoString := [13, 10]

def crlfCrlf : GoString := [13, 10, 13, 10]

def dashes : GoString := [45, 45]

structure ModelRouterConfigRule where
  modelKey : GoString := bytes "model"
  addProviderHeader : GoString := []
  modelToHeader : GoString := []

section Code

variable (rule : ModelRouterConfigRule) (boundary : GoString)

def modelParamHeader : GoString :=
  bytes "Content-Disposition: form-data; name=\"" ++ (rule.modelKey ++ [34])

/-- Where the value of a part begins, and the value; `none` where the loop is left without one. -/
def findValue (part : GoString) : Option (ℕ × GoString) :=
  match Strings.index part crlfCrlf with
  | none => none
  | some i =>
      match Strings.index (part.drop (i + 4)) crlf with
      | none => none
      | some j => some (i + 4, (part.drop (i + 4)).take j)

/-- The loop over the parts, the first of which begins at `pos` in the body. -/
def findIn : ℕ → List GoString → Option (ℕ × GoString)
  | _, [] => none
  | pos, part :: parts =>
      if Strings.contains part (modelParamHeader rule) then
        (findValue part).map fun found => (pos + found.1, found.2)
      else findIn (pos + (part.length + boundary.length)) parts

/-- Where the model stands in a body, and the model. -/
def findModel (body : GoString) : Option (ℕ × GoString) :=
  match split body boundary with
  | [] => none
  | first :: parts => findIn rule boundary (first.length + boundary.length) parts

/-- The body is changed: there is a header for the provider, and the model names one. -/
def rewrites (value : GoString) : Bool := rule.addProviderHeader ≠ [] && (47 : UInt8) ∈ value

/-- The calls of `replaceRequestHeader`. -/
def routingHeaders (value : GoString) : List (GoString × GoString) :=
  (if rule.modelToHeader = [] then [] else [(rule.modelToHeader, value)]) ++
    (if rewrites rule value then [(rule.addProviderHeader, (cutByte 47 value).1)] else [])

/-- The model without its provider. -/
def modelOf (value : GoString) : GoString := (cutByte 47 value).2.getD []

/-- The body that is set, for a value at some place of it. -/
def rewrite (body : GoString) (pos : ℕ) (value : GoString) : GoString :=
  if rewrites rule value then
    body.take pos ++ (modelOf value ++ body.drop (pos + value.length))
  else body

/-- A stream: the routing headers set, whether the mode is `MODE_BYPASS`, the data held back, and
the data sent on. -/
structure Stream where
  routed : List (GoString × GoString) := []
  bypass : Bool := false
  held : GoString := []
  sent : GoString := []

/-- `onRequestBody` in a multipart request, with what the host does to the data. -/
def onRequestBody (s : Stream) (chunk : GoString) (endStream : Bool) : Stream :=
  if s.bypass then { s with sent := s.sent ++ chunk }
  else
    match findModel rule boundary (s.held ++ chunk) with
    | some (pos, value) =>
        { routed := s.routed ++ routingHeaders rule value
          bypass := true
          held := []
          sent := s.sent ++ rewrite rule (s.held ++ chunk) pos value }
    | none =>
        if endStream then { s with held := [], sent := s.sent ++ (s.held ++ chunk) }
        else { s with held := s.held ++ chunk }

/-- The callbacks of a body that comes in chunks; with trailers none of them ends the stream. -/
def run (trailers : Bool) : Stream → List GoString → Stream
  | s, [] => s
  | s, chunk :: rest =>
      run trailers (onRequestBody rule boundary s chunk (rest.isEmpty && !trailers)) rest

/-- The routing headers and the body that goes on; what is still held back goes on with the
trailers. -/
def outcome (trailers : Bool) (chunks : List GoString) : List (GoString × GoString) × GoString :=
  let s := run rule boundary trailers {} chunks
  (s.routed, s.sent ++ s.held)

end Code

/-! ### Forms -/

structure Part where
  header : GoString
  content : GoString

namespace Part

/-- What stands between two boundaries. -/
def text (p : Part) : GoString :=
  crlf ++ (p.header ++ (crlfCrlf ++ (p.content ++ (crlf ++ dashes))))

/-- The first line of the content. -/
def value (p : Part) : GoString :=
  match Strings.index p.content crlf with
  | some i => p.content.take i
  | none => p.content

/-- The part without the provider in its value. -/
def rewritten (rule : ModelRouterConfigRule) (p : Part) : Part :=
  if rewrites rule p.value then
    { p with content := modelOf p.value ++ p.content.drop p.value.length }
  else p

def Names (rule : ModelRouterConfigRule) (p : Part) : Prop :=
  Strings.contains p.header (modelParamHeader rule) = true

instance decidableNames (rule : ModelRouterConfigRule) (p : Part) : Decidable (p.Names rule) :=
  inferInstanceAs (Decidable (_ = _))

end Part

/-- A body of parts. -/
def formBody (boundary preamble : GoString) (parts : List Part) (epilogue : GoString) : GoString :=
  sealBlocks boundary ((preamble ++ dashes) :: parts.map Part.text) ++ (dashes ++ epilogue)

/-- A multipart body in which the boundary is met only between the parts, and a header block ends
where the first empty line is. -/
structure Form where
  boundary : GoString
  preamble : GoString
  parts : List Part
  epilogue : GoString
  boundary_ne : boundary ≠ []
  preamble_isBlock : IsBlock boundary (preamble ++ dashes)
  parts_isBlock : ∀ p ∈ parts, IsBlock boundary p.text
  epilogue_index : Strings.index (dashes ++ epilogue) boundary = none
  header_isBlock : ∀ p ∈ parts, IsBlock crlfCrlf (crlf ++ p.header)

def Form.body (f : Form) : GoString := formBody f.boundary f.preamble f.parts f.epilogue

/-- The value of the first part whose header block names the key, and the parts with this value
changed. -/
def routeParts (rule : ModelRouterConfigRule) : List Part → Option (GoString × List Part)
  | [] => none
  | p :: parts =>
      if p.Names rule then some (p.value, p.rewritten rule :: parts)
      else (routeParts rule parts).map fun r => (r.1, p :: r.2)

/-- What the model field stands for. -/
def Form.route (f : Form) (rule : ModelRouterConfigRule) : List (GoString × GoString) × GoString :=
  match routeParts rule f.parts with
  | some (value, parts) => (routingHeaders rule value, formBody f.boundary f.preamble parts f.epilogue)
  | none => ([], f.body)

/-! ### Finding a text -/

section Finding

variable {s sub t : GoString} {i : ℕ}

theorem prefix_drop_of_index (h : Strings.index s sub = some i) : sub <+: s.drop i := by
  induction s generalizing i with
  | nil =>
      rw [Strings.index] at h
      split at h
      · rename_i hp
        obtain rfl : 0 = i := by simpa using h
        exact List.isPrefixOf_iff_prefix.mp hp
      · simp at h
  | cons b s ih =>
      rw [Strings.index] at h
      split at h
      · rename_i hp
        obtain rfl : 0 = i := by simpa using h
        exact List.isPrefixOf_iff_prefix.mp hp
      · obtain ⟨j, hj, rfl⟩ := Option.map_eq_some_iff.mp h
        exact ih hj

/-- What is found is the first occurrence. -/
theorem index_le_of_prefix {j : ℕ} (h : Strings.index s sub = some i)
    (hj : sub <+: s.drop j) : i ≤ j := by
  induction s generalizing i j with
  | nil =>
      rw [Strings.index] at h
      split at h
      · obtain rfl : 0 = i := by simpa using h
        exact Nat.zero_le j
      · simp at h
  | cons b s ih =>
      rw [Strings.index] at h
      split at h
      · obtain rfl : 0 = i := by simpa using h
        exact Nat.zero_le j
      · rename_i hp
        obtain ⟨i, hi, rfl⟩ := Option.map_eq_some_iff.mp h
        cases j with
        | zero => exact absurd (List.isPrefixOf_iff_prefix.mpr hj) hp
        | succ j => exact Nat.succ_le_succ (ih hi hj)

/-- A line ends at the line break behind it, also where it ends with half of one. -/
theorem index_crlf_of_none (h : Strings.index s crlf = none) :
    Strings.index (s ++ crlf) crlf = some s.length := by
  induction s with
  | nil => decide
  | cons b s ih =>
      rw [Strings.index] at h
      split at h
      · simp at h
      · rename_i hp
        have hp' : ¬ crlf.isPrefixOf (b :: (s ++ crlf)) = true := by
          cases s with
          | nil => simp [crlf, List.isPrefixOf]
          | cons c s =>
              simp only [crlf, List.cons_append, List.isPrefixOf] at hp ⊢
              simpa using hp
        rw [List.cons_append, Strings.index, if_neg hp', ih (by simpa using h)]
        rfl

theorem contains_of_prefix (h : s <+: t) (hs : Strings.contains s sub = true) :
    Strings.contains t sub = true := by
  obtain ⟨r, rfl⟩ := h
  obtain ⟨i, hi⟩ := Option.isSome_iff_exists.mp hs
  rw [Strings.contains, Strings.index_append hi]
  rfl

end Finding

section Values

variable {part : GoString} {start : ℕ} {value : GoString}

/-- A value ends where the first line ends. -/
theorem findValue_spec (h : findValue part = some (start, value)) :
    start + value.length + 2 ≤ part.length ∧ value <+: part.drop start ∧
      Strings.index (part.drop start) crlf = some value.length := by
  rw [findValue] at h
  split at h
  · simp at h
  · rename_i i hi
    split at h
    · simp at h
    · rename_i j hj
      simp only [Option.some.injEq, Prod.mk.injEq] at h
      obtain ⟨rfl, rfl⟩ := h
      have hlen := Strings.length_le_of_index hj
      have hlen' := Strings.length_le_of_index hi
      have hcrlf : crlf.length = 2 := rfl
      have hcrlf' : crlfCrlf.length = 4 := rfl
      rw [List.length_drop] at hlen
      have htake : ((part.drop (i + 4)).take j).length = j := by
        rw [List.length_take, List.length_drop]
        omega
      rw [htake]
      exact ⟨by omega, List.take_prefix _ _, hj⟩

theorem findValue_append (h : findValue part = some (start, value)) (rest : GoString) :
    findValue (part ++ rest) = some (start, value) := by
  rw [findValue] at h ⊢
  split at h
  · simp at h
  · rename_i i hi
    split at h
    · simp at h
    · rename_i j hj
      simp only [Option.some.injEq, Prod.mk.injEq] at h
      obtain ⟨rfl, rfl⟩ := h
      have hlen := Strings.length_le_of_index hj
      have hlen' := Strings.length_le_of_index hi
      have hcrlf' : crlfCrlf.length = 4 := rfl
      have hdrop : (part ++ rest).drop (i + 4) = part.drop (i + 4) ++ rest := by
        rw [List.drop_append_of_le_length (by omega)]
      simp only [Strings.index_append hi, hdrop, Strings.index_append hj]
      rw [List.take_append_of_le_length (by omega)]

theorem findValue_of_isPrefix {part' : GoString} (h : findValue part = some (start, value))
    (hstart : part <+: part') : findValue part' = some (start, value) := by
  obtain ⟨rest, rfl⟩ := hstart
  exact findValue_append h rest

/-- The value of a part is the first line behind its header block. -/
theorem findValue_text {p : Part} (h : IsBlock crlfCrlf (crlf ++ p.header)) :
    findValue p.text = some ((crlf ++ p.header).length + 4, p.value) := by
  have hi : Strings.index p.text crlfCrlf = some (crlf ++ p.header).length := by
    have := Strings.index_append h (p.content ++ (crlf ++ dashes))
    simpa [Part.text] using this
  have hdrop : p.text.drop ((crlf ++ p.header).length + 4) = p.content ++ (crlf ++ dashes) := by
    have htext : p.text = (crlf ++ p.header ++ crlfCrlf) ++ (p.content ++ (crlf ++ dashes)) := by
      simp [Part.text]
    rw [htext]
    exact List.drop_left' (by simp [crlfCrlf, Nat.add_assoc])
  simp only [findValue, hi, hdrop, Part.value]
  cases hline : Strings.index p.content crlf with
  | some j =>
      have hlen := Strings.length_le_of_index hline
      simp only [Strings.index_append hline]
      rw [List.take_append_of_le_length (by omega)]
  | none =>
      have hend := Strings.index_append (index_crlf_of_none hline) dashes
      rw [List.append_assoc] at hend
      simp only [hend]
      rw [List.take_left]

/-- A value is one line. -/
theorem isBlock_of_findValue (h : findValue part = some (start, value)) : IsBlock crlf value := by
  obtain ⟨-, ⟨r, hr⟩, hindex⟩ := findValue_spec h
  obtain ⟨i, hi⟩ : ∃ i, Strings.index (value ++ crlf) crlf = some i := by
    refine Option.isSome_iff_exists.mp ((contains_iff_isInfix _ _).mpr ?_)
    exact (List.suffix_append value crlf).isInfix
  have hprefix : value ++ crlf <+: part.drop start := by
    have := prefix_drop_of_index hindex
    rw [← hr, List.drop_left] at this
    rw [← hr]
    exact (List.prefix_append_right_inj _).mpr this
  obtain ⟨r', hr'⟩ := hprefix
  have hsame := Strings.index_append hi r'
  rw [hr', hindex] at hsame
  rw [IsBlock, hi, hsame]

end Values

/-! ### What a part of the body shows -/

section Prefixes

variable {rule : ModelRouterConfigRule} {boundary : GoString}

/-- Parts without the header of the model are passed. -/
theorem findIn_append {before : List GoString}
    (h : ∀ part ∈ before, Strings.contains part (modelParamHeader rule) = false) (pos : ℕ)
    (rest : List GoString) :
    findIn rule boundary pos (before ++ rest) =
      findIn rule boundary (pos + (sealBlocks boundary before).length) rest := by
  induction before generalizing pos with
  | nil => rfl
  | cons part before ih =>
      rw [List.cons_append, findIn, h part (by simp), if_neg Bool.false_ne_true,
        ih fun p hp => h p (by simp [hp])]
      congr 1
      simp [Nat.add_assoc]

namespace Form

variable (f : Form)

/-- The parts, and what stands behind the last boundary. -/
def sections : List GoString := f.parts.map Part.text ++ [dashes ++ f.epilogue]

/-- How far a section can be seen before the boundary behind it is there. -/
def reach (k : ℕ) : GoString :=
  if k < f.parts.length then f.sections.getD k [] ++ f.boundary.dropLast else f.sections.getD k []

/-- Where a section begins. -/
def offset (k : ℕ) : ℕ :=
  (sealBlocks f.boundary ((f.preamble ++ dashes) :: (f.parts.map Part.text).take k)).length

/-- What has come of the body before a place in a section. -/
def shown (k : ℕ) (p : GoString) : GoString :=
  sealBlocks f.boundary ((f.preamble ++ dashes) :: (f.parts.map Part.text).take k) ++ p

variable {f}

theorem sections_getD {k : ℕ} (hk : k < f.parts.length) :
    f.sections.getD k [] = (f.parts[k]).text := by
  simp [sections, hk, List.getElem?_append_left]

theorem sections_getD_last : f.sections.getD f.parts.length [] = dashes ++ f.epilogue := by
  simp [sections]

theorem section_prefix_reach (k : ℕ) : f.sections.getD k [] <+: f.reach k := by
  rw [reach]
  split
  · exact List.prefix_append _ _
  · exact List.prefix_refl _

theorem reach_of_lt {k : ℕ} (hk : k < f.parts.length) :
    f.reach k = (f.parts[k]).text ++ f.boundary.dropLast := by
  rw [reach, if_pos hk, sections_getD hk]

theorem reach_last : f.reach f.parts.length = dashes ++ f.epilogue := by
  rw [reach, if_neg (Nat.lt_irrefl _), sections_getD_last]

theorem isBlock_of_mem {b : GoString}
    (h : b ∈ (f.preamble ++ dashes) :: f.parts.map Part.text) : IsBlock f.boundary b := by
  rcases List.mem_cons.mp h with rfl | h
  · exact f.preamble_isBlock
  · obtain ⟨p, hp, rfl⟩ := List.mem_map.mp h
    exact f.parts_isBlock p hp

/-- A prefix of the body ends before the first part, or in some section. -/
theorem prefix_body {t : GoString} (h : t <+: f.body) :
    Strings.index t f.boundary = none ∨
      ∃ k p, k ≤ f.parts.length ∧ p <+: f.reach k ∧ t = f.shown k p := by
  rcases Nat.le_total t.length
    (sealBlocks f.boundary ((f.preamble ++ dashes) :: f.parts.map Part.text)).length with hle | hle
  · obtain ⟨p, ht, hopens⟩ := exists_opens (List.prefix_of_prefix_length_le h
      (List.prefix_append _ _) hle)
    have hcount := @completed_le f.boundary t.length ((f.preamble ++ dashes) :: f.parts.map Part.text)
    generalize completed f.boundary t.length ((f.preamble ++ dashes) :: f.parts.map Part.text) = c at *
    cases c with
    | zero =>
        left
        rw [ht, List.take_zero, sealBlocks_nil, List.nil_append]
        exact hopens.index_eq_none (fun b hb => isBlock_of_mem hb) f.boundary_ne
    | succ k =>
        right
        rw [List.length_cons, List.length_map] at hcount
        refine ⟨k, p, by omega, ?_, ht⟩
        rw [List.drop_succ_cons] at hopens
        by_cases hk : k < f.parts.length
        · have hcons : (f.parts.map Part.text).drop k =
              (f.parts[k]).text :: (f.parts.map Part.text).drop (k + 1) := by
            rw [List.drop_eq_getElem_cons (by simpa using hk), List.getElem_map]
          rw [hcons] at hopens
          rw [reach_of_lt hk]
          have hfull : (f.parts[k]).text ++ f.boundary.dropLast <+: (f.parts[k]).text ++ f.boundary :=
            List.prefix_append_right_inj _ |>.mpr (List.dropLast_prefix _)
          refine List.prefix_of_prefix_length_le hopens.1 hfull ?_
          have hlt := hopens.2
          rw [List.length_append] at hlt
          rw [List.length_append, List.length_dropLast]
          omega
        · have hnil : (f.parts.map Part.text).drop k = [] := by
            rw [List.drop_eq_nil_iff, List.length_map]
            omega
          rw [hnil] at hopens
          obtain rfl : p = [] := hopens
          exact List.nil_prefix
  · right
    obtain ⟨p, rfl⟩ := List.prefix_of_prefix_length_le (List.prefix_append _ _) h hle
    refine ⟨f.parts.length, p, le_rfl, ?_, ?_⟩
    · rw [reach_last]
      exact (List.prefix_append_right_inj _).mp h
    · rw [shown, List.take_of_length_le (by simp)]

theorem index_of_prefix_reach {k : ℕ} {p : GoString} (hk : k ≤ f.parts.length)
    (hp : p <+: f.reach k) : Strings.index p f.boundary = none := by
  rcases hk.lt_or_eq with hk | rfl
  · rw [reach_of_lt hk] at hp
    have hpos := List.length_pos_iff.mpr f.boundary_ne
    have hlen := hp.length_le
    rw [List.length_append, List.length_dropLast] at hlen
    refine (f.parts_isBlock _ (List.getElem_mem hk)).index_eq_none (hp.trans
      ((List.prefix_append_right_inj _).mpr (List.dropLast_prefix _))) ?_
    rw [List.length_append]
    omega
  · rw [reach_last] at hp
    obtain ⟨r, hr⟩ := hp
    cases hindex : Strings.index p f.boundary with
    | none => rfl
    | some i =>
        have := Strings.index_append hindex r
        rw [hr, f.epilogue_index] at this
        simp at this

theorem split_shown {k : ℕ} {p : GoString} (hk : k ≤ f.parts.length) (hp : p <+: f.reach k) :
    split (f.shown k p) f.boundary =
      (f.preamble ++ dashes) :: ((f.parts.map Part.text).take k ++ [p]) := by
  rw [shown, split_sealBlocks _ f.boundary_ne (index_of_prefix_reach hk hp)]
  · rfl
  · intro b hb
    refine isBlock_of_mem ?_
    rcases List.mem_cons.mp hb with rfl | hb
    · exact List.mem_cons_self
    · exact List.mem_cons_of_mem _ (List.mem_of_mem_take hb)

theorem shown_reach_isPrefix {k : ℕ} (hk : k ≤ f.parts.length) : f.shown k (f.reach k) <+: f.body := by
  rcases hk.lt_or_eq with hk | rfl
  · have hsplit := (List.take_append_drop k (f.parts.map Part.text)).symm
    rw [List.drop_eq_getElem_cons (by simpa using hk), List.getElem_map] at hsplit
    have hbody : f.body = sealBlocks f.boundary
        ((f.preamble ++ dashes) :: (f.parts.map Part.text).take k) ++ ((f.parts[k]).text ++ (f.boundary ++
          (sealBlocks f.boundary ((f.parts.map Part.text).drop (k + 1)) ++ (dashes ++ f.epilogue)))) := by
      rw [body, formBody, hsplit, ← List.cons_append, sealBlocks_append,
        sealBlocks_cons (f.parts[k]).text, ← hsplit]
      simp only [List.append_assoc]
    rw [shown, reach_of_lt hk, hbody, List.prefix_append_right_inj, List.prefix_append_right_inj]
    exact (List.dropLast_prefix _).trans (List.prefix_append _ _)
  · rw [shown, reach_last, List.take_of_length_le (by simp)]
    exact List.prefix_refl _

theorem offset_eq (k : ℕ) : f.offset k = (f.preamble ++ dashes).length + f.boundary.length +
    (sealBlocks f.boundary ((f.parts.map Part.text).take k)).length := by
  rw [offset, sealBlocks_cons, List.length_append, @List.length_append _ f.boundary, Nat.add_assoc]

theorem length_shown (k : ℕ) (p : GoString) : (f.shown k p).length = f.offset k + p.length := by
  rw [shown, offset, List.length_append]

/-- The sections before `k`, cut at an earlier one. -/
theorem take_eq_of_lt {j k : ℕ} (hj : j < k) (hk : k ≤ f.parts.length) :
    (f.parts.map Part.text).take k = (f.parts.map Part.text).take j ++
      (f.sections.getD j [] :: ((f.parts.map Part.text).take k).drop (j + 1)) := by
  have hdrop : ((f.parts.map Part.text).take k).drop j =
      f.sections.getD j [] :: ((f.parts.map Part.text).take k).drop (j + 1) := by
    rw [List.drop_eq_getElem_cons (by simp; omega), List.getElem_take, List.getElem_map,
      sections_getD (hj.trans_le hk)]
  have htake := (List.take_append_drop j ((f.parts.map Part.text).take k)).symm
  rwa [hdrop, List.take_take, Nat.min_eq_left (by omega)] at htake

/-- The sections stand one behind the other. -/
theorem offset_add_le {j k : ℕ} (hj : j < k) (hk : k ≤ f.parts.length) :
    f.offset j + (f.sections.getD j []).length ≤ f.offset k := by
  rw [offset_eq, offset_eq, take_eq_of_lt hj hk, sealBlocks_append, sealBlocks_cons]
  simp only [List.length_append]
  omega

/-- A section whose value the code may take: no section before it has the header of the model in
it, and it has, at the latest with the beginning of the boundary behind it. -/
structure Takes (f : Form) (rule : ModelRouterConfigRule) (k start : ℕ) (value : GoString) : Prop where
  le : k ≤ f.parts.length
  before : ∀ j < k, Strings.contains (f.sections.getD j []) (modelParamHeader rule) = false
  here : Strings.contains (f.reach k) (modelParamHeader rule) = true
  found : findValue (f.sections.getD k []) = some (start, value)

theorem findModel_shown {k : ℕ} {p : GoString} (hk : k ≤ f.parts.length) (hp : p <+: f.reach k) :
    findModel rule f.boundary (f.shown k p) =
      findIn rule f.boundary ((f.preamble ++ dashes).length + f.boundary.length)
        ((f.parts.map Part.text).take k ++ [p]) := by
  rw [findModel, split_shown hk hp]

/-- The sections before one that was reached, as the code sees them. -/
theorem findIn_before {k : ℕ} (hk : k ≤ f.parts.length)
    (h : ∀ j < k, Strings.contains (f.sections.getD j []) (modelParamHeader rule) = false)
    (rest : List GoString) :
    findIn rule f.boundary ((f.preamble ++ dashes).length + f.boundary.length)
        ((f.parts.map Part.text).take k ++ rest) = findIn rule f.boundary (f.offset k) rest := by
  rw [findIn_append, offset_eq]
  intro part hpart
  obtain ⟨j, hj, rfl⟩ := List.getElem_of_mem hpart
  rw [List.length_take, List.length_map] at hj
  have hsection := h j (by omega)
  rw [sections_getD (by omega)] at hsection
  rw [List.getElem_take, List.getElem_map]
  exact hsection

theorem found_of_prefix {k start : ℕ} {p value : GoString} (hk : k ≤ f.parts.length)
    (hp : p <+: f.reach k) (h : findValue p = some (start, value)) :
    findValue (f.sections.getD k []) = some (start, value) := by
  rcases hk.lt_or_eq with hk | rfl
  · have htext := findValue_text (f.header_isBlock _ (List.getElem_mem hk))
    rw [sections_getD hk]
    rw [reach_of_lt hk] at hp
    have hsame := (findValue_append htext f.boundary.dropLast).symm.trans (findValue_of_isPrefix h hp)
    rw [htext, hsame]
  · rw [reach_last] at hp
    rw [sections_getD_last]
    exact findValue_of_isPrefix h hp

/-- What the code finds in a prefix of the body is a section that it may take. -/
theorem takes_of_findModel {t value : GoString} {pos : ℕ} (ht : t <+: f.body)
    (h : findModel rule f.boundary t = some (pos, value)) :
    ∃ k start, f.Takes rule k start value ∧ pos = f.offset k + start ∧
      pos + value.length ≤ t.length := by
  rcases prefix_body ht with hnone | ⟨k, p, hk, hp, rfl⟩
  · rw [findModel, split_of_index_none hnone] at h
    simp [findIn] at h
  · rw [findModel_shown hk hp] at h
    by_cases hbefore : ∀ j < k, Strings.contains (f.sections.getD j []) (modelParamHeader rule) = false
    · rw [findIn_before hk hbefore, findIn] at h
      split at h
      · rename_i hcontains
        obtain ⟨⟨start, value'⟩, hfound, hpos⟩ := Option.map_eq_some_iff.mp h
        obtain ⟨rfl, rfl⟩ := Prod.mk.inj hpos
        refine ⟨k, start, ⟨hk, hbefore, contains_of_prefix hp hcontains, found_of_prefix hk hp hfound⟩,
          rfl, ?_⟩
        have hspec := (findValue_spec hfound).1
        rw [length_shown]
        dsimp only
        omega
      · simp [findIn] at h
    · -- The first section with the header is complete.
      have hexists : ∃ j, j < k ∧
          Strings.contains (f.sections.getD j []) (modelParamHeader rule) = true := by
        push Not at hbefore
        obtain ⟨j, hj, hcontains⟩ := hbefore
        exact ⟨j, hj, by simpa using hcontains⟩
      obtain ⟨hj, hcontains⟩ := Nat.find_spec hexists
      have hmin (i : ℕ) (hi : i < Nat.find hexists) :
          Strings.contains (f.sections.getD i []) (modelParamHeader rule) = false := by
        have := Nat.find_min hexists hi
        simp only [not_and, Bool.not_eq_true] at this
        exact this (hi.trans hj)
      generalize Nat.find hexists = j at *
      rw [take_eq_of_lt hj hk, List.append_assoc, findIn_before (by omega) hmin, List.cons_append,
        findIn, if_pos hcontains] at h
      obtain ⟨⟨start, value'⟩, hfound, hpos⟩ := Option.map_eq_some_iff.mp h
      obtain ⟨rfl, rfl⟩ := Prod.mk.inj hpos
      refine ⟨j, start, ⟨by omega, hmin, contains_of_prefix (section_prefix_reach j) hcontains, hfound⟩,
        rfl, ?_⟩
      have hspec := (findValue_spec hfound).1
      have hoffset := offset_add_le hj hk
      rw [length_shown]
      dsimp only
      omega

/-- A section that the code may take is taken when all of it and the beginning of the boundary behind
it has come. -/
theorem findModel_of_takes {k start : ℕ} {value : GoString} (h : f.Takes rule k start value) :
    findModel rule f.boundary (f.shown k (f.reach k)) = some (f.offset k + start, value) := by
  rw [findModel_shown h.le (List.prefix_refl _), findIn_before h.le h.before, findIn, if_pos h.here,
    findValue_of_isPrefix h.found (section_prefix_reach k)]
  rfl

/-- A form in which a part is named has a value for the code. -/
theorem findModel_body_ne_none {m : ℕ} (hm : m < f.parts.length)
    (h : Strings.contains (f.parts[m]).text (modelParamHeader rule) = true) :
    findModel rule f.boundary f.body ≠ none := by
  have hexists : ∃ j, Strings.contains (f.sections.getD j []) (modelParamHeader rule) = true :=
    ⟨m, by rw [sections_getD hm]; exact h⟩
  have hle : Nat.find hexists ≤ m := Nat.find_min' hexists (by rw [sections_getD hm]; exact h)
  have hspec := Nat.find_spec hexists
  have hmin (i : ℕ) (hi : i < Nat.find hexists) :
      Strings.contains (f.sections.getD i []) (modelParamHeader rule) = false := by
    simpa using Nat.find_min hexists hi
  generalize Nat.find hexists = j at *
  have hj : j < f.parts.length := by omega
  have hbody : f.body = f.shown f.parts.length (dashes ++ f.epilogue) := by
    rw [shown, List.take_of_length_le (by simp)]
    rfl
  have hvalue := findValue_text (f.header_isBlock _ (List.getElem_mem hj))
  rw [← sections_getD hj] at hvalue
  have hlast : dashes ++ f.epilogue <+: f.reach f.parts.length := by
    simp only [reach_last, List.prefix_refl]
  rw [hbody, findModel_shown le_rfl hlast, take_eq_of_lt hj le_rfl, List.append_assoc,
    findIn_before hj.le hmin, List.cons_append, findIn, if_pos hspec, hvalue]
  exact Option.some_ne_none _

end Form

end Prefixes

/-! ### Runs -/

section Runs

variable {rule : ModelRouterConfigRule} {boundary : GoString}

theorem rewrite_append {t value : GoString} {pos : ℕ} (h : pos + value.length ≤ t.length)
    (rest : GoString) : rewrite rule t pos value ++ rest = rewrite rule (t ++ rest) pos value := by
  rw [rewrite, rewrite]
  split
  · rw [List.take_append_of_le_length (by omega), List.drop_append_of_le_length h]
    simp only [List.append_assoc]
  · rfl

/-- The value at a place, written out. -/
theorem rewrite_eq (a value r : GoString) :
    rewrite rule (a ++ (value ++ r)) a.length value =
      if rewrites rule value then a ++ (modelOf value ++ r) else a ++ (value ++ r) := by
  rw [rewrite, List.take_left, ← List.drop_drop, List.drop_left, List.drop_left]

theorem run_bypass {s : Stream} (h : s.bypass = true) (trailers : Bool) (chunks : List GoString) :
    run rule boundary trailers s chunks = { s with sent := s.sent ++ chunks.flatten } := by
  induction chunks generalizing s with
  | nil => simp [run]
  | cons chunk chunks ih =>
      have hstep (e : Bool) :
          onRequestBody rule boundary s chunk e = { s with sent := s.sent ++ chunk } := by
        rw [onRequestBody, if_pos h]
      rw [run, hstep, ih (by exact h)]
      simp

/-- The chunk with which the model is found decides what is set; the chunks behind it go on as they
are. -/
theorem run_of_found {t chunk value : GoString} {pos : ℕ}
    (h : findModel rule boundary (t ++ chunk) = some (pos, value)) (trailers : Bool)
    (chunks : List GoString) :
    run rule boundary trailers { held := t } (chunk :: chunks) =
      { routed := routingHeaders rule value, bypass := true, held := []
        sent := rewrite rule (t ++ chunk) pos value ++ chunks.flatten } := by
  have hstep (e : Bool) : onRequestBody rule boundary { held := t } chunk e =
      { routed := routingHeaders rule value, bypass := true, held := []
        sent := rewrite rule (t ++ chunk) pos value } := by
    simp [onRequestBody, h]
  rw [run, hstep, run_bypass rfl]

/-- A run finds the model in some beginning of the body, or has not found it in all of it. -/
theorem run_cases (trailers : Bool) (t : GoString) (chunks : List GoString) :
    (∃ u rest pos value, u ++ rest = t ++ chunks.flatten ∧
      findModel rule boundary u = some (pos, value) ∧
        run rule boundary trailers { held := t } chunks =
          { routed := routingHeaders rule value, bypass := true, held := []
            sent := rewrite rule u pos value ++ rest }) ∨
    (chunks ≠ [] → findModel rule boundary (t ++ chunks.flatten) = none) ∧
      (run rule boundary trailers { held := t } chunks).routed = [] ∧
      (run rule boundary trailers { held := t } chunks).sent ++
        (run rule boundary trailers { held := t } chunks).held = t ++ chunks.flatten := by
  induction chunks generalizing t with
  | nil => right; simp [run]
  | cons chunk chunks ih =>
      cases hfind : findModel rule boundary (t ++ chunk) with
      | some found =>
          left
          exact ⟨t ++ chunk, chunks.flatten, found.1, found.2, by simp, hfind, run_of_found hfind _ _⟩
      | none =>
          cases chunks with
          | nil =>
              right
              cases trailers <;> simp [run, onRequestBody, hfind]
          | cons chunk' chunks =>
              have hstep : onRequestBody rule boundary { held := t } chunk
                  ((chunk' :: chunks).isEmpty && !trailers) = { held := t ++ chunk } := by
                simp [onRequestBody, hfind]
              rw [run, hstep, List.flatten_cons, ← List.append_assoc]
              simpa using ih (t ++ chunk)

end Runs

/-! ### The named part -/

section Named

variable {rule : ModelRouterConfigRule} {f : Form}

/-- The first part whose header block names the key; all parts where there is none. -/
def Form.named (f : Form) (rule : ModelRouterConfigRule) : ℕ :=
  f.parts.findIdx fun p => decide (p.Names rule)

theorem Form.named_le : f.named rule ≤ f.parts.length := List.findIdx_le_length

theorem routeParts_of_none {parts : List Part} (h : ∀ p ∈ parts, ¬ p.Names rule) :
    routeParts rule parts = none := by
  induction parts with
  | nil => rfl
  | cons p parts ih =>
      rw [routeParts, if_neg (h p (by simp)), ih fun q hq => h q (by simp [hq])]
      rfl

theorem routeParts_append {before : List Part} {p : Part} (hbefore : ∀ q ∈ before, ¬ q.Names rule)
    (hp : p.Names rule) (after : List Part) :
    routeParts rule (before ++ p :: after) = some (p.value, before ++ p.rewritten rule :: after) := by
  induction before with
  | nil => rw [List.nil_append, routeParts, if_pos hp, List.nil_append]
  | cons q before ih =>
      rw [List.cons_append, routeParts, if_neg (hbefore q (by simp)), ih fun q hq => hbefore q (by simp [hq])]
      rfl

theorem Part.value_prefix (p : Part) : p.value <+: p.content := by
  rw [Part.value]
  split
  · exact List.take_prefix _ _
  · exact List.prefix_refl _

theorem Part.contains_of_names {p : Part} (h : p.Names rule) :
    Strings.contains p.text (modelParamHeader rule) = true := by
  obtain ⟨a, b, hab⟩ := (contains_iff_isInfix _ _).mp h
  refine (contains_iff_isInfix _ _).mpr
    ⟨crlf ++ a, b ++ (crlfCrlf ++ (p.content ++ (crlf ++ dashes))), ?_⟩
  rw [Part.text, ← hab]
  simp only [List.append_assoc]

/-- Changing the value of a part changes the body at the place of this value. -/
theorem formBody_rewritten (boundary preamble epilogue : GoString) (before after : List Part)
    (p : Part) :
    formBody boundary preamble (before ++ p.rewritten rule :: after) epilogue =
      rewrite rule (formBody boundary preamble (before ++ p :: after) epilogue)
        ((sealBlocks boundary ((preamble ++ dashes) :: before.map Part.text)).length +
          ((crlf ++ p.header).length + 4)) p.value := by
  obtain ⟨line, hline⟩ := p.value_prefix
  have hbody (q : Part) : formBody boundary preamble (before ++ q :: after) epilogue =
      (sealBlocks boundary ((preamble ++ dashes) :: before.map Part.text) ++
        (crlf ++ q.header ++ crlfCrlf)) ++
        (q.content ++ (crlf ++ dashes ++ boundary ++ sealBlocks boundary (after.map Part.text) ++
          (dashes ++ epilogue))) := by
    rw [formBody, List.map_append, List.map_cons, ← List.cons_append, sealBlocks_append,
      sealBlocks_cons q.text]
    simp only [Part.text, List.append_assoc]
  have hlen : (sealBlocks boundary ((preamble ++ dashes) :: before.map Part.text)).length +
      ((crlf ++ p.header).length + 4) = (sealBlocks boundary ((preamble ++ dashes) :: before.map Part.text) ++
        (crlf ++ p.header ++ crlfCrlf)).length := by
    simp only [List.length_append, crlfCrlf, List.length_cons, List.length_nil, Nat.add_assoc]
  rw [hbody p, hlen, ← hline, List.append_assoc p.value line, rewrite_eq, Part.rewritten]
  split
  · rw [hbody, ← hline, List.drop_left]
    simp only [List.append_assoc]
  · rw [hbody, ← hline, List.append_assoc p.value line]

theorem Form.names_named (h : f.named rule < f.parts.length) : (f.parts[f.named rule]).Names rule :=
  of_decide_eq_true (@List.findIdx_getElem Part (fun p => decide (p.Names rule)) f.parts h)

/-- What the model field stands for, by the place of its value. -/
theorem Form.route_of_lt (h : f.named rule < f.parts.length) :
    f.route rule = (routingHeaders rule (f.parts[f.named rule]).value,
      rewrite rule f.body (f.offset (f.named rule) + ((crlf ++ (f.parts[f.named rule]).header).length + 4))
        (f.parts[f.named rule]).value) := by
  have hnames := names_named h
  have hbefore : ∀ q ∈ f.parts.take (f.named rule), ¬ q.Names rule := by
    intro q hq
    obtain ⟨i, hi, rfl⟩ := List.getElem_of_mem hq
    rw [List.length_take] at hi
    rw [List.getElem_take]
    simpa using @List.not_of_lt_findIdx Part (fun p => decide (p.Names rule)) f.parts i (by
      change i < f.named rule
      omega)
  have hparts : f.parts = f.parts.take (f.named rule) ++
      f.parts[f.named rule] :: f.parts.drop (f.named rule + 1) := by
    rw [← List.drop_eq_getElem_cons h, List.take_append_drop]
  generalize f.parts[f.named rule] = p at *
  have hroute := routeParts_append hbefore hnames (f.parts.drop (f.named rule + 1))
  rw [← hparts] at hroute
  simp only [Form.route, hroute, formBody_rewritten, ← hparts, offset, List.map_take]
  rfl

theorem Form.route_of_eq (h : f.named rule = f.parts.length) : f.route rule = ([], f.body) := by
  have hnone : ∀ p ∈ f.parts, ¬ p.Names rule := by
    simpa [named, List.findIdx_eq_length] using h
  simp only [Form.route, routeParts_of_none hnone]

theorem length_modelOf_lt {value : GoString} (h : rewrites rule value = true) :
    (modelOf value).length < value.length := by
  have hslash : (47 : UInt8) ∈ value := by
    simp only [rewrites, Bool.and_eq_true, decide_eq_true_eq] at h
    exact h.2
  obtain ⟨hnot, hvalue⟩ := cutByte_spec 47 value
  rw [modelOf]
  cases hcut : (cutByte 47 value).2 with
  | none =>
      rw [hcut, Option.map_none, Option.getD_none, List.append_nil] at hvalue
      rw [← hvalue] at hnot
      exact absurd hslash hnot
  | some model =>
      rw [hcut] at hvalue
      rw [hvalue]
      simp only [Option.map_some, Option.getD_some, List.length_append, List.length_cons]
      omega

/-- A line without its provider is another line. -/
theorem modelOf_ne {value : GoString} (h : rewrites rule value = true) (hline : IsBlock crlf value)
    (r r' : GoString) : modelOf value ++ (crlf ++ r) ≠ value ++ (crlf ++ r') := by
  intro heq
  have hindex := Strings.index_append hline r'
  have hprefix : crlf <+: (value ++ crlf ++ r').drop (modelOf value).length := by
    rw [List.append_assoc, ← heq, List.drop_left]
    exact List.prefix_append _ _
  have hle := index_le_of_prefix hindex hprefix
  have hlt := length_modelOf_lt h
  omega

theorem rewrites_eq_of_routingHeaders {value value' : GoString}
    (h : routingHeaders rule value = routingHeaders rule value') :
    rewrites rule value = rewrites rule value' := by
  have hlen := congrArg List.length h
  simp only [routingHeaders, List.length_append] at hlen
  cases hvalue : rewrites rule value <;> cases hvalue' : rewrites rule value' <;>
    simp [hvalue, hvalue'] at hlen ⊢ <;> split at hlen <;> simp at hlen

theorem routingHeaders_eq_iff {value value' : GoString} (h : rewrites rule value = false)
    (h' : rewrites rule value' = false) : routingHeaders rule value = routingHeaders rule value' ↔
      rule.modelToHeader = [] ∨ value = value' := by
  simp only [routingHeaders, h, h', Bool.false_eq_true, if_false, List.append_nil]
  split
  · simp [*]
  · simp [*]

theorem routingHeaders_eq_nil_iff {value : GoString} : routingHeaders rule value = [] ↔
    rule.modelToHeader = [] ∧ rewrites rule value = false := by
  rw [routingHeaders, List.append_eq_nil_iff]
  refine and_congr ?_ ?_
  · split <;> simp [*]
  · split <;> simp [*]

/-- A value that is found stands in the body with a line break behind it. -/
theorem Form.exists_body {k start : ℕ} {value : GoString} (hk : k ≤ f.parts.length)
    (h : findValue (f.sections.getD k []) = some (start, value)) :
    ∃ a r, f.body = a ++ (value ++ (crlf ++ r)) ∧ a.length = f.offset k + start := by
  obtain ⟨hlen, hvalue, hindex⟩ := findValue_spec h
  obtain ⟨r, hr⟩ := hvalue
  have hcrlf := prefix_drop_of_index hindex
  rw [← hr, List.drop_left] at hcrlf
  obtain ⟨r', rfl⟩ := hcrlf
  obtain ⟨u, hu⟩ := section_prefix_reach (f := f) k
  obtain ⟨w, hw⟩ := shown_reach_isPrefix hk
  refine ⟨f.shown k ((f.sections.getD k []).take start), r' ++ (u ++ w), ?_, ?_⟩
  · have hsection := List.take_append_drop start (f.sections.getD k [])
    rw [← hw, ← hu, shown, shown]
    conv_lhs => rw [← hsection, ← hr]
    simp only [List.append_assoc]
  · rw [length_shown, List.length_take]
    omega

/-- Cutting the provider in one section is not cutting it in a later one: the line break behind the
first value would be met too early. -/
theorem Form.rewrite_ne_of_lt {k m start start' : ℕ} {value value' : GoString} (hk : k < m)
    (hm : m ≤ f.parts.length) (h : findValue (f.sections.getD k []) = some (start, value))
    (h' : findValue (f.sections.getD m []) = some (start', value'))
    (hvalue : rewrites rule value = true) (hvalue' : rewrites rule value' = true) :
    rewrite rule f.body (f.offset k + start) value ≠
      rewrite rule f.body (f.offset m + start') value' := by
  intro hbody
  obtain ⟨a, r, ha, halen⟩ := exists_body (hk.le.trans hm) h
  obtain ⟨b, r', hb, hblen⟩ := exists_body hm h'
  have hprefix : a ++ (value ++ crlf) <+: b := by
    have ha' : a ++ (value ++ crlf) <+: f.body := by
      rw [ha]
      exact ⟨r, by simp only [List.append_assoc]⟩
    have hb' : b <+: f.body := by
      rw [hb]
      exact List.prefix_append _ _
    apply List.prefix_of_prefix_length_le ha' hb'
    have hoffset := offset_add_le hk hm
    have hspec := (findValue_spec h).1
    have hcrlf : crlf.length = 2 := rfl
    simp only [List.length_append]
    omega
  obtain ⟨c, rfl⟩ := hprefix
  have hleft : rewrite rule f.body a.length value = a ++ (modelOf value ++ (crlf ++ r)) := by
    rw [ha, rewrite_eq, if_pos hvalue]
  rw [← halen, ← hblen, hleft, hb, rewrite_eq, if_pos hvalue'] at hbody
  simp only [List.append_assoc] at hbody
  exact modelOf_ne hvalue (isBlock_of_findValue h) _ _ (List.append_cancel_left hbody)

/-- Taking a section does no harm: it is the part that is named first, or no body is changed and no
other model is told. -/
def Form.Harmless (f : Form) (rule : ModelRouterConfigRule) (k : ℕ) (value : GoString) : Prop :=
  k < f.parts.length ∧ k = f.named rule ∨
    rewrites rule value = false ∧
      (∀ p, f.parts[f.named rule]? = some p → rewrites rule p.value = false) ∧
      (rule.modelToHeader = [] ∨ ∃ p, f.parts[f.named rule]? = some p ∧ value = p.value)

theorem Form.Takes.le_named {k start : ℕ} {value : GoString} (h : f.Takes rule k start value)
    (hnamed : f.named rule < f.parts.length) : k ≤ f.named rule := by
  by_contra hlt
  have hbefore := h.before (f.named rule) (by omega)
  rw [sections_getD hnamed, Part.contains_of_names (names_named hnamed)] at hbefore
  cases hbefore

/-- What the code does when it takes a section is what the model field stands for where this does no
harm, and only there. -/
theorem Form.Takes.eq_route_iff {k start : ℕ} {value : GoString} (h : f.Takes rule k start value) :
    (routingHeaders rule value, rewrite rule f.body (f.offset k + start) value) = f.route rule ↔
      f.Harmless rule k value := by
  rcases Nat.lt_or_eq_of_le (@named_le rule f) with hlt | heq
  · have hle := h.le_named hlt
    have htext := findValue_text (f.header_isBlock _ (List.getElem_mem hlt))
    rw [← sections_getD hlt] at htext
    rw [route_of_lt hlt, Harmless, List.getElem?_eq_getElem hlt]
    simp only [Option.some.injEq, forall_eq', exists_eq_left']
    generalize hp : f.parts[f.named rule] = p at *
    rcases hle.eq_or_lt with rfl | hk
    · obtain ⟨rfl, rfl⟩ := Prod.mk.inj (Option.some.inj (h.found.symm.trans htext))
      simp [hlt]
    · have hne : ¬ (k < f.parts.length ∧ k = f.named rule) := by omega
      simp only [hne, false_or]
      constructor
      · intro heq
        obtain ⟨hheaders, hbody⟩ := Prod.mk.inj heq
        have hsame := rewrites_eq_of_routingHeaders hheaders
        cases hvalue : rewrites rule value with
        | false =>
            rw [hvalue] at hsame
            exact ⟨rfl, hsame.symm, (routingHeaders_eq_iff hvalue hsame.symm).mp hheaders⟩
        | true =>
            rw [hvalue] at hsame
            exact absurd hbody (rewrite_ne_of_lt hk hlt.le h.found htext hvalue hsame.symm)
      · rintro ⟨hvalue, hvalue', hmodel⟩
        rw [(routingHeaders_eq_iff hvalue hvalue').mpr hmodel]
        simp [rewrite, hvalue, hvalue']
  · have hnone : f.parts[f.named rule]? = none := List.getElem?_eq_none heq.ge
    have hne : ¬ (k < f.parts.length ∧ k = f.named rule) := by omega
    rw [route_of_eq heq, Harmless, hnone]
    simp only [hne, false_or, reduceCtorEq, false_and, exists_false, or_false, false_implies,
      implies_true, true_and]
    constructor
    · intro heq
      have := routingHeaders_eq_nil_iff.mp (Prod.mk.inj heq).1
      exact ⟨this.2, this.1⟩
    · rintro ⟨hvalue, hmodel⟩
      rw [routingHeaders_eq_nil_iff.mpr ⟨hmodel, hvalue⟩]
      simp [rewrite, hvalue]

theorem Form.body_ne_nil : f.body ≠ [] := by
  intro h
  rw [body, formBody, sealBlocks_cons] at h
  simp [f.boundary_ne] at h

/-- A section that the code may take decides the outcome, when the body is cut behind it. -/
theorem Form.Takes.exists_chunks {k start : ℕ} {value : GoString} (h : f.Takes rule k start value) :
    ∃ chunks : List GoString, chunks.flatten = f.body ∧
      ∀ trailers, outcome rule f.boundary trailers chunks =
      (routingHeaders rule value, rewrite rule f.body (f.offset k + start) value) := by
  have hfind := findModel_of_takes h
  obtain ⟨-, -, -, -, hle⟩ := takes_of_findModel (shown_reach_isPrefix h.le) hfind
  obtain ⟨rest, hrest⟩ := shown_reach_isPrefix h.le
  refine ⟨[f.shown k (f.reach k), rest], by simpa using hrest, fun trailers => ?_⟩
  have hrun := run_of_found (t := []) (by rw [List.nil_append]; exact hfind) trailers [rest]
  simp only [outcome, hrun, List.nil_append, List.flatten_cons, List.flatten_nil, List.append_nil,
    rewrite_append hle, hrest]

/-- The model is read from its field, whatever the other parts hold and however the body is cut,
exactly where no section does harm that the code may take for it. -/
theorem outcome_eq_route_iff (f : Form) (rule : ModelRouterConfigRule) :
    (∀ trailers chunks, chunks.flatten = f.body →
      outcome rule f.boundary trailers chunks = f.route rule) ↔
    ∀ k start value, f.Takes rule k start value → f.Harmless rule k value := by
  constructor
  · intro hall k start value htakes
    obtain ⟨chunks, hflatten, houtcome⟩ := htakes.exists_chunks
    rw [← htakes.eq_route_iff, ← houtcome false]
    exact hall false chunks hflatten
  · intro hharmless trailers chunks hflatten
    have hchunks : chunks ≠ [] := by
      rintro rfl
      exact f.body_ne_nil hflatten.symm
    have hcases := @run_cases rule f.boundary trailers [] chunks
    rw [List.nil_append, hflatten] at hcases
    rcases hcases with ⟨u, rest, pos, value, hbody, hfind, hrun⟩ | ⟨hnone, hrouted, hsent⟩
    · obtain ⟨k, start, htakes, rfl, hle⟩ := Form.takes_of_findModel ⟨rest, hbody⟩ hfind
      rw [← htakes.eq_route_iff.mpr (hharmless k start value htakes)]
      simp only [outcome, hrun, List.append_nil, rewrite_append hle, hbody]
    · have hnamed : f.named rule = f.parts.length := by
        rcases Nat.lt_or_eq_of_le (@Form.named_le rule f) with hlt | heq
        · have hcontains := Part.contains_of_names (Form.names_named hlt)
          exact absurd (hnone hchunks) (Form.findModel_body_ne_none hlt hcontains)
        · exact heq
      rw [Form.route_of_eq hnamed]
      simp only [outcome, hrouted, hsent]

/-- A form with the header of the model field in its prompt. -/
def quotingForm : Form where
  boundary := bytes "xYz"
  preamble := []
  parts :=
    [⟨bytes "Content-Disposition: form-data; name=\"prompt\"",
      bytes "a/b\r\nContent-Disposition: form-data; name=\"model\""⟩,
    ⟨bytes "Content-Disposition: form-data; name=\"model\"", bytes "m"⟩]
  epilogue := []
  boundary_ne := by decide
  preamble_isBlock := by unfold IsBlock; decide
  parts_isBlock := by unfold IsBlock; decide +kernel
  epilogue_index := by decide
  header_isBlock := by unfold IsBlock; decide +kernel

/-- The first line of the prompt is told as the model. -/
theorem outcome_quotingForm : ¬ ∀ trailers chunks, chunks.flatten = quotingForm.body →
    outcome { modelToHeader := bytes "x-model" } quotingForm.boundary trailers chunks =
      quotingForm.route { modelToHeader := bytes "x-model" } := by
  intro h
  have := h false [quotingForm.body] (by simp)
  revert this
  decide +kernel

end Named

end Higress.WasmCpp.ModelRouter
