import Mathlib.Data.List.Basic

/-!
Go strings and the part of Go's `strings` package that the modelled code
calls. A Go string is a sequence of bytes, not of code points: `len` counts
bytes and slicing cuts between bytes, so the carrier is a list of bytes.
-/

namespace Higress.Lib

/-- A Go `string`. -/
abbrev GoString := List UInt8

instance : LawfulBEq GoString := inferInstance

/-- The bytes of a literal of the source. -/
def bytes (s : String) : GoString := s.toUTF8.data.toList

/-- The value of a hexadecimal digit. -/
def hexValue (b : UInt8) : Option ℕ :=
  if 48 ≤ b ∧ b ≤ 57 then some (b.toNat - 48)
  else if 97 ≤ b ∧ b ≤ 102 then some (b.toNat - 87)
  else if 65 ≤ b ∧ b ≤ 70 then some (b.toNat - 55)
  else none

namespace Strings

/-- `strings.Index`, the offset of the first occurrence. -/
def index (s sub : GoString) : Option ℕ :=
  if sub.isPrefixOf s then some 0
  else match s with
    | [] => none
    | _ :: s => (index s sub).map (· + 1)

/-- `strings.Contains`. -/
def contains (s sub : GoString) : Bool := (index s sub).isSome

/-- `strings.Replace` with a limit of one. -/
def replaceFirst (s old new : GoString) : GoString :=
  match index s old with
  | none => s
  | some i => s.take i ++ new ++ s.drop (i + old.length)

/-- `strings.HasPrefix`. -/
def startsWith (s p : GoString) : Bool := p.isPrefixOf s

/-- `strings.TrimSuffix`: one occurrence of the suffix is removed. -/
def trimSuffix (s p : GoString) : GoString :=
  if p.isSuffixOf s then s.take (s.length - p.length) else s

/-- `strings.ContainsAny` for a set of single-byte characters. -/
def containsAny (s chars : GoString) : Bool := s.any fun c => chars.contains c

/-- `strings.Join`. -/
def join (parts : List GoString) (sep : GoString) : GoString := sep.intercalate parts

/-- The UTF-8 encodings of the code points for which `unicode.IsSpace` holds. -/
def spaces : List GoString :=
  [[9], [10], [11], [12], [13], [32], [0xC2, 0x85], [0xC2, 0xA0], [0xE1, 0x9A, 0x80],
    [0xE2, 0x80, 0x80], [0xE2, 0x80, 0x81], [0xE2, 0x80, 0x82], [0xE2, 0x80, 0x83],
    [0xE2, 0x80, 0x84], [0xE2, 0x80, 0x85], [0xE2, 0x80, 0x86], [0xE2, 0x80, 0x87],
    [0xE2, 0x80, 0x88], [0xE2, 0x80, 0x89], [0xE2, 0x80, 0x8A], [0xE2, 0x80, 0xA8],
    [0xE2, 0x80, 0xA9], [0xE2, 0x80, 0xAF], [0xE2, 0x81, 0x9F], [0xE3, 0x80, 0x80]]

/-- Drops words of `ws` from the front of `s`, at most `n` of them. -/
def trimWords (ws : List GoString) : ℕ → GoString → GoString
  | 0, s => s
  | n + 1, s => match ws.find? fun w => w.isPrefixOf s with
    | none => s
    | some w => trimWords ws n (s.drop w.length)

/-- `strings.TrimSpace`. A code point is at least one byte long, so as many
words as there are bytes are enough. -/
def trimSpace (s : GoString) : GoString :=
  let left := trimWords spaces s.length s
  (trimWords (spaces.map List.reverse) left.length left.reverse).reverse

/-- A decidable fact about the bytes of a string, one byte after the other. -/
theorem forall_mem_of_all {p : UInt8 → Prop} [DecidablePred p] {s : GoString}
    (h : (s.all fun b => decide (p b)) = true) : ∀ b ∈ s, p b :=
  fun b hb => of_decide_eq_true (List.all_eq_true.mp h b hb)

theorem length_le_of_index {s sub : GoString} {i : ℕ} (h : index s sub = some i) :
    i + sub.length ≤ s.length := by
  induction s generalizing i with
  | nil =>
      rw [index] at h
      split at h
      · rename_i hp
        obtain rfl : 0 = i := by simpa using h
        simpa using (List.isPrefixOf_iff_prefix.mp hp).length_le
      · simp at h
  | cons b s ih =>
      rw [index] at h
      split at h
      · rename_i hp
        obtain rfl : 0 = i := by simpa using h
        simpa using (List.isPrefixOf_iff_prefix.mp hp).length_le
      · obtain ⟨j, hj, rfl⟩ := Option.map_eq_some_iff.mp h
        have := ih hj
        simp only [List.length_cons]
        omega

/-- An occurrence is found whatever follows it. -/
theorem index_append {s sub : GoString} {i : ℕ} (h : index s sub = some i) (t : GoString) :
    index (s ++ t) sub = some i := by
  have hlen := length_le_of_index h
  induction s generalizing i with
  | nil =>
      rw [index] at h
      split at h
      · rename_i hp
        obtain rfl : 0 = i := by simpa using h
        obtain rfl : sub = [] := List.prefix_nil.mp (List.isPrefixOf_iff_prefix.mp hp)
        rw [index.eq_def]
        simp
      · simp at h
  | cons b s ih =>
      have hsame : sub.isPrefixOf (b :: s ++ t) = sub.isPrefixOf (b :: s) := by
        rw [Bool.eq_iff_iff, List.isPrefixOf_iff_prefix, List.isPrefixOf_iff_prefix]
        exact ⟨fun hp => List.prefix_of_prefix_length_le hp (List.prefix_append _ _) (by omega),
          fun hp => hp.trans (List.prefix_append _ _)⟩
      rw [index] at h
      rw [index.eq_def, hsame]
      split at h
      · rename_i hp
        rw [if_pos hp]
        exact h
      · rename_i hp
        obtain ⟨j, hj, rfl⟩ := Option.map_eq_some_iff.mp h
        simp only [List.length_cons] at hlen
        rw [if_neg hp]
        simp [ih hj (by omega)]

end Strings

/-- Two texts that agree up to their first separator. -/
theorem append_cons_inj_of_notMem {α : Type*} {x : α} {p q r s : List α} (hp : x ∉ p)
    (hq : x ∉ q) (h : p ++ x :: r = q ++ x :: s) : p = q ∧ r = s := by
  induction p generalizing q with
  | nil =>
      cases q with
      | nil => simpa using h
      | cons b q =>
          simp only [List.nil_append, List.cons_append, List.cons.injEq] at h
          simp [h.1] at hq
  | cons a p ih =>
      cases q with
      | nil =>
          simp only [List.nil_append, List.cons_append, List.cons.injEq] at h
          simp [h.1] at hp
      | cons b q =>
          simp only [List.cons_append, List.cons.injEq] at h
          simp only [List.mem_cons, not_or] at hp hq
          obtain ⟨hpq, hrs⟩ := ih hp.2 hq.2 h.2
          exact ⟨by rw [h.1, hpq], hrs⟩

end Higress.Lib
