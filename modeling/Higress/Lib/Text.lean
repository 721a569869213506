import Mathlib.Data.List.Lex
import Higress.Lib.GoString

/-!
More of what programs do to byte strings: splitting at a separator, trimming bytes off
the ends, and ASCII case. Byte strings are ordered by their bytes.
-/

namespace Higress.Lib

instance linearOrderUInt8 : LinearOrder UInt8 where
  le_refl := UInt8.le_refl
  le_trans _ _ _ := UInt8.le_trans
  le_antisymm _ _ := UInt8.le_antisymm
  le_total := UInt8.le_total
  lt_iff_le_not_ge a b := by
    rw [UInt8.lt_iff_toNat_lt, UInt8.le_iff_toNat_le, UInt8.le_iff_toNat_le]
    omega
  toDecidableLE := inferInstance
  toDecidableLT := inferInstance

/-! ### Splitting and trimming -/

/-- The rest of `s` split at `sep`, where `n` bytes of a separator are still to be passed
over and `part` has been read since the last one. -/
def splitFrom (sep : GoString) : ℕ → GoString → GoString → List GoString
  | _, part, [] => [part]
  | n + 1, part, _ :: s => splitFrom sep n part s
  | 0, part, b :: s =>
      if sep.isPrefixOf (b :: s) then part :: splitFrom sep (sep.length - 1) [] s
      else splitFrom sep 0 (part ++ [b]) s

/-- `strings.Split` at a separator that is not empty. -/
def split (s sep : GoString) : List GoString := splitFrom sep 0 [] s

/-- `strings.Trim` of one byte. -/
def trimByte (b : UInt8) (s : GoString) : GoString :=
  ((s.dropWhile (· == b)).reverse.dropWhile (· == b)).reverse

/-- What stands before the first `b`, and what stands after it if it is there. -/
def cutByte (b : UInt8) : GoString → GoString × Option GoString
  | [] => ([], none)
  | c :: s => if c = b then ([], some s) else
      let rest := cutByte b s
      (c :: rest.1, rest.2)

theorem cutByte_spec (b : UInt8) (s : GoString) :
    b ∉ (cutByte b s).1 ∧
      s = (cutByte b s).1 ++ ((cutByte b s).2.map fun rest => b :: rest).getD [] := by
  induction s with
  | nil => simp [cutByte]
  | cons c s ih =>
      rw [cutByte]
      split
      · rename_i hc
        simp [hc]
      · rename_i hc
        refine ⟨?_, ?_⟩
        · simpa using ⟨Ne.symm hc, ih.1⟩
        · simpa using ih.2

theorem subset_intercalate {sep l : GoString} {ls : List GoString} (h : l ∈ ls) :
    l ⊆ sep.intercalate ls := by
  induction ls with
  | nil => cases h
  | cons l' ls ih =>
      cases ls with
      | nil => simpa [List.intercalate_singleton] using List.mem_singleton.mp h ▸ List.Subset.refl _
      | cons l'' ls =>
          rw [List.intercalate_cons_cons]
          intro b hb
          rcases List.mem_cons.mp h with rfl | h
          · simp [hb]
          · simp [ih h hb]

/-- The parts of a text between separators have no byte that the text has not, and no
separator. -/
theorem mem_splitOn {sep : UInt8} {s part : GoString} (h : part ∈ s.splitOn sep) :
    part ⊆ s ∧ sep ∉ part := by
  refine ⟨?_, ?_⟩
  · have hsub : part ⊆ [sep].intercalate (s.splitOn sep) := subset_intercalate h
    rwa [List.intercalate_splitOn] at hsub
  · induction s generalizing part with
    | nil =>
        obtain rfl : part = [] := by simpa using h
        simp
    | cons b s ih =>
        rw [List.splitOn_cons_eq_if_modifyHead] at h
        split at h
        · rcases List.mem_cons.mp h with rfl | h
          · simp
          · exact ih h
        · rename_i hb
          cases hparts : s.splitOn sep with
          | nil => exact absurd hparts (List.splitOn_ne_nil _ _)
          | cons first rest =>
              rw [hparts] at h ih
              rw [List.modifyHead_cons, List.mem_cons] at h
              rcases h with rfl | h
              · simp only [List.mem_cons, not_or]
                exact ⟨fun hsep => hb (by simp [hsep]), ih (by simp)⟩
              · exact ih (by simp [h])

theorem mem_intercalate {sep : GoString} {ls : List GoString} {b : UInt8}
    (h : b ∈ sep.intercalate ls) : b ∈ sep ∨ ∃ l ∈ ls, b ∈ l := by
  induction ls with
  | nil => simp at h
  | cons l ls ih =>
      cases ls with
      | nil => exact .inr ⟨l, by simp, by simpa using h⟩
      | cons l' ls =>
          rw [List.intercalate_cons_cons, List.mem_append, List.mem_append] at h
          rcases h with (hl | hsep) | hrest
          · exact .inr ⟨l, by simp, hl⟩
          · exact .inl hsep
          · exact (ih hrest).imp_right fun ⟨l₀, hl₀, hb⟩ => ⟨l₀, by simp [hl₀], hb⟩

/-- Two texts that agree from their last separator on. -/
theorem append_cons_inj_of_notMem_right {α : Type*} {x : α} {p q r s : List α} (hr : x ∉ r)
    (hs : x ∉ s) (h : p ++ x :: r = q ++ x :: s) : p = q ∧ r = s := by
  have hrev : r.reverse ++ x :: p.reverse = s.reverse ++ x :: q.reverse := by
    simpa using congrArg List.reverse h
  obtain ⟨hrs, hpq⟩ := append_cons_inj_of_notMem (by simpa using hr) (by simpa using hs) hrev
  exact ⟨List.reverse_inj.mp hpq, List.reverse_inj.mp hrs⟩

theorem contains_iff_isInfix (s sub : GoString) : Strings.contains s sub = true ↔ sub <:+: s := by
  rw [Strings.contains]
  induction s with
  | nil =>
      rw [Strings.index]
      cases sub <;> simp
  | cons b s ih =>
      rw [Strings.index, List.infix_cons_iff]
      split
      · rename_i hstart
        simpa using .inl (List.isPrefixOf_iff_prefix.mp hstart)
      · rename_i hstart
        rw [← List.isPrefixOf_iff_prefix]
        simpa [hstart] using ih

/-! ### Lines -/

/-- Lines, each with its end. -/
def unlines (lines : List GoString) : GoString := lines.flatMap (· ++ [10])

/-- Joined lines, with the end of the last one. -/
theorem join_append_break (l : GoString) (ls : List GoString) :
    Strings.join (l :: ls) [10] ++ [10] = unlines (l :: ls) := by
  induction ls generalizing l with
  | nil => simp [Strings.join, unlines]
  | cons l' ls ih =>
      have hnext := ih l'
      rw [Strings.join] at hnext ⊢
      rw [List.intercalate_cons_cons, List.append_assoc, hnext]
      simp [unlines]

/-- Lines can be read back, if it is known how many there are or no line ends after them. -/
theorem unlines_append_inj {ls ls' : List GoString} (hls : ∀ l ∈ ls, 10 ∉ l)
    (hls' : ∀ l ∈ ls', 10 ∉ l) {t t' : GoString} (h : unlines ls ++ t = unlines ls' ++ t')
    (hend : ls.length = ls'.length ∨ (10 ∉ t ∧ 10 ∉ t')) : ls = ls' ∧ t = t' := by
  induction ls generalizing ls' with
  | nil =>
      cases ls' with
      | nil => exact ⟨rfl, by simpa [unlines] using h⟩
      | cons l' ls' =>
          exfalso
          rcases hend with hlen | ⟨ht, -⟩
          · simp at hlen
          · have ht' : t = unlines (l' :: ls') ++ t' := by simpa [unlines] using h
            exact ht (by simp [ht', unlines])
  | cons l ls ih =>
      cases ls' with
      | nil =>
          exfalso
          rcases hend with hlen | ⟨-, ht'⟩
          · simp at hlen
          · have ht : t' = unlines (l :: ls) ++ t := by simpa [unlines] using h.symm
            exact ht' (by simp [ht, unlines])
      | cons l' ls' =>
          have hcut : l ++ 10 :: (unlines ls ++ t) = l' ++ 10 :: (unlines ls' ++ t') := by
            simpa [unlines] using h
          obtain ⟨rfl, hrest⟩ :=
            append_cons_inj_of_notMem (hls l (by simp)) (hls' l' (by simp)) hcut
          obtain ⟨rfl, ht⟩ := ih (fun l hl => hls l (by simp [hl])) (fun l hl => hls' l (by simp [hl]))
            hrest (hend.imp_left fun hlen => by simpa using hlen)
          exact ⟨rfl, ht⟩

/-- A table of texts is an injective function if its values differ from each other and from the
marked texts, which stand for the texts that the table does not have. -/
theorem tabulated_injective {table : List (GoString × GoString)}
    (hvalues : ∀ p ∈ table, ∀ q ∈ table, p.2 = q.2 → p.1 = q.1)
    (hmarked : ∀ p ∈ table, p.2.head? ≠ some 0) :
    Function.Injective fun s => (table.lookup s).getD (0 :: s) := by
  have hmem {k v : GoString} (h : table.lookup k = some v) : (k, v) ∈ table := by
    obtain ⟨before, after, rfl, -⟩ := List.lookup_eq_some_iff.mp h
    simp
  intro a b hab
  dsimp only at hab
  cases ha : table.lookup a with
  | none =>
      cases hb : table.lookup b with
      | none => simpa [ha, hb] using hab
      | some v =>
          rw [ha, hb, Option.getD_none, Option.getD_some] at hab
          exact absurd (by simp [← hab]) (hmarked _ (hmem hb))
  | some v =>
      cases hb : table.lookup b with
      | none =>
          rw [ha, hb, Option.getD_none, Option.getD_some] at hab
          exact absurd (by simp [hab]) (hmarked _ (hmem ha))
      | some w =>
          rw [ha, hb, Option.getD_some, Option.getD_some] at hab
          exact hvalues _ (hmem ha) _ (hmem hb) hab

/-! ### Case -/

/-- `absl::ascii_tolower`. -/
def lowerByte (b : UInt8) : UInt8 := if 65 ≤ b && b ≤ 90 then b + 32 else b

/-- `absl::ascii_toupper`. -/
def upperByte (b : UInt8) : UInt8 := if 97 ≤ b && b ≤ 122 then b - 32 else b

/-- `absl::AsciiStrToLower`. -/
def lower (s : GoString) : GoString := s.map lowerByte

theorem lowerByte_lowerByte (b : UInt8) : lowerByte (lowerByte b) = lowerByte b := by
  have hadd : 65 ≤ b.toNat → b.toNat ≤ 90 → (b + 32).toNat = b.toNat + 32 := by
    intro hlow hhigh
    rw [UInt8.toNat_add]
    simp only [UInt8.reduceToNat]
    omega
  rw [lowerByte, lowerByte]
  simp only [Bool.and_eq_true, decide_eq_true_eq, UInt8.le_iff_toNat_le, UInt8.reduceToNat]
  split
  · rename_i h
    rw [hadd h.1 h.2, if_neg (by omega)]
  · rfl

theorem lowerByte_lt {b : UInt8} (h : lowerByte b < 0x80) : b < 0x80 := by
  rw [lowerByte] at h
  split at h
  · rename_i hupper
    simp only [Bool.and_eq_true, decide_eq_true_eq] at hupper
    exact lt_of_le_of_lt hupper.2 (by decide)
  · exact h

theorem mem_of_mem_lower {b : UInt8} (hb : b < 97) {s : GoString} (h : b ∈ lower s) : b ∈ s := by
  obtain ⟨c, hc, hlow⟩ := List.mem_map.mp h
  rw [lowerByte] at hlow
  split at hlow
  · rename_i hupper
    exfalso
    simp only [Bool.and_eq_true, decide_eq_true_eq, UInt8.le_iff_toNat_le, UInt8.reduceToNat] at hupper
    rw [← hlow, UInt8.lt_iff_toNat_lt, UInt8.toNat_add] at hb
    simp only [UInt8.reduceToNat] at hb
    omega
  · exact hlow ▸ hc

@[simp] theorem lower_lower (s : GoString) : lower (lower s) = lower s := by
  simp [lower, Function.comp_def, lowerByte_lowerByte]

end Higress.Lib
