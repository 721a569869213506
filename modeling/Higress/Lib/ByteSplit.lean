import Mathlib
import Higress.Lib.Blocks

/-!
Texts that are cut at one byte: the parts between all of its occurrences, and the parts before and after
the first one.
-/

namespace Higress.Lib

variable {c : UInt8}

theorem isBlock_of_notMem {s : GoString} (h : c ∉ s) : IsBlock [c] s := by
  rw [IsBlock]
  induction s with
  | nil => simp [Strings.index]
  | cons b s ih =>
      simp only [List.mem_cons, not_or] at h
      rw [List.cons_append, Strings.index, if_neg (by simp [List.isPrefixOf, h.1]), ih h.2]
      simp

/-- Parts without the byte are found again in their join. -/
theorem split_join_byte {parts : List GoString} (h : ∀ part ∈ parts, c ∉ part) (hne : parts ≠ []) :
    split (Strings.join parts [c]) [c] = parts :=
  split_join (fun part hpart => isBlock_of_notMem (h part hpart)) (by simp) hne

theorem splitFrom_byte_ne_nil (s part : GoString) : splitFrom [c] 0 part s ≠ [] := by
  induction s generalizing part with
  | nil => simp [splitFrom]
  | cons b s ih =>
      rw [splitFrom]
      split
      · simp
      · exact ih _

theorem join_splitFrom_byte (s part : GoString) :
    Strings.join (splitFrom [c] 0 part s) [c] = part ++ s := by
  induction s generalizing part with
  | nil => simp [splitFrom, Strings.join]
  | cons b s ih =>
      rw [splitFrom]
      split
      · rename_i hb
        obtain rfl : c = b := by simpa [List.isPrefixOf] using hb
        obtain ⟨q, qs, hparts⟩ := List.exists_cons_of_ne_nil (@splitFrom_byte_ne_nil c s [])
        have hrest := ih []
        change Strings.join (part :: splitFrom [c] 0 [] s) [c] = _
        rw [hparts, Strings.join] at hrest ⊢
        rw [List.intercalate_cons_cons, hrest]
        simp
      · rw [ih]
        simp

theorem join_split_byte (s : GoString) : Strings.join (split s [c]) [c] = s :=
  join_splitFrom_byte s []

theorem notMem_of_mem_splitFrom {s part : GoString} (hpart : c ∉ part) :
    ∀ p ∈ splitFrom [c] 0 part s, c ∉ p := by
  induction s generalizing part with
  | nil => simpa [splitFrom] using hpart
  | cons b s ih =>
      rw [splitFrom]
      split
      · intro p hp
        rcases List.mem_cons.mp hp with rfl | hp
        · exact hpart
        · exact ih (by simp) p hp
      · rename_i hb
        refine ih ?_
        rw [List.mem_append, not_or]
        refine ⟨hpart, ?_⟩
        simpa [List.isPrefixOf] using hb

theorem notMem_of_mem_split {s p : GoString} (hp : p ∈ split s [c]) : c ∉ p :=
  notMem_of_mem_splitFrom (by simp) p hp

theorem split_byte_ne_nil (s : GoString) : split s [c] ≠ [] := splitFrom_byte_ne_nil s []

/-- A part with the byte that begins it, if it is there. -/
def afterByte (b : UInt8) (part : Option GoString) : GoString := (part.map (b :: ·)).getD []

theorem cutByte_append_afterByte {s : GoString} (h : c ∉ s) (part : Option GoString) :
    cutByte c (s ++ afterByte c part) = (s, part) := by
  induction s with
  | nil =>
      cases part with
      | none => rfl
      | some part => simp [afterByte, cutByte]
  | cons b s ih =>
      simp only [List.mem_cons, not_or] at h
      rw [List.cons_append, cutByte, if_neg (Ne.symm h.1), ih h.2]

theorem eq_append_afterByte (c : UInt8) (s : GoString) :
    s = (cutByte c s).1 ++ afterByte c (cutByte c s).2 := (cutByte_spec c s).2

end Higress.Lib
