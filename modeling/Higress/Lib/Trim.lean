import Higress.Lib.Text

/-!
What is left of a text when the space around it is dropped. A byte that can be seen is in
no space, so nothing is dropped beyond it.
-/

namespace Higress.Lib.Strings

/-- A character of ASCII that is neither a space nor a control character. -/
def Visible (b : UInt8) : Prop := 33 ≤ b ∧ b ≤ 126

instance (b : UInt8) : Decidable (Visible b) := inferInstanceAs (Decidable (_ ∧ _))

/-- Words that can be dropped up to a visible byte: a line break is dropped alone. -/
structure IsSpaces (ws : List GoString) : Prop where
  invisible : ∀ w ∈ ws, w ≠ [] ∧ ∀ b ∈ w, ¬ Visible b
  lineBreak : [10] ∈ ws
  starts : ∀ w ∈ ws, w.head? = some 10 → w = [10]

theorem isSpaces_spaces : IsSpaces spaces where
  invisible := by simp [spaces, Visible]
  lineBreak := by simp [spaces]
  starts := by simp [spaces]

theorem isSpaces_reverse : IsSpaces (spaces.map List.reverse) where
  invisible := by simp [spaces, Visible]
  lineBreak := by simp [spaces]
  starts := by simp [spaces]

/-- Only the tests of the elements matter to `find?`. -/
theorem find?_congr {α : Type*} {p q : α → Bool} {l : List α} (h : ∀ a ∈ l, p a = q a) :
    l.find? p = l.find? q := by
  induction l with
  | nil => rfl
  | cons a l ih =>
      rw [List.find?_cons, List.find?_cons, h a (by simp), ih fun a' ha' => h a' (by simp [ha'])]

section Words

variable {ws : List GoString} (h : IsSpaces ws) {b : UInt8} (hb : Visible b)

include h hb

theorem find?_eq_none_of_visible (s : GoString) :
    (ws.find? fun w => w.isPrefixOf (b :: s)) = none := by
  rw [List.find?_eq_none]
  intro w hw hstart
  obtain ⟨hne, hinvisible⟩ := h.invisible w hw
  cases w with
  | nil => exact hne rfl
  | cons c w =>
      obtain ⟨t, ht⟩ := List.isPrefixOf_iff_prefix.mp hstart
      obtain ⟨rfl, -⟩ := List.cons.inj ht
      exact hinvisible c (by simp) hb

theorem trimWords_of_visible (n : ℕ) (s : GoString) : trimWords ws n (b :: s) = b :: s := by
  cases n with
  | zero => rfl
  | succ n => rw [trimWords, find?_eq_none_of_visible h hb]

omit hb in
theorem find?_lineBreak (s : GoString) :
    (ws.find? fun w => w.isPrefixOf (10 :: s)) = some [10] := by
  cases hfind : ws.find? fun w => w.isPrefixOf (10 :: s) with
  | none =>
      have := List.find?_eq_none.mp hfind [10] h.lineBreak
      simp [List.isPrefixOf] at this
  | some w =>
      have hw := List.mem_of_find?_eq_some hfind
      have hstart : w.isPrefixOf (10 :: s) = true := by simpa using List.find?_some hfind
      obtain ⟨t, ht⟩ := List.isPrefixOf_iff_prefix.mp hstart
      have hstarts := h.starts w hw
      cases w with
      | nil => exact absurd rfl (h.invisible [] hw).1
      | cons c w =>
          obtain ⟨rfl, -⟩ := List.cons.inj ht
          rw [hstarts rfl]

/-- Line breaks are dropped up to a visible byte. -/
theorem trimWords_lineBreaks (k n : ℕ) (hk : k ≤ n) (s : GoString) :
    trimWords ws n (List.replicate k 10 ++ b :: s) = b :: s := by
  induction k generalizing n with
  | zero => exact trimWords_of_visible h hb n s
  | succ k ih =>
      obtain ⟨n, rfl⟩ : ∃ m, n = m + 1 := ⟨n - 1, by omega⟩
      rw [List.replicate_succ, List.cons_append, trimWords, find?_lineBreak h]
      exact ih n (by omega)

/-- What stands behind a visible byte does not matter to what is dropped before it. -/
theorem trimWords_append (n : ℕ) (r s : GoString) :
    trimWords ws n (r ++ b :: s) = trimWords ws n (r ++ [b]) ++ s := by
  induction n generalizing r with
  | zero => simp [trimWords]
  | succ n ih =>
      have hword : ∀ w ∈ ws, ∀ t, w.isPrefixOf (r ++ b :: t) = w.isPrefixOf r := by
        intro w hw t
        rw [Bool.eq_iff_iff, List.isPrefixOf_iff_prefix, List.isPrefixOf_iff_prefix]
        constructor
        · rintro ⟨u, hu⟩
          rcases List.append_eq_append_iff.mp hu with ⟨v, rfl, -⟩ | ⟨v, rfl, hv⟩
          · exact ⟨v, rfl⟩
          · cases v with
            | nil => exact ⟨[], by simp⟩
            | cons c v =>
                obtain ⟨rfl, -⟩ := List.cons.inj hv
                exact absurd hb ((h.invisible _ hw).2 b (by simp))
        · exact fun hprefix => hprefix.trans (List.prefix_append _ _)
      have hsame (t : GoString) : (ws.find? fun w => w.isPrefixOf (r ++ b :: t)) =
          ws.find? fun w => w.isPrefixOf r := find?_congr fun w hw => hword w hw t
      rw [trimWords, trimWords, hsame s, hsame []]
      cases hfind : ws.find? fun w => w.isPrefixOf r with
      | none => simp
      | some w =>
          have hstart : w.isPrefixOf r = true := by simpa using List.find?_some hfind
          obtain ⟨t, rfl⟩ := List.isPrefixOf_iff_prefix.mp hstart
          simpa using ih t

omit hb in
theorem trimWords_nil (n : ℕ) : trimWords ws n [] = [] := by
  cases n with
  | zero => rfl
  | succ n =>
      have hnone : (ws.find? fun w => w.isPrefixOf []) = none := by
        rw [List.find?_eq_none]
        intro w hw hstart
        exact (h.invisible w hw).1 (by simpa using List.isPrefixOf_iff_prefix.mp hstart)
      rw [trimWords, hnone]

omit hb in
/-- As many words as there are bytes are enough. -/
theorem trimWords_of_le {m n : ℕ} {s : GoString} (hm : s.length ≤ m) (hn : s.length ≤ n) :
    trimWords ws m s = trimWords ws n s := by
  induction m generalizing n s with
  | zero =>
      obtain rfl : s = [] := List.length_eq_zero_iff.mp (by omega)
      rw [trimWords_nil h, trimWords_nil h]
  | succ m ih =>
      cases n with
      | zero =>
          obtain rfl : s = [] := List.length_eq_zero_iff.mp (by omega)
          rw [trimWords_nil h, trimWords_nil h]
      | succ n =>
          rw [trimWords, trimWords]
          cases hfind : ws.find? fun w => w.isPrefixOf s with
          | none => rfl
          | some w =>
              have hw := (h.invisible w (List.mem_of_find?_eq_some hfind)).1
              have hpos := List.length_pos_iff.mpr hw
              exact ih (by rw [List.length_drop]; omega) (by rw [List.length_drop]; omega)

omit hb in
/-- What is dropped cannot be seen. -/
theorem exists_trimWords (n : ℕ) (s : GoString) :
    ∃ u, s = u ++ trimWords ws n s ∧ ∀ b ∈ u, ¬ Visible b := by
  induction n generalizing s with
  | zero => exact ⟨[], rfl, by simp⟩
  | succ n ih =>
      rw [trimWords]
      cases hfind : ws.find? fun w => w.isPrefixOf s with
      | none => exact ⟨[], rfl, by simp⟩
      | some w =>
          have hstart : w.isPrefixOf s = true := by simpa using List.find?_some hfind
          obtain ⟨t, rfl⟩ := List.isPrefixOf_iff_prefix.mp hstart
          obtain ⟨u, hu, hinvisible⟩ := ih t
          refine ⟨w ++ u, by simp [← hu], fun b hb => ?_⟩
          rcases List.mem_append.mp hb with hb | hb
          · exact (h.invisible w (List.mem_of_find?_eq_some hfind)).2 b hb
          · exact hinvisible b hb

end Words

/-! ### `trimSpace` -/

/-- What is dropped before the text cannot be seen. -/
theorem exists_trimSpace (s : GoString) :
    ∃ u v, s = u ++ (trimSpace s ++ v) ∧ ∀ b ∈ u, ¬ Visible b := by
  obtain ⟨u, hu, hinvisible⟩ := exists_trimWords isSpaces_spaces s.length s
  obtain ⟨v, hv, -⟩ := exists_trimWords isSpaces_reverse (trimWords spaces s.length s).length
    (trimWords spaces s.length s).reverse
  refine ⟨u, v.reverse, ?_, hinvisible⟩
  have hleft : trimWords spaces s.length s = trimSpace s ++ v.reverse := by
    simpa [trimSpace] using congrArg List.reverse hv
  rw [← hleft]
  exact hu

/-- Line breaks before a visible byte are dropped. -/
theorem trimSpace_lineBreaks {b : UInt8} (hb : Visible b) (k : ℕ) (s : GoString) :
    trimSpace (List.replicate k 10 ++ b :: s) = trimSpace (b :: s) := by
  rw [trimSpace, trimSpace, trimWords_lineBreaks isSpaces_spaces hb _ _ (by simp),
    trimWords_of_visible isSpaces_spaces hb]

/-- Of a text that begins with a visible byte, something is dropped at its end only. -/
theorem trimSpace_cons {b : UInt8} (hb : Visible b) (s : GoString) :
    trimSpace (b :: s) =
      (trimWords (spaces.map List.reverse) (b :: s).length (b :: s).reverse).reverse := by
  rw [trimSpace, trimWords_of_visible isSpaces_spaces hb]

/-- Nothing is dropped before a visible byte if what stands there begins with one. -/
theorem trimSpace_append {b c : UInt8} (hb : Visible b) (hc : Visible c) (s t : GoString) :
    trimSpace (b :: s ++ c :: t) = b :: s ++ trimSpace (c :: t) := by
  rw [List.cons_append, trimSpace_cons hb, trimSpace_cons hc]
  have hreverse : (b :: (s ++ c :: t)).reverse = t.reverse ++ c :: (b :: s).reverse := by simp
  have hright : (c :: t).reverse = t.reverse ++ [c] := List.reverse_cons
  rw [hreverse, hright, trimWords_append isSpaces_reverse hc, List.reverse_append,
    List.reverse_reverse]
  congr 2
  apply trimWords_of_le isSpaces_reverse
  · simp
    omega
  · simp

/-- A text from one visible byte to another, with line breaks behind it. -/
theorem trimSpace_of_visible {b c : UInt8} (hb : Visible b) (hc : Visible c) {s : GoString}
    (hhead : s.head? = some b) (hlast : s.getLast? = some c) (k : ℕ) :
    trimSpace (s ++ List.replicate k 10) = s := by
  obtain ⟨t, rfl⟩ := List.head?_eq_some_iff.mp hhead
  obtain ⟨u, hu⟩ := List.getLast?_eq_some_iff.mp hlast
  rw [List.cons_append, trimSpace_cons hb, ← List.cons_append, List.reverse_append, hu,
    List.reverse_append, List.reverse_replicate, List.reverse_singleton, List.singleton_append,
    trimWords_lineBreaks isSpaces_reverse hc _ _ (by simp; omega)]
  simp

theorem trimSpace_replicate (k : ℕ) : trimSpace (List.replicate k 10) = [] := by
  have hdrop (n k : ℕ) (hk : k ≤ n) : trimWords spaces n (List.replicate k 10) = [] := by
    induction k generalizing n with
    | zero => exact trimWords_nil isSpaces_spaces n
    | succ k ih =>
        obtain ⟨n, rfl⟩ : ∃ m, n = m + 1 := ⟨n - 1, by omega⟩
        rw [List.replicate_succ, trimWords, find?_lineBreak isSpaces_spaces]
        exact ih n (by omega)
  rw [trimSpace, hdrop _ _ (by simp)]
  rfl

/-- Nothing is left to drop after as many words as there are bytes. -/
theorem find?_trimWords {ws : List GoString} (h : IsSpaces ws) {n : ℕ} {s : GoString}
    (hn : s.length ≤ n) : (ws.find? fun w => w.isPrefixOf (trimWords ws n s)) = none := by
  induction n generalizing s with
  | zero =>
      obtain rfl : s = [] := List.length_eq_zero_iff.mp (by omega)
      rw [trimWords, List.find?_eq_none]
      intro w hw hstart
      exact (h.invisible w hw).1 (by simpa using List.isPrefixOf_iff_prefix.mp hstart)
  | succ n ih =>
      rw [trimWords]
      cases hfind : ws.find? fun w => w.isPrefixOf s with
      | none => exact hfind
      | some w =>
          have hpos := List.length_pos_iff.mpr (h.invisible w (List.mem_of_find?_eq_some hfind)).1
          exact ih (by rw [List.length_drop]; omega)

theorem trimWords_of_find?_eq_none {ws : List GoString} {s : GoString}
    (h : (ws.find? fun w => w.isPrefixOf s) = none) (n : ℕ) : trimWords ws n s = s := by
  cases n with
  | zero => rfl
  | succ n => rw [trimWords, h]

theorem trimSpace_trimSpace (s : GoString) : trimSpace (trimSpace s) = trimSpace s := by
  have hleft := find?_trimWords isSpaces_spaces (le_refl s.length)
  have hright := @find?_trimWords _ isSpaces_reverse (trimWords spaces s.length s).length
    (trimWords spaces s.length s).reverse (by simp)
  obtain ⟨v, hv, -⟩ := exists_trimWords isSpaces_reverse (trimWords spaces s.length s).length
    (trimWords spaces s.length s).reverse
  have hstart : trimWords spaces s.length s = trimSpace s ++ v.reverse := by
    simpa [trimSpace] using congrArg List.reverse hv
  have hnone : (spaces.find? fun w => w.isPrefixOf (trimSpace s)) = none := by
    rw [List.find?_eq_none] at hleft ⊢
    intro w hw hw'
    refine hleft w hw ?_
    rw [hstart, List.isPrefixOf_iff_prefix]
    exact (List.isPrefixOf_iff_prefix.mp hw').trans (List.prefix_append _ _)
  conv => lhs; rw [trimSpace, trimWords_of_find?_eq_none hnone]
  change (trimWords _ _ (trimSpace s).reverse).reverse = _
  have hreverse : (trimSpace s).reverse =
      trimWords (spaces.map List.reverse) (trimWords spaces s.length s).length
        (trimWords spaces s.length s).reverse := by
    simp [trimSpace]
  rw [hreverse, trimWords_of_find?_eq_none hright]
  rfl

theorem trimSpace_space (s : GoString) : trimSpace (32 :: s) = trimSpace s := by
  have hfind : (spaces.find? fun w => w.isPrefixOf (32 :: s)) = some [32] := rfl
  have hdrop : trimWords spaces (32 :: s).length (32 :: s) = trimWords spaces s.length s := by
    rw [List.length_cons, trimWords, hfind]
    rfl
  rw [trimSpace, trimSpace, hdrop]

end Higress.Lib.Strings
