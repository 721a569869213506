import Mathlib.Data.List.Lex
import Mathlib.Data.Prod.Lex
import Mathlib.Data.Sum.Order
import Mathlib.Order.WithBot
import Mathlib.Data.Int.Notation

/-!
Comparisons that answer with a sign, as the functions handed to a sort do in many languages. The sign of
a lexicographic order is the sign of the first components that differ.
-/

namespace Higress.Lib

variable {α β : Type*} [LinearOrder α] [LinearOrder β]

/-- Minus one, zero or one, as the first is below, equal to or above the second. -/
def comparison (a b : α) : ℤ := if a < b then -1 else if b < a then 1 else 0

@[simp] theorem comparison_self (a : α) : comparison a a = 0 := by simp [comparison]

theorem comparison_of_lt {a b : α} (h : a < b) : comparison a b = -1 := if_pos h

theorem comparison_of_gt {a b : α} (h : b < a) : comparison a b = 1 := by
  rw [comparison, if_neg h.not_gt, if_pos h]

theorem comparison_swap (a b : α) : comparison a b = -comparison b a := by
  rcases lt_trichotomy a b with h | rfl | h
  · rw [comparison_of_lt h, comparison_of_gt h]
  · simp
  · rw [comparison_of_gt h, comparison_of_lt h]
    rfl

theorem comparison_le_zero {a b : α} : comparison a b ≤ 0 ↔ a ≤ b := by
  rcases lt_or_ge b a with h | h
  · simp [comparison_of_gt h, h]
  · rw [comparison, if_neg h.not_gt]
    split <;> simp [h]

theorem comparison_pos {a b : α} : 0 < comparison a b ↔ b < a := by
  rw [← not_le, comparison_le_zero, not_le]

theorem comparison_eq_zero {a b : α} : comparison a b = 0 ↔ a = b := by
  rcases lt_trichotomy a b with h | rfl | h
  · simp [comparison_of_lt h, h.ne]
  · simp
  · simp [comparison_of_gt h, h.ne']

theorem comparison_map {f : α → β} (hf : StrictMono f) (a b : α) :
    comparison (f a) (f b) = comparison a b := by
  simp only [comparison, hf.lt_iff_lt]

/-! ### Lexicographic orders -/

theorem comparison_toLex (a a' : α) (b b' : β) :
    comparison (toLex (a, b)) (toLex (a', b')) =
      if a = a' then comparison b b' else comparison a a' := by
  by_cases h : a = a'
  · subst h
    rw [if_pos rfl, comparison, comparison]
    simp [Prod.Lex.toLex_lt_toLex]
  · rw [if_neg h, comparison, comparison]
    simp [Prod.Lex.toLex_lt_toLex, h, Ne.symm h]

theorem comparison_cons (a b : α) (l l' : List α) :
    comparison (a :: l) (b :: l') = if a = b then comparison l l' else comparison a b := by
  by_cases h : a = b
  · subst h
    rw [if_pos rfl]
    rcases lt_trichotomy l l' with hlt | rfl | hlt
    · rw [comparison_of_lt hlt, comparison_of_lt (List.cons_lt_cons_iff.mpr (.inr ⟨rfl, hlt⟩))]
    · simp
    · rw [comparison_of_gt hlt, comparison_of_gt (List.cons_lt_cons_iff.mpr (.inr ⟨rfl, hlt⟩))]
  · rw [if_neg h]
    rcases lt_or_gt_of_ne h with hlt | hlt
    · rw [comparison_of_lt hlt, comparison_of_lt (List.cons_lt_cons_iff.mpr (.inl hlt))]
    · rw [comparison_of_gt hlt, comparison_of_gt (List.cons_lt_cons_iff.mpr (.inl hlt))]

theorem comparison_append (p l l' : List α) : comparison (p ++ l) (p ++ l') = comparison l l' := by
  induction p with
  | nil => rfl
  | cons a p ih => rw [List.cons_append, List.cons_append, comparison_cons, if_pos rfl, ih]

/-! ### Sums and orders with a top -/

theorem comparison_inl_inl (a a' : α) :
    comparison (Sum.inlₗ a : α ⊕ₗ β) (Sum.inlₗ a') = comparison a a' :=
  comparison_map (fun _ _ => Sum.Lex.inl_lt_inl_iff.mpr) a a'

theorem comparison_inr_inr (b b' : β) :
    comparison (Sum.inrₗ b : α ⊕ₗ β) (Sum.inrₗ b') = comparison b b' :=
  comparison_map (fun _ _ => Sum.Lex.inr_lt_inr_iff.mpr) b b'

theorem comparison_inl_inr (a : α) (b : β) : comparison (Sum.inlₗ a : α ⊕ₗ β) (Sum.inrₗ b) = -1 :=
  comparison_of_lt (Sum.Lex.inl_lt_inr a b)

theorem comparison_inr_inl (a : α) (b : β) : comparison (Sum.inrₗ b : α ⊕ₗ β) (Sum.inlₗ a) = 1 :=
  comparison_of_gt (Sum.Lex.inl_lt_inr a b)

theorem comparison_coe (a a' : α) : comparison (a : WithTop α) a' = comparison a a' :=
  comparison_map WithTop.coe_strictMono a a'

theorem comparison_coe_top (a : α) : comparison (a : WithTop α) ⊤ = -1 :=
  comparison_of_lt (WithTop.coe_lt_top a)

theorem comparison_top_coe (a : α) : comparison ⊤ (a : WithTop α) = 1 :=
  comparison_of_gt (WithTop.coe_lt_top a)

/-! ### Maps of lists -/

theorem strictMono_listMap {f : α → β} (hf : StrictMono f) :
    StrictMono (List.map f) := by
  intro l l' h
  induction l generalizing l' with
  | nil =>
      cases l' with
      | nil => exact absurd h (lt_irrefl _)
      | cons b l' => exact List.nil_lt_cons _ _
  | cons a l ih =>
      cases l' with
      | nil => exact absurd h (List.not_lt_nil _)
      | cons b l' =>
          rw [List.map_cons, List.map_cons, List.cons_lt_cons_iff]
          rcases List.cons_lt_cons_iff.mp h with hlt | ⟨rfl, hlt⟩
          · exact .inl (hf hlt)
          · exact .inr ⟨rfl, ih hlt⟩

end Higress.Lib
