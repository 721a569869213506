import Mathlib.Data.List.Induction
import Mathlib.Data.List.Nodup

/-!
Recency lists whose elements come in paths. A path is a list in which each
element names the one before it as its predecessor, and a recency list, most
recent first, is closed when every element stands behind its predecessor. A path
that is touched from its end to its start, with any number of elements dropped
from the cold end between two touches, keeps the list closed.
-/

namespace Higress.Lib.Recency

variable {α : Type*}

/-- Each element names the one before it, the first one names `p`. -/
def Follows (pred : α → Option α) : Option α → List α → Prop
  | _, [] => True
  | p, x :: xs => pred x = p ∧ Follows pred (some x) xs

/-- A list of elements from one without a predecessor on. -/
def IsPath (pred : α → Option α) (c : List α) : Prop := Follows pred none c

/-- Every element of the list stands behind its predecessor. -/
def PredClosed (pred : α → Option α) (l : List α) : Prop :=
  ∀ l₁ x l₂, l = l₁ ++ x :: l₂ → ∀ p, pred x = some p → p ∈ l₁

variable {pred : α → Option α} {p : Option α} {c l l' : List α} {x b : α}

/-! ### Paths -/

theorem Follows.of_append (h : Follows pred p (c ++ l)) : Follows pred p c := by
  induction c generalizing p with
  | nil => trivial
  | cons x xs ih => exact ⟨h.1, ih h.2⟩

/-- The predecessor of an element of a path is the element before it. -/
theorem Follows.pred_eq (h : Follows pred p (c ++ x :: l)) : pred x = c.getLast?.or p := by
  induction c generalizing p with
  | nil => simpa using h.1
  | cons y ys ih =>
      rw [ih h.2]
      cases ys with
      | nil => simp
      | cons z zs =>
          rw [List.getLast?_cons_cons]
          simp [List.getLast?_eq_some_getLast]

/-- A path does not come back to an element: the predecessor of its first element
and that of a later occurrence would differ. -/
theorem IsPath.nodup (h : IsPath pred c) : c.Nodup := by
  induction c using List.reverseRecOn with
  | nil => exact List.nodup_nil
  | append_singleton c x ih =>
      have hnd : c.Nodup := ih h.of_append
      have hlast : pred x = c.getLast? := by simpa using Follows.pred_eq h
      refine List.nodup_append.mpr ⟨hnd, List.nodup_singleton x, ?_⟩
      rintro y hy z hz rfl
      obtain rfl : y = x := by simpa using hz
      obtain ⟨c₁, c₂, rfl⟩ := List.append_of_mem hy
      have hbefore : pred y = c₁.getLast? := by simpa using Follows.pred_eq h.of_append
      have hright := List.getLast_mem (List.cons_ne_nil y c₂)
      rw [hbefore, List.getLast?_append_cons,
        List.getLast?_eq_some_getLast (List.cons_ne_nil y c₂)] at hlast
      exact List.disjoint_of_nodup_append hnd (List.mem_of_getLast? hlast) hright

/-! ### Closed lists -/

/-- Dropping elements from the cold end keeps a list closed. -/
theorem PredClosed.of_append (h : PredClosed pred (l ++ l')) : PredClosed pred l := by
  intro l₁ x l₂ hl p hp
  refine h l₁ x (l₂ ++ l') ?_ p hp
  rw [hl, List.append_assoc, List.cons_append]

variable [DecidableEq α]

/-- One touch of a path that is walked from its end: of the part `c` that was
touched before and the older elements a part is left, and the next element comes
before them. -/
theorem touch_isPrefixOf {held : List α} (hheld : held <+: c ++ l.filter (· ∉ c)) (hb : b ∉ c) :
    b :: held.filter (· ≠ b) <+: (b :: c) ++ l.filter (· ∉ b :: c) := by
  have hfilter : (c ++ l.filter (· ∉ c)).filter (· ≠ b) = c ++ l.filter (· ∉ b :: c) := by
    rw [List.filter_append, List.filter_filter]
    congr 1
    · apply List.filter_eq_self.mpr
      intro x hx
      have : x ≠ b := fun h => hb (h ▸ hx)
      simpa using this
    · apply List.filter_congr
      intro x _
      simp
  rw [List.cons_append, List.cons_prefix_cons, ← hfilter]
  exact ⟨rfl, hheld.filter _⟩

end Higress.Lib.Recency
