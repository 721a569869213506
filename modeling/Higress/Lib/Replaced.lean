import Mathlib.Data.List.Infix
import Higress.Lib.Scan

/-!
Simultaneous replacement. A table gives words with what stands for them. A text is gone through
from left to right, where a word of the table starts the longest one that starts there is replaced,
and the rest behind it is gone through in the same way, so that what was put in is not looked at.
-/

namespace Higress.Lib

variable {β : Type*}

/-- `t` is `s` with the words of the table replaced. -/
inductive Replaced (table : List β → List β → Prop) : List β → List β → Prop
  | nil : Replaced table [] []
  | keep {b s t} : (∀ m o, table m o → ¬ m <+: b :: s) → Replaced table s t →
      Replaced table (b :: s) (b :: t)
  | replace {m o s t} : table m o → (∀ m' o', table m' o' → m' <+: m ++ s → m'.length ≤ m.length) →
      Replaced table s t → Replaced table (m ++ s) (o ++ t)

namespace Replaced

variable {table : List β → List β → Prop} {s t t' m : List β}

/-- Where a word starts, the longest one that starts there has been replaced. -/
theorem of_word (h : Replaced table s t) {m o : List β} (hm : table m o) (hne : m ≠ [])
    (hstart : m <+: s) (hlongest : ∀ m' o', table m' o' → m' <+: s → m'.length ≤ m.length)
    (hunique : ∀ o', table m o' → o' = o) :
    ∃ rest t', s = m ++ rest ∧ t = o ++ t' ∧ Replaced table rest t' := by
  cases h with
  | nil => exact absurd (List.prefix_nil.mp hstart) hne
  | keep hnone _ => exact absurd hstart (hnone m o hm)
  | @replace m' o' rest t' hm' hlongest' hrest =>
      have hle : m'.length ≤ m.length := hlongest m' o' hm' (List.prefix_append m' rest)
      have hge : m.length ≤ m'.length := hlongest' m o hm hstart
      have hsame : m = m' :=
        (List.prefix_of_prefix_length_le hstart (List.prefix_append m' rest) hge).eq_of_length
          (by omega)
      subst hsame
      exact ⟨rest, t', rfl, by rw [hunique o' hm'], hrest⟩

/-- A table that gives one text for each word, and none for the empty one, determines the result. -/
theorem unique (hfun : ∀ m o o', table m o → table m o' → o = o') (hne : ∀ m o, table m o → m ≠ [])
    (h : Replaced table s t) (h' : Replaced table s t') : t = t' := by
  induction h generalizing t' with
  | nil =>
      generalize hs : ([] : List β) = s at h'
      cases h' with
      | nil => rfl
      | keep _ _ => simp at hs
      | @replace m o _ _ hm _ _ => exact absurd (List.append_eq_nil_iff.mp hs.symm).1 (hne m o hm)
  | @keep b s t hnone _ ih =>
      generalize hs : b :: s = s' at h'
      cases h' with
      | nil => simp at hs
      | keep _ hrest =>
          obtain ⟨rfl, rfl⟩ := List.cons.inj hs
          rw [ih hrest]
      | @replace m o rest _ hm _ _ =>
          exact absurd (hs ▸ List.prefix_append m rest) (hnone m o hm)
  | @replace m o s t hm hlongest _ ih =>
      obtain ⟨rest, u, hs, rfl, hrest⟩ := h'.of_word hm (hne m o hm) (List.prefix_append m s) hlongest
        fun o' ho' => hfun m o' o ho' hm
      obtain rfl := List.append_cancel_left hs
      rw [ih hrest]

end Replaced

/-- A scan whose matches are the longest words replaces the words of the table. -/
theorem Matcher.replaced_replaceAll {α : Type*} {M : Matcher β α} {table : List β → List β → Prop}
    {f : α → List β}
    (hhit : ∀ s a rest, M.matchAt s = some (a, rest) → table (M.text a) (f a) ∧
      ∀ m o, table m o → m <+: s → m.length ≤ (M.text a).length)
    (hmiss : ∀ s, M.matchAt s = none → ∀ m o, table m o → ¬ m <+: s) (s : List β) :
    Replaced table s (M.replaceAll f s) := by
  induction s using M.scan_induction with
  | hnil => exact .nil
  | hhit s a rest hmatch ih =>
      obtain ⟨hword, hlongest⟩ := hhit s a rest hmatch
      rw [Matcher.replaceAll_of_match hmatch]
      obtain rfl := M.matchAt_eq hmatch
      exact .replace hword hlongest ih
  | hmiss b s hnone ih =>
      rw [Matcher.replaceAll_of_none hnone]
      exact .keep (hmiss _ hnone) ih

end Higress.Lib
