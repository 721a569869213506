import Mathlib.Logic.Basic

/-!
Runs of fallible steps. A step that fails is `none`, and a run of steps is the
monadic fold over their list.
-/

namespace Higress.Lib.Run

variable {σ α : Type*} {f : σ → α → Option σ} {P : σ → Prop}

/-- The invariant rule: when every step from a state with the invariant succeeds
and keeps it, so does every run. -/
theorem foldlM_of_step {steps : List α} {s : σ}
    (hstep : ∀ a ∈ steps, ∀ s, P s → ∃ s', f s a = some s' ∧ P s') (hs : P s) :
    ∃ s', steps.foldlM f s = some s' ∧ P s' := by
  induction steps generalizing s with
  | nil => exact ⟨s, rfl, hs⟩
  | cons a steps ih =>
      obtain ⟨s₁, hs₁, hP₁⟩ := hstep a List.mem_cons_self s hs
      obtain ⟨s₂, hs₂, hP₂⟩ := ih (fun b hb => hstep b (List.mem_cons_of_mem _ hb)) hP₁
      exact ⟨s₂, by simp [List.foldlM_cons, hs₁, hs₂], hP₂⟩

/-- What every successful step keeps, a successful run keeps. -/
theorem of_foldlM_eq_some {steps : List α} {s s' : σ}
    (hstep : ∀ a ∈ steps, ∀ s s', P s → f s a = some s' → P s') (hs : P s)
    (hrun : steps.foldlM f s = some s') : P s' := by
  induction steps generalizing s with
  | nil =>
      obtain rfl : s = s' := by simpa using hrun
      exact hs
  | cons a steps ih =>
      obtain ⟨s₁, hs₁, hrest⟩ := Option.bind_eq_some_iff.mp hrun
      exact ih (fun b hb => hstep b (List.mem_cons_of_mem _ hb))
        (hstep a List.mem_cons_self s s₁ hs hs₁) hrest

/-- Every step of a run meets a condition, which may depend on the state before it. -/
def Along (g : σ → α → σ) (C : σ → α → Prop) : σ → List α → Prop
  | _, [] => True
  | s, a :: steps => C s a ∧ Along g C (g s a) steps

theorem Along.of_append {g : σ → α → σ} {C : σ → α → Prop} {s : σ} {done todo : List α}
    (h : Along g C s (done ++ todo)) : Along g C s done := by
  induction done generalizing s with
  | nil => exact True.intro
  | cons a done ih => exact ⟨h.1, ih h.2⟩

/-- The invariant rule for runs whose steps meet a condition. -/
theorem foldl_of_along {g : σ → α → σ} {C : σ → α → Prop} {steps : List α} {s : σ}
    (hstep : ∀ a ∈ steps, ∀ s, P s → C s a → P (g s a)) (hs : P s) (hc : Along g C s steps) :
    P (steps.foldl g s) := by
  induction steps generalizing s with
  | nil => exact hs
  | cons a steps ih =>
      exact ih (fun b hb => hstep b (List.mem_cons_of_mem _ hb))
        (hstep a List.mem_cons_self s hs hc.1) hc.2

/-- A run looks in all of its states like a run of another machine exactly when every step meets
the condition under which one step does. -/
theorem forall_prefix_iff_along {τ : Type*} {view : σ → τ} {g : σ → α → σ} {k : τ → α → τ}
    {C : σ → α → Prop} (hinv : ∀ s a, P s → P (g s a))
    (hstep : ∀ s a, P s → (view (g s a) = k (view s) a ↔ C s a)) {s : σ} (hs : P s)
    (steps : List α) :
    (∀ done, done <+: steps → view (done.foldl g s) = done.foldl k (view s)) ↔ Along g C s steps := by
  induction steps generalizing s with
  | nil => simp [Along]
  | cons a steps ih =>
      constructor
      · intro h
        have hone : view (g s a) = k (view s) a := h [a] ⟨steps, rfl⟩
        refine ⟨(hstep s a hs).mp hone, (ih (hinv s a hs)).mp fun done hdone => ?_⟩
        rw [hone]
        exact h (a :: done) ((List.prefix_cons_inj a).mpr hdone)
      · rintro ⟨hc, hrest⟩ done hdone
        have hone := (hstep s a hs).mpr hc
        cases done with
        | nil => rfl
        | cons b done =>
            obtain ⟨t, ht⟩ := hdone
            obtain ⟨rfl, ht'⟩ := List.cons.inj ht
            rw [List.foldl_cons, List.foldl_cons, ← hone]
            exact (ih (hinv s b hs)).mpr hrest done ⟨t, ht'⟩

/-- The unwinding rule for runs whose steps meet a condition: when the steps that are left out do
not touch what `R` sees and the others act alike on what it sees, a run with those steps and the
run without them end alike. -/
theorem foldl_filter_of_along {g : σ → α → σ} {C : σ → α → Prop} {R : σ → σ → Prop}
    {keep : α → Bool} {steps : List α} {s t : σ}
    (hskip : ∀ a ∈ steps, keep a = false → ∀ s t, C s a → R s t → R (g s a) t)
    (hkeep : ∀ a ∈ steps, keep a = true → ∀ s t, C s a → R s t → R (g s a) (g t a)) (hst : R s t)
    (hc : Along g C s steps) : R (steps.foldl g s) ((steps.filter keep).foldl g t) := by
  induction steps generalizing s t with
  | nil => exact hst
  | cons a steps ih =>
      have hrest {s t : σ} := @ih s t (fun b hb => hskip b (List.mem_cons_of_mem _ hb))
        (fun b hb => hkeep b (List.mem_cons_of_mem _ hb))
      cases hk : keep a with
      | false =>
          rw [List.filter_cons_of_neg (by simp [hk]), List.foldl_cons]
          exact hrest (hskip a List.mem_cons_self hk s t hc.1 hst) hc.2
      | true =>
          rw [List.filter_cons_of_pos hk, List.foldl_cons, List.foldl_cons]
          exact hrest (hkeep a List.mem_cons_self hk s t hc.1 hst) hc.2

theorem along_true (g : σ → α → σ) (s : σ) (steps : List α) : Along g (fun _ _ => True) s steps := by
  induction steps generalizing s with
  | nil => exact True.intro
  | cons a steps ih => exact ⟨True.intro, ih _⟩

/-- The unwinding rule for all runs. -/
theorem foldl_filter_of_unwinding {g : σ → α → σ} {R : σ → σ → Prop} {keep : α → Bool}
    {steps : List α} {s t : σ}
    (hskip : ∀ a ∈ steps, keep a = false → ∀ s t, R s t → R (g s a) t)
    (hkeep : ∀ a ∈ steps, keep a = true → ∀ s t, R s t → R (g s a) (g t a)) (hst : R s t) :
    R (steps.foldl g s) ((steps.filter keep).foldl g t) :=
  foldl_filter_of_along (fun a ha hk s t _ => hskip a ha hk s t)
    (fun a ha hk s t _ => hkeep a ha hk s t) hst (along_true g s steps)

end Higress.Lib.Run
