import Mathlib

/-!
Sessions over a shared state. A session is opened with its first state, and whatever happens to
it then changes its own state and the shared one. The rule of this module is about meters of the
shared state: if what happens to one session changes a meter as it changes the weight of the
session, then in every run the meter is the sum of the weights of all sessions. And if what happens
to a session does not depend on what the other sessions have done to the shared state, each session
ends as it does when it is the only one.
-/

namespace Higress.Lib

/-- A shared state and the sessions, in the order in which they were opened. -/
structure Sessions (σ ρ : Type*) where
  shared : σ
  all : List ρ

/-- What happens: a session is opened, or something happens to the session with a number. -/
inductive Sessions.Event (α ε : Type*) where
  | opened (a : α)
  | act (i : ℕ) (e : ε)
  deriving Repr, DecidableEq

namespace Sessions

variable {σ ρ α ε κ : Type*}

section Run

variable (fresh : α → ρ) (handle : σ → ρ → ε → σ × ρ)

def step (w : Sessions σ ρ) : Event α ε → Sessions σ ρ
  | .opened a => { w with all := w.all ++ [fresh a] }
  | .act i e =>
      match w.all[i]? with
      | none => w
      | some r => ⟨(handle w.shared r e).1, w.all.set i (handle w.shared r e).2⟩

def run (w : Sessions σ ρ) (events : List (Event α ε)) : Sessions σ ρ :=
  events.foldl (step fresh handle) w

/-- Every event of a run meets a condition, which may depend on the state before it. -/
def Along (C : Sessions σ ρ → Event α ε → Prop) : Sessions σ ρ → List (Event α ε) → Prop
  | _, [] => True
  | w, e :: events => C w e ∧ Along C (step fresh handle w e) events

variable {fresh handle}

/-- The invariant rule for runs whose events meet a condition. -/
theorem run_of_step {C : Sessions σ ρ → Event α ε → Prop} {P : Sessions σ ρ → Prop}
    (hstep : ∀ w e, P w → C w e → P (step fresh handle w e)) {w : Sessions σ ρ}
    {events : List (Event α ε)} (hw : P w) (hc : Along fresh handle C w events) :
    P (run fresh handle w events) := by
  induction events generalizing w with
  | nil => exact hw
  | cons e events ih => exact ih (hstep w e hw hc.1) hc.2

end Run

/-! ### Meters -/

/-- The sum of the weights of all sessions. -/
def total (weight : κ → ρ → ℕ) (k : κ) (w : Sessions σ ρ) : ℕ := (w.all.map (weight k)).sum

/-- Every session is as it should be, and every meter is the sum of the weights. -/
structure Metered (Ok : ρ → Prop) (weight : κ → ρ → ℕ) (meter : κ → σ → ℤ) (w : Sessions σ ρ) :
    Prop where
  ok : ∀ r ∈ w.all, Ok r
  meter_eq : ∀ k, meter k w.shared = total weight k w

theorem sum_map_set (f : ρ → ℕ) {rs : List ρ} {i : ℕ} {r : ρ} (hr : rs[i]? = some r) (r' : ρ) :
    ((rs.set i r').map f).sum + f r = (rs.map f).sum + f r' := by
  induction rs generalizing i with
  | nil => simp at hr
  | cons x rs ih =>
      cases i with
      | zero =>
          obtain rfl : x = r := by simpa using hr
          simp only [List.set_cons_zero, List.map_cons, List.sum_cons]
          omega
      | succ i =>
          have hrest := ih (by simpa using hr)
          simp only [List.set_cons_succ, List.map_cons, List.sum_cons]
          omega

theorem total_eq_zero {weight : κ → ρ → ℕ} {k : κ} {w : Sessions σ ρ}
    (h : ∀ r ∈ w.all, weight k r = 0) : total weight k w = 0 :=
  List.sum_eq_zero (by simpa using h)

/-- The sum of the weights of a property is the number of the sessions that have it. -/
theorem total_eq_countP (p : κ → ρ → Bool) (k : κ) (w : Sessions σ ρ) :
    total (fun k r => (p k r).toNat) k w = w.all.countP (p k) := by
  unfold total
  induction w.all with
  | nil => rfl
  | cons r rs ih =>
      rw [List.map_cons, List.sum_cons, ih, List.countP_cons]
      cases hp : p k r with
      | false => simp [hp]
      | true => simp [hp, Nat.add_comm]

/-- One event keeps the meters, if a new session weighs nothing and what happens to a session
changes each meter as its weight. -/
theorem Metered.step {fresh : α → ρ} {handle : σ → ρ → ε → σ × ρ} {Ok : ρ → Prop}
    {weight : κ → ρ → ℕ} {meter : κ → σ → ℤ} {C : Sessions σ ρ → Event α ε → Prop}
    (hfresh : ∀ a, Ok (fresh a) ∧ ∀ k, weight k (fresh a) = 0)
    (hact : ∀ w i r e, Metered Ok weight meter w → w.all[i]? = some r → C w (.act i e) →
      Ok (handle w.shared r e).2 ∧ ∀ k, meter k (handle w.shared r e).1 + weight k r =
        meter k w.shared + weight k (handle w.shared r e).2)
    {w : Sessions σ ρ} {e : Event α ε} (hw : Metered Ok weight meter w) (hc : C w e) :
    Metered Ok weight meter (Sessions.step fresh handle w e) := by
  cases e with
  | opened a =>
      refine ⟨fun r hr => ?_, fun k => ?_⟩
      · rcases List.mem_append.1 hr with hr | hr
        · exact hw.ok r hr
        · rw [List.mem_singleton.1 hr]
          exact (hfresh a).1
      · simp [Sessions.step, total, (hfresh a).2 k, hw.meter_eq k]
  | act i e =>
      cases hr : w.all[i]? with
      | none => simpa [Sessions.step, hr] using hw
      | some r =>
          obtain ⟨hok, hmeter⟩ := hact w i r e hw hr hc
          simp only [Sessions.step, hr]
          refine ⟨fun r' hr' => ?_, fun k => ?_⟩
          · rcases List.mem_or_eq_of_mem_set hr' with hr' | rfl
            · exact hw.ok r' hr'
            · exact hok
          · have hsum := sum_map_set (weight k) hr (handle w.shared r e).2
            have hk := hmeter k
            have heq := hw.meter_eq k
            simp only [total] at heq ⊢
            omega

/-! ### Sessions alone -/

/-- The events of one session, where `n` sessions have been opened before. -/
def alone (i : ℕ) : ℕ → List (Event α ε) → List (Event α ε)
  | _, [] => []
  | n, .opened a :: events =>
      if n = i then .opened a :: alone i (n + 1) events else alone i (n + 1) events
  | n, .act j e :: events =>
      if j = i ∧ i < n then .act 0 e :: alone i n events else alone i n events

section Alone

variable {fresh : α → ρ} {handle : σ → ρ → ε → σ × ρ} {C : Sessions σ ρ → Event α ε → Prop}
  {I : Sessions σ ρ → Prop} {solo : ρ → σ} {s₀ : σ} {i : ℕ}

/-- The sessions of a run and those of the run of one of them alone, whose shared state is what this
session makes of it. -/
structure Agrees (solo : ρ → σ) (s₀ : σ) (i : ℕ) (w w' : Sessions σ ρ) : Prop where
  length : w'.all.length = if i < w.all.length then 1 else 0
  same : w.all[i]? = w'.all[0]?
  shared : w'.shared = (w'.all[0]?.map solo).getD s₀

theorem Agrees.opened {w w' : Sessions σ ρ} (h : Agrees solo s₀ i w w')
    (hfresh : ∀ a, solo (fresh a) = s₀) (a : α) :
    Agrees solo s₀ i (step fresh handle w (.opened a))
      (if w.all.length = i then step fresh handle w' (.opened a) else w') := by
  have hlength := h.length
  have hsame := h.same
  have hshared := h.shared
  split
  next heq =>
    have hnil : w'.all = [] := by
      rw [← List.length_eq_zero_iff, hlength, if_neg (by omega)]
    refine ⟨?_, ?_, ?_⟩
    · simp [step, hnil, heq]
    · simp [step, hnil, ← heq]
    · simpa [step, hnil, hfresh] using hshared
  next hne =>
    refine ⟨?_, ?_, hshared⟩
    · rw [hlength]
      simp only [step, List.length_append, List.length_singleton]
      split <;> split <;> omega
    · rw [← hsame]
      simp only [step]
      by_cases hlt : i < w.all.length
      · rw [List.getElem?_append_left hlt]
      · rw [List.getElem?_eq_none (by simp; omega), List.getElem?_eq_none (by omega)]

theorem Agrees.act {w w' : Sessions σ ρ} (h : Agrees solo s₀ i w w')
    (hsolo : ∀ r e, solo (handle (solo r) r e).2 = (handle (solo r) r e).1) (j : ℕ) (e : ε)
    (hact : ∀ r, w.all[i]? = some r → j = i →
      (handle w.shared r e).2 = (handle (solo r) r e).2) :
    Agrees solo s₀ i (step fresh handle w (.act j e))
      (if j = i ∧ i < w.all.length then step fresh handle w' (.act 0 e) else w') := by
  have hlength := h.length
  have hsame := h.same
  have hshared := h.shared
  split
  next hin =>
    obtain ⟨rfl, hlt⟩ := hin
    obtain ⟨r, hr⟩ : ∃ r, w.all[j]? = some r := ⟨_, List.getElem?_eq_getElem hlt⟩
    have hr' : w'.all[0]? = some r := hsame ▸ hr
    have hall : w'.all = [r] := by
      rw [if_pos hlt] at hlength
      obtain ⟨r', hr''⟩ := List.length_eq_one_iff.1 hlength
      simpa [hr''] using hr'
    have hsolo' : w'.shared = solo r := by simpa [hall] using hshared
    have heq := hact r hr rfl
    refine ⟨?_, ?_, ?_⟩
    · simp [step, hall, hlt]
    · simp only [step, hr, hall, List.getElem?_cons_zero, List.set_cons_zero, heq, hsolo']
      exact List.getElem?_set_self hlt
    · simp [step, hall, hsolo', hsolo]
  next hout =>
    have hstay : (step fresh handle w (.act j e)).all[i]? = w.all[i]? ∧
        (step fresh handle w (.act j e)).all.length = w.all.length := by
      simp only [step]
      split
      next => exact ⟨rfl, rfl⟩
      next r hr =>
        have hne : j ≠ i := by
          rintro rfl
          exact hout ⟨rfl, (List.getElem?_eq_some_iff.1 hr).1⟩
        simp [List.getElem?_set_ne hne]
    exact ⟨by rw [hstay.2, hlength], by rw [hstay.1, hsame], hshared⟩

/-- The rule for sessions that do not disturb each other. `solo` is what a session makes of the
shared state when it is the only one; if in each event of a run a session behaves as with this
shared state, then it ends as in the run of its events alone. -/
theorem run_alone (hfresh : ∀ a, solo (fresh a) = s₀)
    (hsolo : ∀ r e, solo (handle (solo r) r e).2 = (handle (solo r) r e).1)
    (hI : ∀ w e, I w → I (step fresh handle w e))
    (hact : ∀ w j r e, I w → w.all[j]? = some r → C w (.act j e) →
      (handle w.shared r e).2 = (handle (solo r) r e).2)
    {w w' : Sessions σ ρ} (hw : I w) (h : Agrees solo s₀ i w w') {events : List (Event α ε)}
    (hc : Along fresh handle C w events) :
    (run fresh handle w events).all[i]? =
      (run fresh handle w' (alone i w.all.length events)).all[0]? := by
  induction events generalizing w w' with
  | nil => exact h.same
  | cons e events ih =>
      have hrest := fun {w' : Sessions σ ρ} h => @ih _ w' (hI w e hw) h hc.2
      cases e with
      | opened a =>
          have hlength : (step fresh handle w (.opened a)).all.length = w.all.length + 1 := by
            simp [step]
          have := hrest (h.opened hfresh a)
          rw [hlength] at this
          simp only [run, List.foldl_cons, alone] at this ⊢
          rw [this]
          split <;> rfl
      | act j e =>
          have hlength : (step fresh handle w (.act j e)).all.length = w.all.length := by
            simp only [step]
            split <;> simp
          have := hrest (h.act hsolo j e fun r hr hj => hact w j r e hw (hj ▸ hr) hc.1)
          rw [hlength] at this
          simp only [run, List.foldl_cons, alone] at this ⊢
          rw [this]
          split <;> rfl

end Alone

end Sessions

end Higress.Lib
