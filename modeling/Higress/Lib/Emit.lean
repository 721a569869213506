import Mathlib.Data.List.Basic

/-!
Computations that change a state and emit events, with pre- and postconditions over
the events so far and the state.
-/

namespace Higress.Lib

/-- A computation on states `σ` that emits events `ε`. -/
def Emit (σ ε : Type*) := σ → σ × List ε

namespace Emit

variable {σ ε α β : Type*}

def skip : Emit σ ε := fun s => (s, [])

/-- A change of the state that emits nothing. -/
def update (f : σ → σ) : Emit σ ε := fun s => (f s, [])

/-- The events that `f` makes of the state. -/
def emit (f : σ → List ε) : Emit σ ε := fun s => (s, f s)

def andThen (x y : Emit σ ε) : Emit σ ε := fun s => ((y (x s).1).1, (x s).2 ++ (y (x s).1).2)

/-- A computation that is skipped unless the state passes a test. -/
def onlyIf (p : σ → Bool) (x : Emit σ ε) : Emit σ ε := fun s => if p s then x s else skip s

/-- One computation after the other. -/
def inOrder : List (Emit σ ε) → Emit σ ε
  | [] => skip
  | x :: xs => x.andThen (inOrder xs)

/-- A loop over a list. -/
def each (f : α → Emit σ ε) (l : List α) : Emit σ ε := inOrder (l.map f)

theorem each_nil (f : α → Emit σ ε) : each f [] = skip := rfl

theorem each_cons (f : α → Emit σ ε) (a : α) (l : List α) :
    each f (a :: l) = (f a).andThen (each f l) := rfl

theorem andThen_skip (x : Emit σ ε) : x.andThen skip = x := by
  funext s
  simp [andThen, skip]

theorem andThen_assoc (x y z : Emit σ ε) : (x.andThen y).andThen z = x.andThen (y.andThen z) := by
  funext s
  simp [andThen]

theorem each_append (f : α → Emit σ ε) (l l' : List α) :
    each f (l ++ l') = (each f l).andThen (each f l') := by
  induction l with
  | nil =>
      funext s
      simp [each_nil, andThen, skip]
  | cons a l ih => rw [List.cons_append, each_cons, each_cons, ih, andThen_assoc]

/-! ### Pre- and postconditions -/

/-- Where `P` holds of the events so far and the state, `Q` holds after the computation. -/
def Leads (P : List ε → σ → Prop) (x : Emit σ ε) (Q : List ε → σ → Prop) : Prop :=
  ∀ past s, P past s → Q (past ++ (x s).2) (x s).1

namespace Leads

variable {P Q R : List ε → σ → Prop} {x y : Emit σ ε}

theorem skip (h : ∀ past s, P past s → Q past s) : Leads P Emit.skip Q := by
  intro past s hP
  simpa [Emit.skip] using h past s hP

theorem andThen (hx : Leads P x Q) (hy : Leads Q y R) : Leads P (x.andThen y) R := by
  intro past s hP
  have hR := hy _ _ (hx past s hP)
  rwa [List.append_assoc] at hR

theorem inOrder_nil (h : ∀ past s, P past s → Q past s) : Leads P (inOrder []) Q := skip h

theorem inOrder_cons {xs : List (Emit σ ε)} (hx : Leads P x Q) (hxs : Leads Q (inOrder xs) R) :
    Leads P (inOrder (x :: xs)) R := andThen hx hxs

theorem onlyIf {p : σ → Bool} (hx : Leads (fun past s => P past s ∧ p s = true) x Q)
    (hskip : ∀ past s, P past s → p s = false → Q past s) : Leads P (Emit.onlyIf p x) Q := by
  intro past s hP
  rw [Emit.onlyIf]
  cases hp : p s with
  | true => exact hx past s ⟨hP, hp⟩
  | false => simpa [Emit.skip] using hskip past s hP hp

/-- A loop, with an invariant that is indexed by what the loop has gone through. -/
theorem each {P : β → List ε → σ → Prop} {f : α → Emit σ ε} {g : β → α → β} {l : List α}
    (h : ∀ a ∈ l, ∀ b, Leads (P b) (f a) (P (g b a))) (b : β) :
    Leads (P b) (each f l) (P (l.foldl g b)) := by
  induction l generalizing b with
  | nil => exact skip fun _ _ hP => hP
  | cons a l ih =>
      exact andThen (h a List.mem_cons_self b)
        (ih (fun a' ha' => h a' (List.mem_cons_of_mem _ ha')) (g b a))

end Leads

/-! ### What is emitted -/

/-- All events that the computation emits, from any state, are of a kind. -/
def Emits (p : ε → Prop) (x : Emit σ ε) : Prop := ∀ s, ∀ e ∈ (x s).2, p e

namespace Emits

variable {p : ε → Prop} {x y : Emit σ ε}

theorem skip : Emits p (Emit.skip : Emit σ ε) := by simp [Emits, Emit.skip]

theorem update (f : σ → σ) : Emits p (Emit.update f) := by simp [Emits, Emit.update]

theorem emit {f : σ → List ε} (h : ∀ s, ∀ e ∈ f s, p e) : Emits p (Emit.emit f) := h

theorem andThen (hx : Emits p x) (hy : Emits p y) : Emits p (x.andThen y) := by
  intro s e he
  rcases List.mem_append.mp he with he | he
  · exact hx s e he
  · exact hy _ e he

theorem onlyIf {q : σ → Bool} (hx : Emits p x) : Emits p (Emit.onlyIf q x) := by
  intro s
  rw [Emit.onlyIf]
  split
  · exact hx s
  · exact skip s

theorem inOrder {xs : List (Emit σ ε)} (h : ∀ x ∈ xs, Emits p x) : Emits p (Emit.inOrder xs) := by
  induction xs with
  | nil => exact skip
  | cons x xs ih =>
      exact andThen (h x List.mem_cons_self) (ih fun x' hx' => h x' (List.mem_cons_of_mem _ hx'))

theorem each {f : α → Emit σ ε} (h : ∀ a, Emits p (f a)) (l : List α) : Emits p (Emit.each f l) := by
  refine inOrder fun x hx => ?_
  obtain ⟨a, -, rfl⟩ := List.mem_map.mp hx
  exact h a

end Emits

end Emit

end Higress.Lib
