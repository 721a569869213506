import Mathlib.Order.Defs.PartialOrder

/-!
Computations that change a state and may fail. A failure ends the computation
and keeps the state that was reached, as a function of Go does that changes what
its arguments point to and then returns an error.
-/

namespace Higress.Lib

/-- A computation on states `σ` that ends with an `α`, or fails with an `ε`. -/
def Act (ε σ α : Type) := σ → Except ε α × σ

namespace Act

variable {ε σ α β : Type}

def pass (a : α) : Act ε σ α := fun s => (.ok a, s)

/-- The first computation, and if it did not fail the second one. -/
def chain (x : Act ε σ α) (f : α → Act ε σ β) : Act ε σ β := fun s =>
  match x s with
  | (.ok a, s) => f a s
  | (.error e, s) => (.error e, s)

instance : Monad (Act ε σ) where
  pure := pass
  bind := chain

def fail (e : ε) : Act ε σ α := fun s => (.error e, s)

/-- What `f` says of the state. -/
def look (f : σ → α) : Act ε σ α := fun s => (.ok (f s), s)

def update (f : σ → σ) : Act ε σ Unit := fun s => (.ok (), f s)

/-- A result that does not depend on the state. -/
def lift (r : Except ε α) : Act ε σ α := fun s => (r, s)

/-- A computation that is skipped unless `c` holds. -/
def onlyIf (c : Prop) [Decidable c] (x : Act ε σ Unit) : Act ε σ Unit := if c then x else pure ()

/-- A computation where there is a local variable besides the state. -/
def outer {τ : Type} (x : Act ε σ α) : Act ε (σ × τ) α := fun s => ((x s.1).1, ((x s.1).2, s.2))

/-- A computation with a local variable that starts as `t`. -/
def withVar {τ : Type} (t : τ) (x : Act ε (σ × τ) α) : Act ε σ α := fun s =>
  ((x (s, t)).1, (x (s, t)).2.1)

theorem pure_run (a : α) (s : σ) : (pure a : Act ε σ α) s = (.ok a, s) := rfl

theorem fail_run (e : ε) (s : σ) : (fail e : Act ε σ α) s = (.error e, s) := rfl

theorem look_run (f : σ → α) (s : σ) : (look f : Act ε σ α) s = (.ok (f s), s) := rfl

theorem update_run (f : σ → σ) (s : σ) : (update f : Act ε σ Unit) s = (.ok (), f s) := rfl

theorem lift_run (r : Except ε α) (s : σ) : (lift r : Act ε σ α) s = (r, s) := rfl

theorem bind_run (x : Act ε σ α) (f : α → Act ε σ β) (s : σ) :
    (x >>= f) s = match x s with
      | (.ok a, s) => f a s
      | (.error e, s) => (.error e, s) := rfl

theorem bind_of_ok {x : Act ε σ α} {s s' : σ} {a : α} (h : x s = (.ok a, s'))
    (f : α → Act ε σ β) : (x >>= f) s = f a s' := by
  rw [bind_run, h]

theorem bind_of_error {x : Act ε σ α} {s s' : σ} {e : ε} (h : x s = (.error e, s'))
    (f : α → Act ε σ β) : (x >>= f) s = (.error e, s') := by
  rw [bind_run, h]

instance : LawfulMonad (Act ε σ) := by
  refine LawfulMonad.mk' (Act ε σ) ?_ (fun _ _ => rfl) ?_
  · intro α x
    funext s
    change (x >>= fun a => pure a) s = x s
    rw [bind_run]
    match x s with
    | (.ok _, _) => rfl
    | (.error _, _) => rfl
  · intro α β γ x f g
    funext s
    simp only [bind_run]
    match x s with
    | (.ok _, _) => rfl
    | (.error _, _) => rfl

/-! ### What a computation keeps -/

/-- Where the computation ends is related to where it starts. -/
def Keeps (R : σ → σ → Prop) (x : Act ε σ α) : Prop := ∀ s, R s (x s).2

namespace Keeps

variable {R : σ → σ → Prop}

theorem pure (hrefl : ∀ s, R s s) (a : α) : Keeps R (Pure.pure a : Act ε σ α) := hrefl

theorem fail (hrefl : ∀ s, R s s) (e : ε) : Keeps R (Act.fail e : Act ε σ α) := hrefl

theorem look (hrefl : ∀ s, R s s) (f : σ → α) : Keeps R (Act.look f : Act ε σ α) := hrefl

theorem lift (hrefl : ∀ s, R s s) (r : Except ε α) : Keeps R (Act.lift r : Act ε σ α) := hrefl

theorem bind (htrans : ∀ s t u, R s t → R t u → R s u) {x : Act ε σ α} {f : α → Act ε σ β}
    (hx : Keeps R x) (hf : ∀ a, Keeps R (f a)) : Keeps R (x >>= f) := by
  intro s
  rw [bind_run]
  have hs := hx s
  split
  · rename_i a t h
    rw [h] at hs
    exact htrans s t _ hs (hf a t)
  · rename_i e t h
    rw [h] at hs
    exact hs

theorem ite (c : Prop) [Decidable c] {x y : Act ε σ α} (hx : Keeps R x) (hy : Keeps R y) :
    Keeps R (if c then x else y) := by
  split
  · exact hx
  · exact hy

theorem onlyIf (hrefl : ∀ s, R s s) (c : Prop) [Decidable c] {x : Act ε σ Unit} (hx : Keeps R x) :
    Keeps R (Act.onlyIf c x) :=
  ite c hx (pure hrefl ())

theorem outer {τ : Type} {x : Act ε σ α} (hx : Keeps R x) :
    Keeps (fun s t : σ × τ => R s.1 t.1) (Act.outer x) := fun s => hx s.1

theorem withVar {τ : Type} (t : τ) {x : Act ε (σ × τ) α}
    (hx : Keeps (fun s t => R s.1 t.1) x) : Keeps R (Act.withVar t x) := fun s => hx (s, t)

end Keeps

end Act

end Higress.Lib
