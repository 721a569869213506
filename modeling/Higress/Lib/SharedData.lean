import Mathlib.Data.List.Basic
import Mathlib.Logic.Function.Basic

/-!
Programs over data that many of them share. A program reads a key together with its version
and writes a key under the version that it has read: the write fails if the key has another
version by then. Between two accesses of a program the others may run.

An invariant of all the programs is shown for one program at a time. Every program carries a
ghost state, which an access may change, and what was read under a version stays true of that
version.
-/

namespace Higress.Lib.SharedData

variable {κ : Type} {α : κ → Type} {ρ τ ω γ : Type}

/-! ### Programs -/

/-- The value of every key that is there, with its version. -/
abbrev Store (α : κ → Type) := (k : κ) → Option (α k × ℕ)

/-- A program, by what it does with the result of its next access. -/
inductive Prog (α : κ → Type) (ρ : Type)
  | ret (r : ρ)
  | get (k : κ) (next : Option (α k × ℕ) → Prog α ρ)
  | set (k : κ) (v : α k) (cas : ℕ) (next : Bool → Prog α ρ)
  | now (next : ℕ → Prog α ρ)

namespace Prog

def bind : Prog α ρ → (ρ → Prog α τ) → Prog α τ
  | ret r, f => f r
  | get k next, f => get k fun v => (next v).bind f
  | set k v cas next, f => set k v cas fun ok => (next ok).bind f
  | now next, f => now fun t => (next t).bind f

instance : Monad (Prog α) where
  pure := ret
  bind := bind

/-- The value of a key with its version. -/
def read (k : κ) : Prog α (Option (α k × ℕ)) := get k ret

/-- A write; the answer is whether the version was the right one. -/
def write (k : κ) (v : α k) (cas : ℕ) : Prog α Bool := set k v cas ret

/-- The time. -/
def time : Prog α ℕ := now ret

/-- The result of a program that is done. -/
def result : Prog α ρ → Option ρ
  | ret r => some r
  | _ => none

theorem eq_ret_of_mem_result {p : Prog α ρ} {r : ρ} (h : r ∈ p.result) : p = ret r := by
  cases p with
  | ret r' => rw [Option.some.inj h]
  | get k next => cases h
  | set k v cas next => cases h
  | now next => cases h

@[simp] theorem bind_eq (p : Prog α ρ) (f : ρ → Prog α τ) : p >>= f = p.bind f := rfl

@[simp] theorem pure_eq (r : ρ) : (pure r : Prog α ρ) = ret r := rfl

end Prog

/-- What an attempt does with the value that it has read. -/
inductive Plan (β : Type)
  | stop
  | again
  | put (v : β)

/-- How a loop of attempts ends. -/
inductive Outcome
  | stopped
  | written
  | exhausted
  deriving DecidableEq

/-- A loop of at most `n` attempts to change the value of a key: it is read, and what the plan
puts in its place is written under the version that was read. -/
def Prog.retry (k : κ) (plan : Option (α k) → Plan (α k)) : ℕ → Prog α Outcome
  | 0 => ret .exhausted
  | n + 1 => get k fun cell =>
      match plan (cell.map Prod.fst) with
      | .stop => ret .stopped
      | .again => retry k plan n
      | .put v => set k v ((cell.map Prod.snd).getD 0) fun ok =>
          if ok then ret .written else retry k plan n

/-! ### Runs -/

/-- A write under the version `cas` succeeds; under the version 0 every write does. -/
def Store.Accepts (s : Store α) (k : κ) (cas : ℕ) : Prop :=
  ∀ cell ∈ s k, cas = 0 ∨ cas = cell.2

instance (s : Store α) (k : κ) (cas : ℕ) : Decidable (s.Accepts k cas) :=
  inferInstanceAs (Decidable (∀ cell ∈ s k, _))

variable [DecidableEq κ]

/-- The new value has a new version. -/
def Store.put (s : Store α) (k : κ) (v : α k) : Store α :=
  Function.update s k (some (v, ((s k).map Prod.snd).getD 0 + 1))

/-- What the programs share, with a record of the writes: each with what the program is for. -/
structure Shared (α : κ → Type) (ω : Type) where
  clock : ℕ
  store : Store α
  history : List (ω × (k : κ) × α k)

def Shared.write (sh : Shared α ω) (op : ω) (k : κ) (v : α k) : Shared α ω :=
  { sh with store := sh.store.put k v, history := sh.history ++ [(op, ⟨k, v⟩)] }

theorem Shared.store_write (sh : Shared α ω) (op : ω) (k : κ) (v : α k) :
    (sh.write op k v).store = sh.store.put k v := rfl

theorem Shared.clock_write (sh : Shared α ω) (op : ω) (k : κ) (v : α k) :
    (sh.write op k v).clock = sh.clock := rfl

/-- The next access of a program. -/
def Prog.access (op : ω) (sh : Shared α ω) : Prog α ρ → Prog α ρ × Shared α ω
  | ret r => (ret r, sh)
  | get k next => (next (sh.store k), sh)
  | set k v cas next =>
      if sh.store.Accepts k cas then (next true, sh.write op k v) else (next false, sh)
  | now next => (next sh.clock, sh)

/-- A program that runs alone, in no time. -/
def Prog.exec (clock : ℕ) : Prog α ρ → Store α → ρ × Store α
  | ret r, s => (r, s)
  | get k next, s => (next (s k)).exec clock s
  | set k v cas next, s =>
      if s.Accepts k cas then (next true).exec clock (s.put k v) else (next false).exec clock s
  | now next, s => (next clock).exec clock s

structure World (α : κ → Type) (ρ ω : Type) where
  shared : Shared α ω
  threads : List (ω × Prog α ρ)

/-- A program starts, time passes, or a program makes its next access. -/
inductive Move (ω : Type)
  | start (op : ω)
  | tick (n : ℕ)
  | step (i : ℕ)

def World.move (code : ω → Prog α ρ) (w : World α ρ ω) : Move ω → World α ρ ω
  | .start op => { w with threads := w.threads ++ [(op, code op)] }
  | .tick n => { w with shared := { w.shared with clock := w.shared.clock + n } }
  | .step i =>
      match w.threads[i]? with
      | none => w
      | some (op, p) =>
          let next := p.access op w.shared
          ⟨next.2, w.threads.set i (op, next.1)⟩

/-- Any order of the accesses of any programs. -/
def World.run (code : ω → Prog α ρ) (w : World α ρ ω) (moves : List (Move ω)) : World α ρ ω :=
  moves.foldl (World.move code) w

/-! ### A program alone -/

section Exec

variable {clock : ℕ} {s : Store α}

@[simp] theorem Store.put_self (k : κ) (v : α k) :
    s.put k v k = some (v, ((s k).map Prod.snd).getD 0 + 1) := by
  simp [Store.put]

@[simp] theorem Store.put_of_ne {k k' : κ} (h : k' ≠ k) (v : α k) : s.put k v k' = s k' := by
  simp [Store.put, h]

theorem Prog.exec_bind (p : Prog α ρ) (f : ρ → Prog α τ) :
    (p.bind f).exec clock s = (f (p.exec clock s).1).exec clock (p.exec clock s).2 := by
  induction p generalizing s with
  | ret r => rfl
  | get k next ih => exact ih _
  | set k v cas next ih =>
      by_cases haccepts : s.Accepts k cas
      · simp only [Prog.bind, Prog.exec, if_pos haccepts]
        exact ih true
      · simp only [Prog.bind, Prog.exec, if_neg haccepts]
        exact ih false
  | now next ih => exact ih _

omit [DecidableEq κ] in
theorem Store.accepts_self (s : Store α) (k : κ) : s.Accepts k (((s k).map Prod.snd).getD 0) := by
  intro cell hcell
  simp [Option.mem_def.mp hcell]

theorem Prog.exec_write_of_accepts {k : κ} {cas : ℕ} (h : s.Accepts k cas) (v : α k) :
    (write k v cas).exec clock s = (true, s.put k v) := by
  simp only [write, exec, if_pos h]

/-- Alone the first attempt writes what it plans to. -/
theorem Prog.exec_retry {k : κ} (plan : Option (α k) → Plan (α k)) (n : ℕ) :
    (retry k plan (n + 1)).exec clock s =
      (match plan ((s k).map Prod.fst) with
      | .stop => (.stopped, s)
      | .again => (retry k plan n).exec clock s
      | .put v => (.written, s.put k v)) := by
  rw [retry, exec]
  cases plan ((s k).map Prod.fst) with
  | stop => rfl
  | again => rfl
  | put v => simp only [exec, if_pos (s.accepts_self k), if_true]

end Exec

/-! ### What was read -/

/-- A value of a key and the version that it was read under. -/
structure Fact (α : κ → Type) where
  key : κ
  value : α key
  cas : ℕ

/-- The key still has that value if it still has that version. -/
def Fact.Holds (f : Fact α) (s : Store α) : Prop :=
  ∃ v c, s f.key = some (v, c) ∧ f.cas ≤ c ∧ (f.cas = c → f.value = v)

theorem Fact.holds_put {f : Fact α} {s : Store α} (h : f.Holds s) (k : κ) (v : α k) :
    f.Holds (s.put k v) := by
  obtain ⟨value, c, hget, hle, hvalue⟩ := h
  by_cases hk : f.key = k
  · subst hk
    refine ⟨v, c + 1, ?_, by omega, by omega⟩
    simp [Store.put, hget]
  · exact ⟨value, c, by rw [Store.put, Function.update_of_ne hk, hget], hle, hvalue⟩

/-- What is known after a key is read. -/
def learn (known : List (Fact α)) (s : Store α) (k : κ) : List (Fact α) :=
  match s k with
  | none => known
  | some (v, c) => ⟨k, v, c⟩ :: known

omit [DecidableEq κ] in
theorem holds_learn {known : List (Fact α)} {s : Store α} (h : ∀ f ∈ known, f.Holds s) (k : κ) :
    ∀ f ∈ learn known s k, f.Holds s := by
  rw [learn]
  split
  · exact h
  · rename_i v c hget
    intro f hf
    rcases List.mem_cons.mp hf with rfl | hf
    · exact ⟨v, c, hget, Nat.le_refl _, fun _ => rfl⟩
    · exact h f hf

omit [DecidableEq κ] in
/-- A version that was read is not 0, so the value was still there if a write succeeded. -/
theorem eq_of_accepts {known : List (Fact α)} {s : Store α} (h : ∀ f ∈ known, f.Holds s)
    {f : Fact α} (hf : f ∈ known) (hcas : f.cas ≠ 0) (haccepts : s.Accepts f.key f.cas) :
    s f.key = some (f.value, f.cas) := by
  obtain ⟨v, c, hget, -, hvalue⟩ := h f hf
  have hc := (haccepts (v, c) (by simp [hget])).resolve_left hcas
  rw [hget, hvalue hc, hc]

/-! ### Invariants -/

section Keeps

variable (inv : Shared α ω → List γ → Prop) (op : ω)

/-- What a program does from now on keeps the invariant, whatever the others do in between.
It knows some facts, and some time of the past. -/
def Prog.Keeps (post : List (Fact α) → ℕ → ρ → γ → Prop) :
    Prog α ρ → List (Fact α) → ℕ → γ → Prop
  | ret r, known, past, g => post known past r g
  | get k next, known, past, g => ∀ sh gs hs, past ≤ sh.clock → (∀ f ∈ known, f.Holds sh.store) →
      inv sh (gs ++ g :: hs) → ∃ g', inv sh (gs ++ g' :: hs) ∧
        (next (sh.store k)).Keeps post (learn known sh.store k) sh.clock g'
  | set k v cas next, known, past, g => ∀ sh gs hs, past ≤ sh.clock →
      (∀ f ∈ known, f.Holds sh.store) → inv sh (gs ++ g :: hs) →
        if sh.store.Accepts k cas then
          ∃ g', inv (sh.write op k v) (gs ++ g' :: hs) ∧ (next true).Keeps post known sh.clock g'
        else (next false).Keeps post known past g
  | now next, known, past, g => ∀ sh gs hs, past ≤ sh.clock → (∀ f ∈ known, f.Holds sh.store) →
      inv sh (gs ++ g :: hs) → ∃ g', inv sh (gs ++ g' :: hs) ∧
        (next sh.clock).Keeps post known sh.clock g'

variable {inv op}

theorem Prog.Keeps.mono {post post' : List (Fact α) → ℕ → ρ → γ → Prop}
    (hpost : ∀ known past r g, post known past r g → post' known past r g) {p : Prog α ρ}
    {known : List (Fact α)} {past : ℕ} {g : γ} (h : p.Keeps inv op post known past g) :
    p.Keeps inv op post' known past g := by
  induction p generalizing known past g with
  | ret r => exact hpost known past r g h
  | get k next ih =>
      intro sh gs hs hpast hknown hinv
      obtain ⟨g', hinv', hnext⟩ := h sh gs hs hpast hknown hinv
      exact ⟨g', hinv', ih _ hnext⟩
  | set k v cas next ih =>
      intro sh gs hs hpast hknown hinv
      have hset := h sh gs hs hpast hknown hinv
      split at hset
      · rename_i haccepts
        obtain ⟨g', hinv', hnext⟩ := hset
        rw [if_pos haccepts]
        exact ⟨g', hinv', ih _ hnext⟩
      · rename_i haccepts
        rw [if_neg haccepts]
        exact ih _ hset
  | now next ih =>
      intro sh gs hs hpast hknown hinv
      obtain ⟨g', hinv', hnext⟩ := h sh gs hs hpast hknown hinv
      exact ⟨g', hinv', ih _ hnext⟩

theorem Prog.Keeps.bind {post : List (Fact α) → ℕ → τ → γ → Prop} {p : Prog α ρ}
    {f : ρ → Prog α τ} {known : List (Fact α)} {past : ℕ} {g : γ}
    (h : p.Keeps inv op (fun known past r g => (f r).Keeps inv op post known past g) known past g) :
    (p.bind f).Keeps inv op post known past g := by
  induction p generalizing known past g with
  | ret r => exact h
  | get k next ih =>
      intro sh gs hs hpast hknown hinv
      obtain ⟨g', hinv', hnext⟩ := h sh gs hs hpast hknown hinv
      exact ⟨g', hinv', ih _ hnext⟩
  | set k v cas next ih =>
      intro sh gs hs hpast hknown hinv
      have hset := h sh gs hs hpast hknown hinv
      split at hset
      · rename_i haccepts
        obtain ⟨g', hinv', hnext⟩ := hset
        rw [if_pos haccepts]
        exact ⟨g', hinv', ih _ hnext⟩
      · rename_i haccepts
        rw [if_neg haccepts]
        exact ih _ hset
  | now next ih =>
      intro sh gs hs hpast hknown hinv
      obtain ⟨g', hinv', hnext⟩ := h sh gs hs hpast hknown hinv
      exact ⟨g', hinv', ih _ hnext⟩

/-- One program after another, with what holds between them. -/
theorem Prog.Keeps.seq {mid : List (Fact α) → ℕ → ρ → γ → Prop}
    {post : List (Fact α) → ℕ → τ → γ → Prop} {p : Prog α ρ} {f : ρ → Prog α τ}
    {known : List (Fact α)} {past : ℕ} {g : γ} (h : p.Keeps inv op mid known past g)
    (hf : ∀ known past r g, mid known past r g → (f r).Keeps inv op post known past g) :
    (p.bind f).Keeps inv op post known past g :=
  (h.mono hf).bind

/-- The rule for a loop of attempts: the one that writes does so in one step, as the value that it
has read is still there. -/
theorem Prog.Keeps.retry (post : Outcome → γ → Prop) {k : κ} {plan : Option (α k) → Plan (α k)}
    {g : γ}
    (hcell : ∀ sh gs, inv sh gs → ∃ v c, sh.store k = some (v, c) ∧ c ≠ 0)
    (hstop : ∀ sh gs hs v c, inv sh (gs ++ g :: hs) → sh.store k = some (v, c) →
      plan (some v) = .stop → ∃ g', inv sh (gs ++ g' :: hs) ∧ post .stopped g')
    (hput : ∀ sh gs hs v c w, inv sh (gs ++ g :: hs) → sh.store k = some (v, c) →
      plan (some v) = .put w → ∃ g', inv (sh.write op k w) (gs ++ g' :: hs) ∧ post .written g')
    (hexhausted : post .exhausted g) (n : ℕ) (known : List (Fact α)) (past : ℕ) :
    (Prog.retry k plan n).Keeps inv op (fun _ _ r g' => post r g') known past g := by
  induction n generalizing known past with
  | zero => exact hexhausted
  | succ n ih =>
      intro sh gs hs _ _ hinv
      obtain ⟨v, c, hget, hc⟩ := hcell sh _ hinv
      simp only [hget, Option.map_some]
      cases hplan : plan (some v) with
      | stop => exact hstop sh gs hs v c hinv hget hplan
      | again => exact ⟨g, hinv, ih _ _⟩
      | put w =>
          refine ⟨g, hinv, ?_⟩
          intro sh' gs' hs' _ hknown hinv'
          have hfact : (⟨k, v, c⟩ : Fact α) ∈ learn known sh.store k := by
            simp [learn, hget]
          split
          · rename_i haccepts
            have hget' := eq_of_accepts hknown hfact hc haccepts
            exact hput sh' gs' hs' v c w hinv' hget' hplan
          · exact ih _ _

end Keeps

/-- All writes of a program are to some keys. -/
def Prog.WritesIn (keys : κ → Prop) : Prog α ρ → Prop
  | ret _ => True
  | get _ next => ∀ v, (next v).WritesIn keys
  | set k _ _ next => keys k ∧ ∀ ok, (next ok).WritesIn keys
  | now next => ∀ t, (next t).WritesIn keys

omit [DecidableEq κ] in
theorem Prog.WritesIn.bind {keys : κ → Prop} {p : Prog α ρ} {f : ρ → Prog α τ}
    (hp : p.WritesIn keys) (hf : ∀ r, (f r).WritesIn keys) : (p.bind f).WritesIn keys := by
  induction p with
  | ret r => exact hf r
  | get k next ih => exact fun v => ih v (hp v)
  | set k v cas next ih => exact ⟨hp.1, fun ok => ih ok (hp.2 ok)⟩
  | now next ih => exact fun t => ih t (hp t)

omit [DecidableEq κ] in
theorem Prog.writesIn_retry {keys : κ → Prop} {k : κ} (hk : keys k)
    (plan : Option (α k) → Plan (α k)) (n : ℕ) : (retry k plan n).WritesIn keys := by
  induction n with
  | zero => exact trivial
  | succ n ih =>
      intro cell
      dsimp only
      split
      · exact trivial
      · exact ih
      · refine ⟨hk, fun ok => ?_⟩
        cases ok with
        | true => exact trivial
        | false => exact ih

/-- A program that writes only what the invariant does not look at. -/
theorem Prog.WritesIn.keeps {inv : Shared α ω → List γ → Prop} {op : ω} {keys : κ → Prop}
    (hinv : ∀ sh gs k v, keys k → inv sh gs → inv (sh.write op k v) gs) {p : Prog α ρ}
    (hp : p.WritesIn keys) (known : List (Fact α)) (past : ℕ) (g : γ) :
    p.Keeps inv op (fun _ _ _ g' => g' = g) known past g := by
  induction p generalizing known past with
  | ret r => exact rfl
  | get k next ih =>
      intro sh gs hs _ _ h
      exact ⟨g, h, ih _ (hp _) _ _⟩
  | set k v cas next ih =>
      intro sh gs hs _ _ h
      split
      · exact ⟨g, hinv sh _ k v hp.1 h, ih _ (hp.2 _) _ _⟩
      · exact ih _ (hp.2 _) _ _
  | now next ih =>
      intro sh gs hs _ _ h
      exact ⟨g, h, ih _ (hp _) _ _⟩

/-! ### The invariant of a run -/

section Run

variable (inv : Shared α ω → List γ → Prop) (post : ω → List (Fact α) → ℕ → ρ → γ → Prop)

/-- A program with its ghost state is in order. -/
def InOrder (sh : Shared α ω) (thread : (ω × Prog α ρ) × γ) : Prop :=
  ∃ known past, past ≤ sh.clock ∧ (∀ f ∈ known, f.Holds sh.store) ∧
    thread.1.2.Keeps inv thread.1.1 (post thread.1.1) known past thread.2

/-- The programs have ghost states with which the invariant holds. -/
def World.Good (w : World α ρ ω) : Prop :=
  ∃ l : List ((ω × Prog α ρ) × γ), l.map Prod.fst = w.threads ∧ inv w.shared (l.map Prod.snd) ∧
    ∀ x ∈ l, InOrder inv post w.shared x

variable {inv post}

/-- Other programs only let time pass and write. -/
theorem InOrder.write {sh : Shared α ω} {x : (ω × Prog α ρ) × γ} (h : InOrder inv post sh x)
    (op : ω) (k : κ) (v : α k) : InOrder inv post (sh.write op k v) x := by
  obtain ⟨known, past, hpast, hknown, hkeeps⟩ := h
  exact ⟨known, past, hpast, fun f hf => Fact.holds_put (hknown f hf) k v, hkeeps⟩

theorem InOrder.tick {sh : Shared α ω} {x : (ω × Prog α ρ) × γ} (h : InOrder inv post sh x)
    (n : ℕ) : InOrder inv post { sh with clock := sh.clock + n } x := by
  obtain ⟨known, past, hpast, hknown, hkeeps⟩ := h
  exact ⟨known, past, Nat.le_trans hpast (Nat.le_add_right _ _), hknown, hkeeps⟩

/-- One access of a program among others. -/
theorem InOrder.access {sh : Shared α ω} {op : ω} {p : Prog α ρ} {g : γ} {gs hs : List γ}
    (h : InOrder inv post sh ((op, p), g)) (hinv : inv sh (gs ++ g :: hs)) :
    ∃ g', inv (p.access op sh).2 (gs ++ g' :: hs) ∧
      InOrder inv post (p.access op sh).2 ((op, (p.access op sh).1), g') ∧
      ∀ x, InOrder inv post sh x → InOrder inv post (p.access op sh).2 x := by
  obtain ⟨known, past, hpast, hknown, hkeeps⟩ := h
  cases p with
  | ret r => exact ⟨g, hinv, ⟨known, past, hpast, hknown, hkeeps⟩, fun x hx => hx⟩
  | get k next =>
      obtain ⟨g', hinv', hnext⟩ := hkeeps sh gs hs hpast hknown hinv
      exact ⟨g', hinv', ⟨_, _, Nat.le_refl _, holds_learn hknown k, hnext⟩, fun x hx => hx⟩
  | set k v cas next =>
      have hset := hkeeps sh gs hs hpast hknown hinv
      by_cases haccepts : sh.store.Accepts k cas
      · rw [if_pos haccepts] at hset
        obtain ⟨g', hinv', hnext⟩ := hset
        simp only [Prog.access, if_pos haccepts]
        exact ⟨g', hinv', ⟨known, _, Nat.le_refl _, fun f hf => Fact.holds_put (hknown f hf) k v, hnext⟩,
          fun x hx => hx.write op k v⟩
      · rw [if_neg haccepts] at hset
        simp only [Prog.access, if_neg haccepts]
        exact ⟨g, hinv, ⟨known, past, hpast, hknown, hset⟩, fun x hx => hx⟩
  | now next =>
      obtain ⟨g', hinv', hnext⟩ := hkeeps sh gs hs hpast hknown hinv
      exact ⟨g', hinv', ⟨known, _, Nat.le_refl _, hknown, hnext⟩, fun x hx => hx⟩

theorem exists_split_of_getElem? {β : Type*} {l : List β} {i : ℕ} {x : β} (h : l[i]? = some x) :
    ∃ a b, l = a ++ x :: b ∧ ∀ y, l.set i y = a ++ y :: b := by
  induction l generalizing i with
  | nil => simp at h
  | cons z l ih =>
      cases i with
      | zero => exact ⟨[], l, by simpa using h, fun y => rfl⟩
      | succ i =>
          obtain ⟨a, b, hl, hset⟩ := ih (by simpa using h)
          exact ⟨z :: a, b, by rw [hl]; rfl, fun y => by simp [hset]⟩

variable {code : ω → Prog α ρ}
  (hstart : ∀ op sh gs, inv sh gs → ∃ g, inv sh (gs ++ [g]) ∧ (code op).Keeps inv op (post op) [] 0 g)
  (htick : ∀ sh gs n, inv sh gs → inv { sh with clock := sh.clock + n } gs)

include hstart htick

theorem World.Good.move {w : World α ρ ω} (h : w.Good inv post) (m : Move ω) :
    (w.move code m).Good inv post := by
  obtain ⟨l, hthreads, hinv, hall⟩ := h
  cases m with
  | start op =>
      obtain ⟨g, hinv', hkeeps⟩ := hstart op w.shared _ hinv
      refine ⟨l ++ [((op, code op), g)], by simp [World.move, hthreads], ?_, ?_⟩
      · simpa [World.move] using hinv'
      · intro x hx
        rcases List.mem_append.mp hx with hx | hx
        · exact hall x hx
        · obtain rfl := List.mem_singleton.mp hx
          exact ⟨[], 0, Nat.zero_le _, by simp, hkeeps⟩
  | tick n => exact ⟨l, hthreads, htick _ _ n hinv, fun x hx => (hall x hx).tick n⟩
  | step i =>
      rw [World.move]
      cases hget : w.threads[i]? with
      | none => exact ⟨l, hthreads, hinv, hall⟩
      | some thread =>
          obtain ⟨op, p⟩ := thread
          rw [← hthreads, List.getElem?_map, Option.map_eq_some_iff] at hget
          obtain ⟨⟨thread, g⟩, hl, rfl⟩ := hget
          obtain ⟨a, b, hsplit, hset⟩ := exists_split_of_getElem? hl
          rw [hsplit, List.map_append, List.map_cons] at hinv
          have hthread : InOrder inv post w.shared ((op, p), g) :=
            hall _ (by rw [hsplit]; simp)
          obtain ⟨g', hinv', hnext, hothers⟩ := hthread.access hinv
          refine ⟨l.set i ((op, (p.access op w.shared).1), g'), ?_, ?_, ?_⟩
          · rw [List.map_set, hthreads]
          · rw [hset, List.map_append, List.map_cons]
            exact hinv'
          · intro x hx
            rw [hset] at hx
            rcases List.mem_append.mp hx with hx | hx
            · exact hothers x (hall x (by rw [hsplit]; exact List.mem_append_left _ hx))
            · rcases List.mem_cons.mp hx with rfl | hx
              · exact hnext
              · exact hothers x (hall x (by
                  rw [hsplit]
                  exact List.mem_append_right _ (List.mem_cons_of_mem _ hx)))

/-- The invariant holds after every run. -/
theorem World.Good.run {w : World α ρ ω} (h : w.Good inv post) (moves : List (Move ω)) :
    (w.run code moves).Good inv post := by
  induction moves generalizing w with
  | nil => exact h
  | cons m moves ih => exact ih (h.move hstart htick m)

end Run

end Higress.Lib.SharedData
