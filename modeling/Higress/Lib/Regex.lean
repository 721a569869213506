import Mathlib.Data.List.Basic
import Mathlib.Data.List.Infix
import Mathlib.Logic.Relation

/-!
Regular expressions as Go's package `regexp` reads them and matches them, for a part of the syntax:
characters, quoted texts, `.`, `\d`, the ends of the text, groups, alternatives and the greedy
repetitions. A text is a sequence of characters.

A matcher goes through all ways to match in the order in which they are preferred, so that the first
one is what is reported.
-/

namespace Higress.Lib

inductive Regex
  | empty
  | lit (c : Char)
  | any
  | digit
  | beginText
  | endText
  | cat (a b : Regex)
  | alt (a b : Regex)
  | star (a : Regex)
  | plus (a : Regex)
  | quest (a : Regex)
  | group (n : ℕ) (a : Regex)

namespace Regex

/-! ### The matcher -/

/-- A place in the text, and the texts of the groups that were closed, the last one first. -/
structure State where
  pos : ℕ
  rest : List Char
  caps : List (ℕ × List Char)

namespace State

variable (st : State) (n : ℕ)

def skip : State := ⟨st.pos + n, st.rest.drop n, st.caps⟩

@[simp] theorem skip_pos : (st.skip n).pos = st.pos + n := rfl

@[simp] theorem skip_rest : (st.skip n).rest = st.rest.drop n := rfl

@[simp] theorem skip_caps : (st.skip n).caps = st.caps := rfl

@[simp] theorem skip_zero : st.skip 0 = st := by simp [skip]

theorem skip_skip (m : ℕ) : (st.skip m).skip n = st.skip (m + n) := by
  simp [skip, Nat.add_assoc]

end State

def isDigit (c : Char) : Bool := '0' ≤ c && c ≤ '9'

/-- One character that passes a test. -/
def endsChar (test : Char → Bool) (st : State) : List State :=
  match st.rest with
  | [] => []
  | c :: _ => if test c then [st.skip 1] else []

/-- More repetitions are preferred. -/
def endsStar (ends : State → List State) : ℕ → State → List State
  | 0, st => [st]
  | n + 1, st =>
      ((ends st).filter fun st' => st'.rest.length < st.rest.length).flatMap (endsStar ends n) ++ [st]

/-- The places where a match may end. -/
def ends : Regex → State → List State
  | empty, st => [st]
  | lit c, st => endsChar (· == c) st
  | any, st => endsChar (· != '\n') st
  | digit, st => endsChar isDigit st
  | beginText, st => if st.pos = 0 then [st] else []
  | endText, st => if st.rest = [] then [st] else []
  | cat a b, st => (ends a st).flatMap (ends b)
  | alt a b, st => ends a st ++ ends b st
  | star a, st => endsStar (ends a) st.rest.length st
  | plus a, st => (ends a st).flatMap fun st' => endsStar (ends a) st'.rest.length st'
  | quest a, st => ends a st ++ [st]
  | group n a, st => (ends a st).map fun st' =>
      { st' with caps := (n, st.rest.take (st.rest.length - st'.rest.length)) :: st'.caps }

example (st : State) : ends empty st = [st] := by simp [ends]

/-- The leftmost match from a place on. -/
def findFrom (re : Regex) (pos : ℕ) (s : List Char) : Option State :=
  match (ends re ⟨pos, s, []⟩).head? with
  | some st => some st
  | none =>
      match s with
      | [] => none
      | _ :: t => findFrom re (pos + 1) t

/-- `FindStringSubmatch`, the text of a group. -/
def findStringSubmatch (re : Regex) (s : List Char) : Option (ℕ → List Char) :=
  (findFrom re 0 s).map fun st n => (st.caps.lookup n).getD []

/-- `MatchString`. -/
def matchString (re : Regex) (s : List Char) : Bool := (findFrom re 0 s).isSome

/-! ### The syntax -/

inductive Token
  | lit (c : Char)
  | any
  | digit
  | beginText
  | endText
  | star
  | plus
  | quest
  | lpar
  | rpar
  | bar

/-- A character that stands for itself behind a backslash. -/
def isPunct (c : Char) : Bool := c.val < 0x80 && !c.isAlphanum && c != '_'

/-- A character outside of quotes. Classes and counted repetitions are not read. -/
def token (c : Char) : Option Token :=
  if c = '.' then some .any
  else if c = '^' then some .beginText
  else if c = '$' then some .endText
  else if c = '*' then some .star
  else if c = '+' then some .plus
  else if c = '?' then some .quest
  else if c = '(' then some .lpar
  else if c = ')' then some .rpar
  else if c = '|' then some .bar
  else if c = '[' ∨ c = '{' then none
  else some (.lit c)

/-- Where the lexer is: behind a backslash or not, in quotes or not. -/
inductive LexMode
  | plain
  | escaped
  | quoted
  | quotedEscape

/-- The tokens of an expression; between `\Q` and `\E` everything stands for itself. -/
def lex : LexMode → List Char → Option (List Token)
  | .plain, [] => some []
  | .plain, c :: t =>
      if c = '\\' then lex .escaped t else (token c).bind fun k => (lex .plain t).map (k :: ·)
  | .escaped, [] => none
  | .escaped, c :: t =>
      if c = 'Q' then lex .quoted t
      else if c = 'd' then (lex .plain t).map (.digit :: ·)
      else if isPunct c then (lex .plain t).map (.lit c :: ·)
      else none
  | .quoted, [] => some []
  | .quoted, c :: t => if c = '\\' then lex .quotedEscape t else (lex .quoted t).map (.lit c :: ·)
  | .quotedEscape, [] => some [.lit '\\']
  | .quotedEscape, c :: t =>
      if c = 'E' then lex .plain t
      else if c = '\\' then (lex .quotedEscape t).map (.lit '\\' :: ·)
      else (lex .quoted t).map fun ts => .lit '\\' :: .lit c :: ts

def catAll : List Regex → Regex
  | [] => empty
  | r :: rs => cat r (catAll rs)

def altAll : List Regex → Regex
  | [] => empty
  | [r] => r
  | r :: rs => alt r (altAll rs)

/-- An open group: its number, its alternatives before the last bar, and the items behind that. -/
structure Frame where
  index : ℕ
  alts : List Regex
  items : List Regex

def Frame.push (f : Frame) (r : Regex) : Frame := { f with items := f.items ++ [r] }

def Frame.close (f : Frame) : Regex := altAll (f.alts ++ [catAll f.items])

/-- The parser's stack. -/
structure Stack where
  groups : ℕ
  top : Frame
  below : List Frame

def Stack.push (s : Stack) (r : Regex) : Stack := { s with top := s.top.push r }

def isRepeat : Regex → Bool
  | star _ => true
  | plus _ => true
  | quest _ => true
  | _ => false

/-- A repetition of the last item; a repetition of a repetition is no such thing. -/
def Stack.repeatLast (s : Stack) (op : Regex → Regex) : Option Stack :=
  match s.top.items.getLast? with
  | none => none
  | some r =>
      if isRepeat r then none
      else some { s with top := { s.top with items := s.top.items.dropLast ++ [op r] } }

def Stack.step (s : Stack) : Token → Option Stack
  | .lit c => some (s.push (lit c))
  | .any => some (s.push any)
  | .digit => some (s.push digit)
  | .beginText => some (s.push beginText)
  | .endText => some (s.push endText)
  | .star => s.repeatLast star
  | .plus => s.repeatLast plus
  | .quest => s.repeatLast quest
  | .bar => some { s with top := ⟨s.top.index, s.top.alts ++ [catAll s.top.items], []⟩ }
  | .lpar => some ⟨s.groups + 1, ⟨s.groups + 1, [], []⟩, s.top :: s.below⟩
  | .rpar =>
      match s.below with
      | [] => none
      | f :: fs => some ⟨s.groups, f.push (group s.top.index s.top.close), fs⟩

/-- `regexp.Compile`. -/
def compile (s : List Char) : Option Regex := do
  let tokens ← lex .plain s
  let stack ← tokens.foldlM Stack.step ⟨0, ⟨0, [], []⟩, []⟩
  if stack.below = [] then some stack.top.close else none

/-! ### The places where a match may end -/

section Ends

variable {st st' : State}

theorem mem_endsChar {test : Char → Bool} :
    st' ∈ endsChar test st ↔ ∃ c t, st.rest = c :: t ∧ test c = true ∧ st' = st.skip 1 := by
  rw [endsChar]
  cases st.rest with
  | nil => simp
  | cons c t =>
      by_cases h : test c = true
      · simp [h]
      · simp [h]

theorem mem_ends_cat {a b : Regex} : st' ∈ ends (cat a b) st ↔ ∃ u ∈ ends a st, st' ∈ ends b u := by
  simp [ends]

theorem mem_ends_catAll_append {rs rs' : List Regex} :
    st' ∈ ends (catAll (rs ++ rs')) st ↔ ∃ u ∈ ends (catAll rs) st, st' ∈ ends (catAll rs') u := by
  induction rs generalizing st with
  | nil => simp [catAll, ends]
  | cons r rs ih =>
      simp only [List.cons_append, catAll, mem_ends_cat, ih]
      constructor
      · rintro ⟨u, hu, v, hv, hst'⟩
        exact ⟨v, ⟨u, hu, hv⟩, hst'⟩
      · rintro ⟨v, ⟨u, hu, hv⟩, hst'⟩
        exact ⟨u, hu, v, hv, hst'⟩

theorem mem_ends_catAll_singleton {r : Regex} : st' ∈ ends (catAll [r]) st ↔ st' ∈ ends r st := by
  simp [catAll, ends]

theorem mem_ends_altAll {rs : List Regex} (h : rs ≠ []) :
    st' ∈ ends (altAll rs) st ↔ ∃ r ∈ rs, st' ∈ ends r st := by
  induction rs with
  | nil => exact absurd rfl h
  | cons r rs ih =>
      cases rs with
      | nil => simp [altAll]
      | cons r' rs =>
          rw [altAll, ends, List.mem_append, ih (by simp)]
          · simp
          · simp

theorem mem_ends_lit {c : Char} : st' ∈ ends (lit c) st ↔ ∃ t, st.rest = c :: t ∧ st' = st.skip 1 := by
  rw [ends, mem_endsChar]
  constructor
  · rintro ⟨c', t, hrest, htest, hst'⟩
    obtain rfl : c' = c := by simpa using htest
    exact ⟨t, hrest, hst'⟩
  · rintro ⟨t, hrest, hst'⟩
    exact ⟨c, t, hrest, by simp, hst'⟩

theorem mem_ends_lits {s : List Char} :
    st' ∈ ends (catAll (s.map lit)) st ↔ s <+: st.rest ∧ st' = st.skip s.length := by
  induction s generalizing st with
  | nil => simp [catAll, ends]
  | cons c s ih =>
      simp only [List.map_cons, catAll, mem_ends_cat, ih, mem_ends_lit]
      constructor
      · rintro ⟨u, ⟨t, hrest, rfl⟩, hs, rfl⟩
        rw [State.skip_rest, hrest, List.drop_one, List.tail_cons] at hs
        rw [hrest, List.prefix_cons_inj, State.skip_skip, List.length_cons, Nat.add_comm]
        exact ⟨hs, rfl⟩
      · rintro ⟨⟨t, ht⟩, rfl⟩
        refine ⟨st.skip 1, ⟨s ++ t, ht.symm, rfl⟩, ?_, ?_⟩
        · rw [State.skip_rest, ← ht]
          exact List.prefix_append s t
        · rw [State.skip_skip, List.length_cons, Nat.add_comm]

/-- Repetitions of a character. -/
theorem mem_endsStar_char {test : Char → Bool} {n : ℕ} (hn : st.rest.length ≤ n) :
    st' ∈ endsStar (endsChar test) n st ↔
      ∃ x, (∀ c ∈ x, test c = true) ∧ x <+: st.rest ∧ st' = st.skip x.length := by
  induction n generalizing st with
  | zero =>
      have hrest : st.rest = [] := List.length_eq_zero_iff.mp (by omega)
      simp only [endsStar, List.mem_singleton, hrest, List.prefix_nil]
      constructor
      · rintro rfl
        exact ⟨[], by simp, rfl, by simp⟩
      · rintro ⟨x, -, rfl, rfl⟩
        simp
  | succ n ih =>
      simp only [endsStar, List.mem_append, List.mem_flatMap, List.mem_filter, mem_endsChar,
        decide_eq_true_eq, List.mem_singleton]
      constructor
      · rintro (⟨u, ⟨⟨c, t, hrest, htest, rfl⟩, -⟩, hu⟩ | rfl)
        · have hskip : (st.skip 1).rest = t := by simp [hrest]
          rw [ih (by rw [hskip]; simpa [hrest] using hn), hskip] at hu
          obtain ⟨x, hx, hprefix, rfl⟩ := hu
          refine ⟨c :: x, ?_, ?_, ?_⟩
          · intro c' hc'
            rcases List.mem_cons.mp hc' with rfl | hc'
            · exact htest
            · exact hx c' hc'
          · rw [hrest, List.prefix_cons_inj]
            exact hprefix
          · rw [State.skip_skip, List.length_cons, Nat.add_comm]
        · exact ⟨[], by simp, List.nil_prefix, by simp⟩
      · rintro ⟨x, hx, ⟨t, ht⟩, rfl⟩
        cases x with
        | nil => exact .inr (by simp)
        | cons c x =>
            have hskip : (st.skip 1).rest = x ++ t := by simp [← ht]
            refine .inl ⟨st.skip 1, ⟨⟨c, x ++ t, ht.symm, hx c (by simp), rfl⟩, ?_⟩, ?_⟩
            · rw [hskip, ← ht]
              simp
            · rw [ih (by rw [hskip]; simpa [← ht] using hn), hskip]
              exact ⟨x, fun c' hc' => hx c' (by simp [hc']), List.prefix_append x t,
                by rw [State.skip_skip, List.length_cons, Nat.add_comm]⟩

theorem mem_ends_star_any : st' ∈ ends (star any) st ↔
    ∃ x, '\n' ∉ x ∧ x <+: st.rest ∧ st' = st.skip x.length := by
  have hany : ends any = endsChar (· != '\n') := by
    ext st
    rw [ends]
  rw [ends, hany, mem_endsStar_char le_rfl]
  simp only [bne_iff_ne, ne_eq]
  constructor
  · rintro ⟨x, hx, h⟩
    exact ⟨x, fun hmem => hx _ hmem rfl, h⟩
  · rintro ⟨x, hx, h⟩
    exact ⟨x, fun c hc heq => hx (heq ▸ hc), h⟩

/-- A text of digits. -/
def IsDigits (s : List Char) : Prop := s ≠ [] ∧ ∀ c ∈ s, isDigit c = true

theorem mem_ends_plus_digit : st' ∈ ends (plus digit) st ↔
    ∃ x, IsDigits x ∧ x <+: st.rest ∧ st' = st.skip x.length := by
  simp only [ends, List.mem_flatMap, mem_endsChar, mem_endsStar_char le_rfl]
  constructor
  · rintro ⟨u, ⟨c, t, hrest, hc, rfl⟩, x, hx, hprefix, rfl⟩
    have hskip : (st.skip 1).rest = t := by simp [hrest]
    rw [hskip] at hprefix
    refine ⟨c :: x, ⟨by simp, ?_⟩, ?_, ?_⟩
    · intro c' hc'
      rcases List.mem_cons.mp hc' with rfl | hc'
      · exact hc
      · exact hx c' hc'
    · rw [hrest, List.prefix_cons_inj]
      exact hprefix
    · rw [State.skip_skip, List.length_cons, Nat.add_comm]
  · rintro ⟨x, ⟨hne, hx⟩, ⟨t, ht⟩, rfl⟩
    cases x with
    | nil => exact absurd rfl hne
    | cons c x =>
        have hskip : (st.skip 1).rest = x ++ t := by simp [← ht]
        refine ⟨st.skip 1, ⟨c, x ++ t, ht.symm, hx c (by simp), rfl⟩, x, ?_, ?_, ?_⟩
        · exact fun c' hc' => hx c' (by simp [hc'])
        · rw [hskip]
          exact List.prefix_append x t
        · rw [State.skip_skip, List.length_cons, Nat.add_comm]

/-- Where a group ends is where its expression does. -/
theorem exists_mem_ends_group {n : ℕ} {a : Regex} {P : List Char → Prop} :
    (∃ u ∈ ends (group n a) st, P u.rest) ↔ ∃ u ∈ ends a st, P u.rest := by
  simp [ends]

theorem mem_ends_quest {a : Regex} : st' ∈ ends (quest a) st ↔ st' ∈ ends a st ∨ st' = st := by
  simp [ends]

theorem mem_ends_endText : st' ∈ ends endText st ↔ st.rest = [] ∧ st' = st := by
  rw [ends]
  split
  · simp [*]
  · simp [*]

/-- One more repetition in front. -/
theorem mem_ends_star_of_mem {a : Regex} {u : State} (hu : u ∈ ends a st)
    (hlt : u.rest.length < st.rest.length) (h : st' ∈ ends (star a) u) : st' ∈ ends (star a) st := by
  have hmono {n m : ℕ} {st st' : State} (hnm : n ≤ m) (h : st' ∈ endsStar (ends a) n st) :
      st' ∈ endsStar (ends a) m st := by
    induction n generalizing m st with
    | zero =>
        obtain rfl := List.mem_singleton.mp h
        cases m with
        | zero => simp [endsStar]
        | succ m => simp [endsStar]
    | succ n ih =>
        obtain ⟨m, rfl⟩ : ∃ k, m = k + 1 := ⟨m - 1, by omega⟩
        rw [endsStar, List.mem_append, List.mem_flatMap] at h ⊢
        rcases h with ⟨v, hv, h⟩ | h
        · exact .inl ⟨v, hv, ih (by omega) h⟩
        · exact .inr h
  rw [ends] at h ⊢
  obtain ⟨n, hn⟩ : ∃ n, st.rest.length = n + 1 := ⟨st.rest.length - 1, by omega⟩
  rw [hn, endsStar, List.mem_append, List.mem_flatMap]
  refine .inl ⟨u, ?_, hmono (by omega) h⟩
  rw [List.mem_filter]
  exact ⟨hu, by simpa using hlt⟩

theorem mem_ends_star_self {a : Regex} : st ∈ ends (star a) st := by
  rw [ends]
  cases st.rest.length with
  | zero => simp [endsStar]
  | succ n => simp [endsStar]

end Ends

/-! ### What a match reads -/

/-- The characters that an expression may read. -/
def reads : Regex → Char → Bool
  | empty, _ => false
  | lit c, x => x == c
  | any, x => x != '\n'
  | digit, x => isDigit x
  | beginText, _ => false
  | endText, _ => false
  | cat a b, x => reads a x || reads b x
  | alt a b, x => reads a x || reads b x
  | star a, x => reads a x
  | plus a, x => reads a x
  | quest a, x => reads a x
  | group _ a, x => reads a x

/-- The numbers of the groups in an expression. -/
def groups : Regex → List ℕ
  | cat a b => groups a ++ groups b
  | alt a b => groups a ++ groups b
  | star a => groups a
  | plus a => groups a
  | quest a => groups a
  | group n a => n :: groups a
  | _ => []

/-- From one place to another over characters that pass a test, with groups of a list closed. -/
def Goes (test : Char → Bool) (gs : List ℕ) (st st' : State) : Prop :=
  ∃ x caps, st.rest = x ++ st'.rest ∧ (∀ c ∈ x, test c = true) ∧
    st'.caps = caps ++ st.caps ∧ ∀ e ∈ caps, e.1 ∈ gs

namespace Goes

variable {test test' : Char → Bool} {gs gs' : List ℕ} {st st' st'' : State}

theorem refl (st : State) : Goes test gs st st := ⟨[], [], by simp⟩

theorem trans (h : Goes test gs st st') (h' : Goes test gs st' st'') : Goes test gs st st'' := by
  obtain ⟨x, caps, hrest, hx, hcaps, hgs⟩ := h
  obtain ⟨x', caps', hrest', hx', hcaps', hgs'⟩ := h'
  refine ⟨x ++ x', caps' ++ caps, by simp [hrest, hrest'], ?_, by simp [hcaps, hcaps'], ?_⟩
  · intro c hc
    exact (List.mem_append.mp hc).elim (hx c) (hx' c)
  · intro e he
    exact (List.mem_append.mp he).elim (hgs' e) (hgs e)

theorem mono (h : Goes test gs st st') (htest : ∀ c, test c = true → test' c = true)
    (hgs : gs ⊆ gs') : Goes test' gs' st st' := by
  obtain ⟨x, caps, hrest, hx, hcaps, hmem⟩ := h
  exact ⟨x, caps, hrest, fun c hc => htest c (hx c hc), hcaps, fun e he => hgs (hmem e he)⟩

theorem endsChar (h : st' ∈ endsChar test st) : Goes test gs st st' := by
  rw [Regex.endsChar] at h
  split at h
  · simp at h
  · rename_i c t hrest
    split at h
    · rename_i hc
      obtain rfl := List.mem_singleton.mp h
      exact ⟨[c], [], by simp [hrest], by simpa using hc, by simp, by simp⟩
    · simp at h

theorem endsStar {next : State → List State} (hnext : ∀ st, ∀ st' ∈ next st, Goes test gs st st')
    {n : ℕ} (h : st' ∈ endsStar next n st) : Goes test gs st st' := by
  induction n generalizing st with
  | zero =>
      obtain rfl := List.mem_singleton.mp h
      exact refl _
  | succ n ih =>
      rcases List.mem_append.mp h with h | h
      · obtain ⟨u, hu, h⟩ := List.mem_flatMap.mp h
        exact (hnext st u (List.mem_filter.mp hu).1).trans (ih h)
      · obtain rfl := List.mem_singleton.mp h
        exact refl _

end Goes

/-- A match reads only what the expression names. -/
theorem goes_of_mem_ends {re : Regex} {st st' : State} (h : st' ∈ ends re st) :
    Goes (reads re) (groups re) st st' := by
  induction re generalizing st st' with
  | empty =>
      obtain rfl := List.mem_singleton.mp h
      exact Goes.refl _
  | lit c => exact Goes.endsChar h
  | any => exact Goes.endsChar h
  | digit => exact Goes.endsChar h
  | beginText =>
      rw [ends] at h
      split at h
      · obtain rfl := List.mem_singleton.mp h
        exact Goes.refl _
      · simp at h
  | endText =>
      rw [ends] at h
      split at h
      · obtain rfl := List.mem_singleton.mp h
        exact Goes.refl _
      · simp at h
  | cat a b iha ihb =>
      obtain ⟨u, hu, h⟩ := List.mem_flatMap.mp h
      exact ((iha hu).mono (by simp +contextual [reads]) (by simp [groups])).trans
        ((ihb h).mono (by simp +contextual [reads]) (by simp [groups]))
  | alt a b iha ihb =>
      rcases List.mem_append.mp h with h | h
      · exact (iha h).mono (by simp +contextual [reads]) (by simp [groups])
      · exact (ihb h).mono (by simp +contextual [reads]) (by simp [groups])
  | star a ih => exact Goes.endsStar (fun _ _ => ih) h
  | plus a ih =>
      obtain ⟨u, hu, h⟩ := List.mem_flatMap.mp h
      exact (ih hu).trans (Goes.endsStar (fun _ _ => ih) h)
  | quest a ih =>
      rcases List.mem_append.mp h with h | h
      · exact ih h
      · obtain rfl := List.mem_singleton.mp h
        exact Goes.refl _
  | group n a ih =>
      obtain ⟨u, hu, rfl⟩ := List.mem_map.mp h
      obtain ⟨x, caps, hrest, hx, hcaps, hgs⟩ := ih hu
      refine ⟨x, _ :: caps, hrest, hx, by rw [hcaps]; rfl, ?_⟩
      intro e he
      rcases List.mem_cons.mp he with rfl | he
      · simp [groups]
      · exact List.mem_cons_of_mem _ (hgs e he)

theorem exists_of_mem_ends_group {n : ℕ} {a : Regex} {st st' : State}
    (h : st' ∈ ends (group n a) st) : ∃ x caps, st.rest = x ++ st'.rest ∧
      (∀ c ∈ x, reads a c = true) ∧ st'.caps = (n, x) :: (caps ++ st.caps) ∧
        ∀ e ∈ caps, e.1 ∈ groups a := by
  obtain ⟨u, hu, rfl⟩ := List.mem_map.mp h
  obtain ⟨x, caps, hrest, hx, hcaps, hgs⟩ := goes_of_mem_ends hu
  refine ⟨x, caps, hrest, hx, ?_, hgs⟩
  have htake : st.rest.take (st.rest.length - u.rest.length) = x := by
    rw [hrest, List.length_append, Nat.add_sub_cancel]
    exact List.take_left' rfl
  change (n, _) :: u.caps = _
  rw [htake, hcaps]

/-! ### Leftmost matches -/

/-- The search goes on at the next place where there is no match. -/
theorem findFrom_append {re : Regex} {s t : List Char} {pos : ℕ}
    (h : ∀ u v, s = u ++ v → v ≠ [] → ends re ⟨pos + u.length, v ++ t, []⟩ = []) :
    findFrom re pos (s ++ t) = findFrom re (pos + s.length) t := by
  induction s generalizing pos with
  | nil => rfl
  | cons c s ih =>
      have hhere : ends re ⟨pos, c :: (s ++ t), []⟩ = [] := h [] (c :: s) rfl (by simp)
      rw [List.cons_append, findFrom, hhere]
      change findFrom re (pos + 1) (s ++ t) = _
      rw [ih, List.length_cons, Nat.add_assoc, Nat.add_comm 1]
      intro u v huv hv
      have := h (c :: u) v (by simp [huv]) hv
      rwa [List.length_cons, Nat.add_comm u.length, ← Nat.add_assoc] at this

theorem findFrom_eq_none {re : Regex} {s : List Char} {pos : ℕ}
    (h : ∀ u v, s = u ++ v → ends re ⟨pos + u.length, v, []⟩ = []) : findFrom re pos s = none := by
  have hnil := h s [] (by simp)
  have happend := @findFrom_append re s [] pos fun u v huv _ => by
    rw [List.append_nil]
    exact h u v huv
  rw [List.append_nil] at happend
  rw [happend, findFrom, hnil]
  rfl

/-- An expression that begins at the beginning of the text. -/
theorem matchString_iff_of_beginText {re : Regex}
    (h : ∀ st st', st' ∈ ends re st → st.pos = 0) (s : List Char) :
    matchString re s = true ↔ ∃ st', st' ∈ ends re ⟨0, s, []⟩ := by
  have hlater (pos : ℕ) (hpos : pos ≠ 0) (s : List Char) : findFrom re pos s = none := by
    apply findFrom_eq_none
    rintro u v -
    rw [List.eq_nil_iff_forall_not_mem]
    intro st' hst'
    have := h _ _ hst'
    simp only at this
    omega
  rw [matchString, findFrom.eq_def]
  cases hends : ends re ⟨0, s, []⟩ with
  | cons st sts => exact iff_of_true rfl ⟨st, by simp⟩
  | nil =>
      refine iff_of_false ?_ (by simp)
      cases s with
      | nil => simp
      | cons c t =>
          change ¬ (findFrom re 1 t).isSome = true
          rw [hlater 1 (by omega)]
          simp

end Regex

end Higress.Lib
