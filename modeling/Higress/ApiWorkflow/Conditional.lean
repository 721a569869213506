import Higress.Lib.Runes
import Higress.Lib.Scan
import Mathlib.Data.List.TakeWhile

/-!
The conditionals of a workflow. The innermost groups of a text are evaluated and replaced by `true`
or `false` wherever they occur, and the text that this leaves is evaluated again: it has three fields
then, an operator and two operands, or it goes through the same once more.
-/

namespace Higress.ApiWorkflow.Conditional

open Lib Lib.Runes

/-! ### Operators -/

inductive Operator
  | eq
  | ne
  | ge
  | le
  | gt
  | lt
  | and
  | or
  | contain
deriving DecidableEq

namespace Operator

def name : Operator → Runes
  | eq => ofString "eq"
  | ne => ofString "ne"
  | ge => ofString "ge"
  | le => ofString "le"
  | gt => ofString "gt"
  | lt => ofString "lt"
  | and => ofString "and"
  | or => ofString "or"
  | contain => ofString "contain"

end Operator

/-- `strconv.ParseFloat` and the comparisons of what it returns. -/
structure Floats (F : Type) where
  parseFloat : Runes → Option F
  ge : F → F → Bool
  le : F → F → Bool
  gt : F → F → Bool
  lt : F → F → Bool

/-- `strconv.ParseBool`. -/
def parseBool (s : Runes) : Option Bool :=
  if s ∈ ["1", "t", "T", "TRUE", "true", "True"].map ofString then some true
  else if s ∈ ["0", "f", "F", "FALSE", "false", "False"].map ofString then some false
  else none

def boolText (b : Bool) : Runes := if b then ofString "true" else ofString "false"

section Evaluation

variable {F : Type} (floats : Floats F)

/-- A comparison of two numbers. -/
def compareFloats (compare : F → F → Bool) (a b : Runes) : Option Bool := do
  let x ← floats.parseFloat a
  let y ← floats.parseFloat b
  some (compare x y)

def combineBools (combine : Bool → Bool → Bool) (a b : Runes) : Option Bool := do
  let x ← parseBool a
  let y ← parseBool b
  some (combine x y)

/-- What the documentation says of an operator; `none` where an operand is not of its type. -/
def Operator.eval : Operator → Runes → Runes → Option Bool
  | eq, a, b => some (a = b)
  | ne, a, b => some (a ≠ b)
  | ge, a, b => compareFloats floats floats.ge a b
  | le, a, b => compareFloats floats floats.le a b
  | gt, a, b => compareFloats floats floats.gt a b
  | lt, a, b => compareFloats floats floats.lt a b
  | and, a, b => combineBools Bool.and a b
  | or, a, b => combineBools Bool.or a b
  | contain, a, b => some (contains a b)

/-- The map `operators`. It has no entry for `ne`. -/
def operators (name : Runes) : Option Operator :=
  [Operator.eq, .ge, .le, .gt, .lt, .and, .or, .contain].find? (·.name = name)

/-! ### The code -/

def isParen (c : Rune) : Bool := c = .char '(' || c = .char ')'

def groupText (inner : Runes) : Runes := .char '(' :: (inner ++ [.char ')'])

/-- The match of `\(([^()]*)\)` at the beginning of a text. -/
def groupAt : Runes → Option (Runes × Runes)
  | [] => none
  | c :: s =>
      if c = .char '(' then
        match s.dropWhile (!isParen ·) with
        | [] => none
        | d :: rest => if d = .char ')' then some (s.takeWhile (!isParen ·), rest) else none
      else none

theorem groupAt_eq {s inner rest : Runes} (h : groupAt s = some (inner, rest)) :
    s = groupText inner ++ rest ∧ ∀ c ∈ inner, isParen c = false := by
  cases s with
  | nil => simp [groupAt] at h
  | cons c s =>
      rw [groupAt] at h
      split at h
      · rename_i hc
        split at h
        · simp at h
        · rename_i d rest' hdrop
          split at h
          · rename_i hd
            simp only [Option.some.injEq, Prod.mk.injEq] at h
            obtain ⟨rfl, rfl⟩ := h
            constructor
            · rw [hc, groupText, List.cons_append, List.append_assoc, List.singleton_append, ← hd,
                ← hdrop, List.takeWhile_append_dropWhile]
            · intro x hx
              simpa using List.mem_takeWhile_imp hx
          · simp at h
      · simp at h

/-- The innermost groups. -/
def groups : Matcher Rune Runes where
  matchAt := groupAt
  text := groupText
  text_ne_nil _ := by simp [groupText]
  matchAt_eq h := (groupAt_eq h).1

theorem groups_matchAt (s : Runes) : groups.matchAt s = groupAt s := rfl

/-- A text that is looked for as it stands. -/
def literal (c : Rune) (t : Runes) : Matcher Rune Unit where
  matchAt s := if (c :: t).isPrefixOf s then some ((), s.drop (t.length + 1)) else none
  text _ := c :: t
  text_ne_nil _ := by simp
  matchAt_eq := by
    intro s a rest h
    split at h
    · rename_i hstart
      obtain ⟨rest', rfl⟩ := List.isPrefixOf_iff_prefix.mp hstart
      simp only [Option.some.injEq, Prod.mk.injEq] at h
      rw [← h.2]
      simp
    · simp at h

/-- `strings.ReplaceAll` of a group. -/
def replaceGroup (s inner new : Runes) : Runes :=
  (literal (.char '(') (inner ++ [.char ')'])).replaceAll (fun _ => new) s

/-- `fmt.Errorf("invalid conditional func %v", nil)`. -/
def invalidFunc : Runes := ofString "invalid conditional func <nil>"

def invalidStr (s : Runes) : Runes := ofString "invalid conditional str " ++ s

/-- The loop over the innermost groups; `none` where a call of `run` does not return. -/
def replaceGroups (run : Runes → Option (Except Runes Bool)) :
    List Runes → Runes → Option (Except Runes Runes)
  | [], s => some (.ok s)
  | inner :: rest, s =>
      match run inner with
      | none => none
      | some (.error e) => some (.error e)
      | some (.ok result) => replaceGroups run rest (replaceGroup s inner (boolText result))

/-- Three fields: an operator and its operands. -/
def applyFields (s name a b : Runes) : Except Runes Bool :=
  match operators name with
  | none => .error invalidFunc
  | some op =>
      match op.eval floats a b with
      | some result => .ok result
      | none => .error (invalidStr s)

/-- What is done with a text whose innermost groups have been replaced. -/
def finish (run : Runes → Option (Except Runes Bool)) (s : Runes) : Option (Except Runes Bool) :=
  match fields s with
  | [name, a, b] => some (applyFields floats s name a b)
  | _ => if s.any isParen then run s else some (.error (invalidStr s))

/-- `ExecConditionalStr` with a bound on the depth of its calls; `none` is a bound that is too
small. -/
def execConditionalStr : ℕ → Runes → Option (Except Runes Bool)
  | 0, _ => none
  | n + 1, s =>
      match replaceGroups (execConditionalStr n) (groups.findAll s) s with
      | none => none
      | some (.error e) => some (.error e)
      | some (.ok s) => finish floats (execConditionalStr n) s

/-- A call that returns. -/
def Returns (s : Runes) (r : Except Runes Bool) : Prop := ∃ n, execConditionalStr floats n s = some r

end Evaluation

/-! ### Groups in a text -/

section Groups

variable {inner s rest new : Runes}

/-- A text without parentheses. -/
def IsFlat (s : Runes) : Prop := ∀ c ∈ s, isParen c = false

instance decidableIsFlat (s : Runes) : Decidable (IsFlat s) :=
  inferInstanceAs (Decidable (∀ c ∈ s, isParen c = false))

theorem groupAt_groupText (h : IsFlat inner) (rest : Runes) :
    groupAt (groupText inner ++ rest) = some (inner, rest) := by
  have hstop : (inner ++ .char ')' :: rest).dropWhile (!isParen ·) = .char ')' :: rest := by
    rw [List.dropWhile_append_of_pos fun c hc => by simp [h c hc], List.dropWhile_cons_of_neg (by decide)]
  have htake : (inner ++ .char ')' :: rest).takeWhile (!isParen ·) = inner := by
    rw [List.takeWhile_append_of_pos fun c hc => by simp [h c hc], List.takeWhile_cons_of_neg (by decide),
      List.append_nil]
  simp only [groupText, List.cons_append, List.append_assoc, List.nil_append, groupAt]
  rw [hstop, htake]
  rfl

theorem isFlat_of_mem_findAll {t : Runes} (h : t ∈ groups.findAll s) : IsFlat t := by
  induction s using groups.scan_induction with
  | hnil => simp [Matcher.findAll] at h
  | hhit s a rest hmatch ih =>
      rw [Matcher.findAll_of_match hmatch] at h
      rcases List.mem_cons.mp h with rfl | h
      · exact (groupAt_eq hmatch).2
      · exact ih h
  | hmiss c s hmatch ih =>
      rw [Matcher.findAll_of_none hmatch] at h
      exact ih h

theorem groupAt_of_ne {c : Rune} (hc : c ≠ .char '(') (s : Runes) : groupAt (c :: s) = none := by
  rw [groupAt, if_neg hc]

theorem findAll_of_isFlat (h : IsFlat s) : groups.findAll s = [] := by
  induction s with
  | nil => rfl
  | cons c s ih =>
      have hc : c ≠ .char '(' := by
        rintro rfl
        exact absurd (h (.char '(') (by simp)) (by decide)
      rw [Matcher.findAll_of_none (show groups.matchAt _ = none from groupAt_of_ne hc s)]
      exact ih fun d hd => h d (by simp [hd])

theorem replaceGroup_of_ne {c : Rune} (hc : c ≠ .char '(') (s : Runes) :
    replaceGroup (c :: s) inner new = c :: replaceGroup s inner new := by
  apply Matcher.replaceAll_of_none
  simp [literal, Ne.symm hc]

/-- Text without an opening parenthesis is passed. -/
theorem replaceGroup_append {x : Runes} (hx : ∀ c ∈ x, c ≠ .char '(') (s : Runes) :
    replaceGroup (x ++ s) inner new = x ++ replaceGroup s inner new := by
  induction x with
  | nil => rfl
  | cons c x ih =>
      rw [List.cons_append, replaceGroup_of_ne (hx c (by simp)), ih fun d hd => hx d (by simp [hd])]
      rfl

/-- What is put in the place of each group when one text is replaced. -/
def replacement (inner new a : Runes) : Runes := if a = inner then new else groupText a

/-- To replace the text of a group is to replace the groups of this text. -/
theorem replaceGroup_eq (h : IsFlat inner) (s : Runes) :
    replaceGroup s inner new = groups.replaceAll (replacement inner new) s := by
  induction s using groups.scan_induction with
  | hnil => rfl
  | hhit s a rest hmatch ih =>
      obtain ⟨hs, hflat⟩ := groupAt_eq hmatch
      rw [Matcher.replaceAll_of_match hmatch, ← ih, replacement]
      have hstart : s = .char '(' :: (a ++ .char ')' :: rest) := by simp [hs, groupText]
      split
      · rename_i ha
        subst ha
        have hprefix : .char '(' :: (a ++ [.char ')']) <+: .char '(' :: (a ++ .char ')' :: rest) :=
          ⟨rest, by simp⟩
        have hhit : (literal (.char '(') (a ++ [.char ')'])).matchAt s = some ((), rest) := by
          rw [hstart]
          simp only [literal]
          rw [if_pos (List.isPrefixOf_iff_prefix.mpr hprefix)]
          simp
        exact Matcher.replaceAll_of_match hhit
      · rename_i ha
        have hmiss : (literal (.char '(') (inner ++ [.char ')'])).matchAt s = none := by
          rw [hstart]
          simp only [literal, List.isPrefixOf_iff_prefix, ite_eq_right_iff, reduceCtorEq, imp_false]
          rintro ⟨r, hr⟩
          have hgroup := groupAt_groupText h r
          have hsame : groupText inner ++ r = s := by
            rw [hstart, ← hr]
            rfl
          rw [hsame, show groupAt s = some (a, rest) from hmatch] at hgroup
          simp only [Option.some.injEq, Prod.mk.injEq] at hgroup
          exact ha hgroup.1
        have hpass : ∀ c ∈ a ++ [.char ')'], c ≠ .char '(' := by
          intro c hc hopen
          subst hopen
          rcases List.mem_append.mp hc with hc | hc
          · exact absurd (hflat _ hc) (by decide)
          · simp at hc
        rw [hstart] at hmiss ⊢
        have hfirst : replaceGroup (.char '(' :: (a ++ .char ')' :: rest)) inner new =
            .char '(' :: replaceGroup (a ++ .char ')' :: rest) inner new :=
          Matcher.replaceAll_of_none hmiss
        have hrest := @replaceGroup_append inner new _ hpass rest
        rw [List.append_assoc, List.singleton_append] at hrest
        rw [hfirst, hrest]
        simp [groupText]
  | hmiss c s hmatch ih =>
      rw [Matcher.replaceAll_of_none hmatch, ← ih]
      apply Matcher.replaceAll_of_none
      simp only [literal, List.isPrefixOf_iff_prefix, ite_eq_right_iff, reduceCtorEq, imp_false]
      rintro ⟨r, hr⟩
      have hgroup := groupAt_groupText h r
      have hsame : groupText inner ++ r = c :: s := by
        rw [← hr]
        rfl
      rw [hsame, show groupAt (c :: s) = none from hmatch] at hgroup
      simp at hgroup

/-- How many parentheses a text has. -/
def parens (s : Runes) : ℕ := s.countP isParen

theorem parens_eq_zero (h : IsFlat s) : parens s = 0 := by
  rw [parens, List.countP_eq_zero]
  intro c hc
  simp [h c hc]

theorem parens_groupText (inner : Runes) : parens (groupText inner) = parens inner + 2 := by
  simp [parens, groupText, List.countP_cons, List.countP_append, isParen]

theorem parens_replacement (hnew : IsFlat new) (a : Runes) :
    parens (replacement inner new a) ≤ parens (groupText a) := by
  rw [replacement]
  split
  · rw [parens_eq_zero hnew]
    exact Nat.zero_le _
  · exact le_rfl

/-- A replacement leaves no more parentheses, and fewer where the group occurs. -/
theorem parens_replaceGroup (h : IsFlat inner) (hnew : IsFlat new) (s : Runes) :
    parens (replaceGroup s inner new) ≤ parens s ∧
      (inner ∈ groups.findAll s → parens (replaceGroup s inner new) < parens s) := by
  rw [replaceGroup_eq h]
  induction s using groups.scan_induction with
  | hnil => simp [Matcher.findAll, Matcher.replaceAll_nil]
  | hhit s a rest hmatch ih =>
      obtain ⟨hs, -⟩ := groupAt_eq hmatch
      have hcount : parens s = parens (groupText a) + parens rest := by
        rw [hs, parens, parens, parens, List.countP_append]
      rw [Matcher.replaceAll_of_match hmatch, Matcher.findAll_of_match hmatch, hcount]
      have happend (x y : Runes) : parens (x ++ y) = parens x + parens y := List.countP_append
      rw [happend]
      have hle := @parens_replacement inner new hnew a
      refine ⟨by omega, fun hmem => ?_⟩
      rcases List.mem_cons.mp hmem with rfl | hmem
      · have hzero : parens (replacement inner new inner) = 0 := by
          rw [replacement, if_pos rfl, parens_eq_zero hnew]
        rw [parens_groupText, hzero]
        omega
      · have := ih.2 hmem
        omega
  | hmiss c s hmatch ih =>
      rw [Matcher.replaceAll_of_none hmatch, Matcher.findAll_of_none hmatch]
      have hcons (x : Runes) : parens (c :: x) = parens x + parens [c] := by
        simp [parens, List.countP_cons]
      rw [hcons, hcons s]
      exact ⟨by omega, fun hmem => by have := ih.2 hmem; omega⟩

end Groups

/-! ### One round -/

section Rounds

variable {F : Type} (floats : Floats F)

/-- The value of a text without parentheses. -/
def flatValue (s : Runes) : Except Runes Bool :=
  match fields s with
  | [name, a, b] => applyFields floats s name a b
  | _ => .error (invalidStr s)

def collapseFrom : List Runes → Runes → Except Runes Runes
  | [], s => .ok s
  | inner :: rest, s =>
      match flatValue floats inner with
      | .error e => .error e
      | .ok result => collapseFrom rest (replaceGroup s inner (boolText result))

/-- A text with its innermost groups replaced by their values. -/
def collapse (s : Runes) : Except Runes Runes := collapseFrom floats (groups.findAll s) s

/-- A text at which the rewriting gets stuck: all groups have values, and when they have been
replaced from the inside out there are parentheses left; no text on the way has three fields. -/
inductive Stuck : Runes → Prop
  | stray {s : Runes} (hgroups : groups.findAll s = []) (hparen : s.any isParen = true)
      (hfields : (fields s).length ≠ 3) : Stuck s
  | round {s s' : Runes} (hgroups : groups.findAll s ≠ []) (hcollapse : collapse floats s = .ok s')
      (hfields : (fields s').length ≠ 3) (h : Stuck s') : Stuck s

variable {floats} {s s' : Runes}

theorem isFlat_boolText (b : Bool) : IsFlat (boolText b) := by
  cases b with
  | false => simp [IsFlat, boolText, ofString, isParen]
  | true => simp [IsFlat, boolText, ofString, isParen]

theorem any_isParen_eq_false (h : IsFlat s) : s.any isParen = false := by
  rw [List.any_eq_false]
  intro c hc
  simp [h c hc]

theorem finish_of_three {run : Runes → Option (Except Runes Bool)} (h : (fields s).length = 3) :
    ∃ r, finish floats run s = some r := by
  obtain ⟨name, a, b, hfields⟩ := List.length_eq_three.mp h
  exact ⟨_, by rw [finish, hfields]⟩

theorem finish_of_ne_three {run : Runes → Option (Except Runes Bool)} (h : (fields s).length ≠ 3) :
    finish floats run s = if s.any isParen then run s else some (.error (invalidStr s)) := by
  rw [finish]
  split
  · rename_i hfields
    simp [hfields] at h
  · rfl

theorem execConditionalStr_of_isFlat (h : IsFlat s) (n : ℕ) :
    execConditionalStr floats (n + 1) s = some (flatValue floats s) := by
  rw [execConditionalStr, findAll_of_isFlat h]
  simp only [replaceGroups, finish, any_isParen_eq_false h, flatValue]
  split
  · rfl
  · simp

theorem replaceGroups_eq {run : Runes → Option (Except Runes Bool)} {ts : List Runes}
    (h : ∀ t ∈ ts, run t = some (flatValue floats t)) (s : Runes) :
    replaceGroups run ts s = some (collapseFrom floats ts s) := by
  induction ts generalizing s with
  | nil => rfl
  | cons t ts ih =>
      rw [replaceGroups, h t (by simp), collapseFrom]
      cases flatValue floats t with
      | error e => rfl
      | ok b => exact ih (fun t' ht' => h t' (by simp [ht'])) _

/-- A call: one round, and what is left. -/
theorem execConditionalStr_eq (n : ℕ) (s : Runes) :
    execConditionalStr floats (n + 2) s =
      match collapse floats s with
      | .error e => some (.error e)
      | .ok s' => finish floats (execConditionalStr floats (n + 1)) s' := by
  rw [execConditionalStr, replaceGroups_eq fun t ht =>
    execConditionalStr_of_isFlat (isFlat_of_mem_findAll ht) n]
  rw [collapse]
  cases collapseFrom floats (groups.findAll s) s with
  | error e => rfl
  | ok s' => rfl

theorem collapse_of_no_groups (h : groups.findAll s = []) : collapse floats s = .ok s := by
  rw [collapse, h]
  rfl

theorem parens_collapseFrom {ts : List Runes} (hts : ∀ t ∈ ts, IsFlat t)
    (h : collapseFrom floats ts s = .ok s') : parens s' ≤ parens s := by
  induction ts generalizing s with
  | nil =>
      obtain rfl : s = s' := by simpa [collapseFrom] using h
      exact le_rfl
  | cons t ts ih =>
      rw [collapseFrom] at h
      split at h
      · simp at h
      · exact (ih (fun t' ht' => hts t' (by simp [ht'])) h).trans
          (parens_replaceGroup (hts t (by simp)) (isFlat_boolText _) s).1

/-- A round with a group leaves fewer parentheses. -/
theorem parens_collapse (hgroups : groups.findAll s ≠ []) (h : collapse floats s = .ok s') :
    parens s' < parens s := by
  obtain ⟨t, ts, hts⟩ := List.exists_cons_of_ne_nil hgroups
  have hflat (t' : Runes) (ht' : t' ∈ t :: ts) : IsFlat t' :=
    isFlat_of_mem_findAll (hts ▸ ht')
  rw [collapse, hts, collapseFrom] at h
  split at h
  · simp at h
  · exact (parens_collapseFrom (fun t' ht' => hflat t' (by simp [ht'])) h).trans_lt
      ((parens_replaceGroup (hflat t (by simp)) (isFlat_boolText _) s).2 (by simp [hts]))

/-! ### Termination -/

theorem any_isParen_of_groups (h : groups.findAll s ≠ []) : s.any isParen = true := by
  by_contra hany
  apply h
  apply findAll_of_isFlat
  intro c hc
  by_contra hparen
  exact hany (List.any_eq_true.mpr ⟨c, hc, by simpa using hparen⟩)

theorem Stuck.any_isParen (h : Stuck floats s) : s.any isParen = true := by
  cases h with
  | stray _ hparen _ => exact hparen
  | round hgroups _ _ _ => exact any_isParen_of_groups hgroups

/-- What is stuck needs a call at every depth. -/
theorem execConditionalStr_of_stuck (n : ℕ) {s : Runes} (h : Stuck floats s) :
    execConditionalStr floats n s = none := by
  match n with
  | 0 => rfl
  | 1 =>
      rw [execConditionalStr]
      cases h with
      | stray hgroups hparen hfields =>
          simp only [hgroups, replaceGroups, finish_of_ne_three hfields, hparen, if_true]
          rfl
      | round hgroups _ _ _ =>
          obtain ⟨t, ts, hts⟩ := List.exists_cons_of_ne_nil hgroups
          rw [hts]
          rfl
  | n + 2 =>
      rw [execConditionalStr_eq]
      cases h with
      | stray hgroups hparen hfields =>
          rw [collapse_of_no_groups hgroups]
          simp only [finish_of_ne_three hfields, hparen, if_true]
          exact execConditionalStr_of_stuck (n + 1) (.stray hgroups hparen hfields)
      | round _ hcollapse hfields h =>
          rw [hcollapse]
          simp only [finish_of_ne_three hfields, h.any_isParen, if_true]
          exact execConditionalStr_of_stuck (n + 1) h

/-- Where the rewriting does not get stuck some depth is enough. -/
theorem exists_returns_of_not_stuck (h : ¬ Stuck floats s) : ∃ r, Returns floats s r := by
  induction hn : parens s using Nat.strongRecOn generalizing s with
  | _ n ih =>
      subst hn
      cases hcollapse : collapse floats s with
      | error e =>
          exact ⟨.error e, 2, by rw [execConditionalStr_eq, hcollapse]⟩
      | ok s' =>
          by_cases hfields : (fields s').length = 3
          · obtain ⟨r, hr⟩ := @finish_of_three _ floats s' (execConditionalStr floats 1) hfields
            exact ⟨r, 2, by rw [execConditionalStr_eq, hcollapse]; exact hr⟩
          · cases hparen : s'.any isParen with
            | false =>
                refine ⟨.error (invalidStr s'), 2, ?_⟩
                rw [execConditionalStr_eq, hcollapse]
                simp [finish_of_ne_three hfields, hparen]
            | true =>
                -- There is another round, with fewer parentheses.
                have hgroups : groups.findAll s ≠ [] := by
                  intro hnil
                  obtain rfl : s = s' := by
                    simpa [collapse_of_no_groups hnil] using hcollapse
                  exact h (.stray hnil hparen hfields)
                have hnot : ¬ Stuck floats s' := fun hs' => h (.round hgroups hcollapse hfields hs')
                obtain ⟨r, k, hk⟩ := ih _ (parens_collapse hgroups hcollapse) hnot rfl
                refine ⟨r, k + 1, ?_⟩
                obtain ⟨k, rfl⟩ : ∃ j, k = j + 1 := by
                  cases k with
                  | zero => simp [execConditionalStr] at hk
                  | succ j => exact ⟨j, rfl⟩
                rw [execConditionalStr_eq, hcollapse]
                simp only [finish_of_ne_three hfields, hparen, if_true]
                exact hk

theorem exists_returns_iff (s : Runes) : (∃ r, Returns floats s r) ↔ ¬ Stuck floats s := by
  constructor
  · rintro ⟨r, n, hn⟩ hstuck
    simp [execConditionalStr_of_stuck n hstuck] at hn
  · exact exists_returns_of_not_stuck

theorem finish_mono {run run' : Runes → Option (Except Runes Bool)} {r : Except Runes Bool}
    (hrun : run s = some r → run' s = some r) (h : finish floats run s = some r) :
    finish floats run' s = some r := by
  rw [finish] at h ⊢
  split at h
  · exact h
  · split_ifs at h ⊢
    · exact hrun h
    · exact h

/-- Once a depth is enough, more depth changes nothing. -/
theorem execConditionalStr_succ {n : ℕ} {s : Runes} {r : Except Runes Bool}
    (h : execConditionalStr floats n s = some r) : execConditionalStr floats (n + 1) s = some r := by
  match n with
  | 0 => simp [execConditionalStr] at h
  | 1 =>
      rw [execConditionalStr] at h
      have hgroups : groups.findAll s = [] := by
        cases hts : groups.findAll s with
        | nil => rfl
        | cons t ts => simp [hts, replaceGroups, execConditionalStr] at h
      rw [execConditionalStr_eq, collapse_of_no_groups hgroups]
      simp only [hgroups, replaceGroups] at h
      exact finish_mono (by simp [execConditionalStr]) h
  | n + 2 =>
      rw [execConditionalStr_eq] at h ⊢
      cases hcollapse : collapse floats s with
      | error e => simpa [hcollapse] using h
      | ok s' =>
          rw [hcollapse] at h
          exact finish_mono execConditionalStr_succ h

theorem Returns.unique {r r' : Except Runes Bool} (h : Returns floats s r) (h' : Returns floats s r') :
    r = r' := by
  obtain ⟨n, hn⟩ := h
  obtain ⟨n', hn'⟩ := h'
  have hmono (n k : ℕ) {r : Except Runes Bool} (hr : execConditionalStr floats n s = some r) :
      execConditionalStr floats (n + k) s = some r := by
    induction k with
    | zero => exact hr
    | succ k ih => exact execConditionalStr_succ ih
  have h₁ := hmono n n' hn
  have h₂ := hmono n' n hn'
  rw [Nat.add_comm, h₁] at h₂
  exact Option.some.inj h₂

/-- A call that goes on with what a round leaves. -/
theorem Returns.of_round {r : Except Runes Bool} (hcollapse : collapse floats s = .ok s')
    (hfields : (fields s').length ≠ 3) (hparen : s'.any isParen = true) (h : Returns floats s' r) :
    Returns floats s r := by
  obtain ⟨n, hn⟩ := h
  refine ⟨n + 2, ?_⟩
  rw [execConditionalStr_eq, hcollapse]
  simp only [finish_of_ne_three hfields, hparen, if_true]
  exact execConditionalStr_succ hn

end Rounds

/-! ### Expressions -/

/-- An operand: a word, or an expression in parentheses. The texts between the parts are spaces. -/
inductive Operand
  | atom (a : Runes)
  | group (op : Operator) (w₀ w₁ w₂ w₃ : Runes) (x y : Operand)

/-- The text of an expression whose operands have the given texts. -/
def expressionText (op : Operator) (w₀ w₁ w₂ w₃ x y : Runes) : Runes :=
  w₀ ++ (op.name ++ (w₁ ++ (x ++ (w₂ ++ (y ++ w₃)))))

namespace Operand

def text : Operand → Runes
  | atom a => a
  | group op w₀ w₁ w₂ w₃ x y => groupText (expressionText op w₀ w₁ w₂ w₃ x.text y.text)

/-- Words are not empty and have no space or parenthesis; spaces separate the parts. -/
def WellFormed : Operand → Prop
  | atom a => a ≠ [] ∧ IsWord a ∧ IsFlat a
  | group _ w₀ w₁ w₂ w₃ x y => (IsBlank w₀ ∧ IsBlank w₁ ∧ w₁ ≠ [] ∧ IsBlank w₂ ∧ w₂ ≠ [] ∧ IsBlank w₃) ∧
      x.WellFormed ∧ y.WellFormed

/-- The word that stands for an operand, for some meaning of the operators. -/
def word (eval : Operator → Runes → Runes → Option Bool) : Operand → Option Runes
  | atom a => some a
  | group op _ _ _ _ x y => do
      let a ← x.word eval
      let b ← y.word eval
      let result ← eval op a b
      some (boolText result)

def uses (o : Operator) : Operand → Bool
  | atom _ => false
  | group op _ _ _ _ x y => op = o || x.uses o || y.uses o

end Operand

/-- A well-formed expression with its spaces. -/
structure Expression where
  op : Operator
  w₀ : Runes
  w₁ : Runes
  w₂ : Runes
  w₃ : Runes
  x : Operand
  y : Operand
  wellFormed : (Operand.group op w₀ w₁ w₂ w₃ x y).WellFormed

namespace Expression

variable (e : Expression)

def text : Runes := expressionText e.op e.w₀ e.w₁ e.w₂ e.w₃ e.x.text e.y.text

def value (eval : Operator → Runes → Runes → Option Bool) : Option Bool := do
  let a ← e.x.word eval
  let b ← e.y.word eval
  eval e.op a b

def uses (o : Operator) : Bool := e.op = o || e.x.uses o || e.y.uses o

end Expression

/-! ### How an expression is scanned -/

theorem isFlat_of_isBlank {w : Runes} (h : IsBlank w) : IsFlat w := by
  intro c hc
  have hspace := h c hc
  cases hparen : isParen c with
  | false => rfl
  | true =>
      simp only [isParen, Bool.or_eq_true, decide_eq_true_eq] at hparen
      rcases hparen with rfl | rfl
      · exact absurd hspace (by decide)
      · exact absurd hspace (by decide)

theorem isFlat_name (op : Operator) : IsFlat op.name := by
  cases op with
  | _ => simp [IsFlat, Operator.name, ofString, isParen]

theorem isFlat_append {x y : Runes} (hx : IsFlat x) (hy : IsFlat y) : IsFlat (x ++ y) := by
  intro c hc
  exact (List.mem_append.mp hc).elim (hx c) (hy c)

theorem isWord_name (op : Operator) : IsWord op.name := by
  cases op with
  | _ => simp [IsWord, Operator.name, ofString, Rune.isSpace, unicodeIsSpace]

theorem name_ne_nil (op : Operator) : op.name ≠ [] := by
  cases op with
  | _ => simp [Operator.name, ofString]

/-- Text without an opening parenthesis is in no group. -/
theorem tokens_append {x : Runes} (hx : ∀ c ∈ x, c ≠ .char '(') (s : Runes) :
    groups.tokens (x ++ s) = x.map Sum.inl ++ groups.tokens s := by
  induction x with
  | nil => rfl
  | cons c x ih =>
      rw [List.cons_append, Matcher.tokens_of_none (show groups.matchAt _ = none from
        groupAt_of_ne (hx c (by simp)) _), ih fun d hd => hx d (by simp [hd])]
      rfl

theorem IsFlat.ne_open {x : Runes} (h : IsFlat x) : ∀ c ∈ x, c ≠ .char '(' := by
  rintro c hc rfl
  exact absurd (h _ hc) (by decide)

/-- A parenthesis before another one opens no innermost group. -/
theorem groupAt_of_open {u : Runes} (hu : IsFlat u) (v : Runes) :
    groupAt (.char '(' :: (u ++ .char '(' :: v)) = none := by
  have hstop : (u ++ .char '(' :: v).dropWhile (!isParen ·) = .char '(' :: v := by
    rw [List.dropWhile_append_of_pos fun c hc => by simp [hu c hc],
      List.dropWhile_cons_of_neg (by decide)]
  rw [groupAt, if_pos rfl, hstop]
  rfl

namespace Operand

def isAtom : Operand → Bool
  | atom _ => true
  | group .. => false

/-- An operand as the scan sees it. -/
def tokens : Operand → List (Rune ⊕ Runes)
  | atom a => a.map .inl
  | group op w₀ w₁ w₂ w₃ x y =>
      if x.isAtom && y.isAtom then [.inr (expressionText op w₀ w₁ w₂ w₃ x.text y.text)]
      else .inl (.char '(') :: ((w₀ ++ (op.name ++ w₁)).map .inl ++ (x.tokens ++ (w₂.map .inl ++
        (y.tokens ++ (w₃ ++ [Rune.char ')']).map .inl))))

theorem text_of_isAtom {o : Operand} (h : o.isAtom = true) (hw : o.WellFormed) : IsFlat o.text := by
  cases o with
  | atom a => exact hw.2.2
  | group => simp [isAtom] at h

theorem text_of_not_isAtom {o : Operand} (h : o.isAtom = false) : ∃ t, o.text = .char '(' :: t := by
  cases o with
  | atom a => simp [isAtom] at h
  | group op w₀ w₁ w₂ w₃ x y => exact ⟨_, rfl⟩

theorem tokens_text {o : Operand} (hw : o.WellFormed) (rest : Runes) :
    groups.tokens (o.text ++ rest) = o.tokens ++ groups.tokens rest := by
  induction o generalizing rest with
  | atom a => exact tokens_append hw.2.2.ne_open rest
  | group op w₀ w₁ w₂ w₃ x y ihx ihy =>
      obtain ⟨⟨h₀, h₁, -, h₂, -, h₃⟩, hx, hy⟩ := hw
      have hfront : IsFlat (w₀ ++ (op.name ++ w₁)) :=
        isFlat_append (isFlat_of_isBlank h₀) (isFlat_append (isFlat_name op) (isFlat_of_isBlank h₁))
      rw [tokens]
      split
      · rename_i hatoms
        rw [Bool.and_eq_true] at hatoms
        have hflat : IsFlat (expressionText op w₀ w₁ w₂ w₃ x.text y.text) := by
          have := isFlat_append hfront (isFlat_append (text_of_isAtom hatoms.1 hx) (isFlat_append
            (isFlat_of_isBlank h₂) (isFlat_append (text_of_isAtom hatoms.2 hy) (isFlat_of_isBlank h₃))))
          simpa [expressionText] using this
        exact Matcher.tokens_of_match (groupAt_groupText hflat rest)
      · rename_i hatoms
        have htext : (group op w₀ w₁ w₂ w₃ x y).text ++ rest = .char '(' :: ((w₀ ++ (op.name ++ w₁)) ++
            (x.text ++ (w₂ ++ (y.text ++ ((w₃ ++ [.char ')']) ++ rest))))) := by
          simp [text, groupText, expressionText]
        have hclose : ∀ c ∈ w₃ ++ [.char ')'], c ≠ .char '(' := by
          intro c hc
          rcases List.mem_append.mp hc with hc | hc
          · exact (isFlat_of_isBlank h₃).ne_open c hc
          · rw [List.mem_singleton.mp hc]
            decide
        -- The first parenthesis behind the opening one opens a group as well.
        have hopen : groups.matchAt (.char '(' :: ((w₀ ++ (op.name ++ w₁)) ++
            (x.text ++ (w₂ ++ (y.text ++ ((w₃ ++ [.char ')']) ++ rest)))))) = none := by
          rw [groups_matchAt]
          cases hxa : x.isAtom with
          | false =>
              obtain ⟨t, ht⟩ := text_of_not_isAtom hxa
              rw [ht]
              exact groupAt_of_open hfront _
          | true =>
              have hya : y.isAtom = false := by simpa [hxa] using hatoms
              obtain ⟨t, ht⟩ := text_of_not_isAtom hya
              have hflat := isFlat_append hfront (isFlat_append (text_of_isAtom hxa hx)
                (isFlat_of_isBlank h₂))
              have := groupAt_of_open hflat (t ++ ((w₃ ++ [.char ')']) ++ rest))
              rw [ht]
              simpa using this
        rw [htext, Matcher.tokens_of_none hopen,
          tokens_append hfront.ne_open, ihx hx, tokens_append (isFlat_of_isBlank h₂).ne_open, ihy hy,
          tokens_append hclose]
        simp

/-- An operand with all groups of one text replaced by a word. -/
def subst (t w : Runes) : Operand → Operand
  | atom a => atom a
  | group op w₀ w₁ w₂ w₃ x y =>
      if x.isAtom && y.isAtom then
        if expressionText op w₀ w₁ w₂ w₃ x.text y.text = t then atom w else group op w₀ w₁ w₂ w₃ x y
      else group op w₀ w₁ w₂ w₃ (x.subst t w) (y.subst t w)

theorem flatMap_tokens (t w : Runes) (o : Operand) :
    o.tokens.flatMap (Sum.elim (fun c => [c]) (replacement t w)) = (o.subst t w).text := by
  have hplain (x : Runes) : (x.map Sum.inl).flatMap (Sum.elim (fun c => [c]) (replacement t w)) = x := by
    induction x with
    | nil => rfl
    | cons c x ih => simp [ih]
  induction o with
  | atom a => exact hplain a
  | group op w₀ w₁ w₂ w₃ x y ihx ihy =>
      rw [tokens, subst]
      split
      · rw [List.flatMap_singleton, Sum.elim_inr, replacement]
        split
        · rfl
        · rfl
      · simp only [List.flatMap_cons, List.flatMap_append, Sum.elim_inl, hplain, ihx, ihy, text,
          groupText, expressionText]
        simp

theorem WellFormed.subst {t w : Runes} (hne : w ≠ []) (hword : IsWord w) (hflat : IsFlat w)
    {o : Operand} (ho : o.WellFormed) : (o.subst t w).WellFormed := by
  induction o with
  | atom a => exact ho
  | group op w₀ w₁ w₂ w₃ x y ihx ihy =>
      rw [Operand.subst]
      split
      · split
        · exact ⟨hne, hword, hflat⟩
        · exact ho
      · exact ⟨ho.1, ihx ho.2.1, ihy ho.2.2⟩

/-- The fields around an operand: it continues the field before it, and ends in a field that goes
on behind it; an operand in parentheses closes at least one field. -/
theorem fieldsFrom_text {o : Operand} (ho : o.WellFormed) (field rest : Runes) :
    ∃ front last, fieldsFrom field (o.text ++ rest) = front ++ fieldsFrom last rest ∧ last ≠ [] ∧
      (o.isAtom = true → front = [] ∧ last = field ++ o.text) ∧ (o.isAtom = false → front ≠ []) := by
  induction o generalizing field rest with
  | atom a =>
      refine ⟨[], field ++ a, ?_, by simp [ho.1], fun _ => ⟨rfl, rfl⟩, by simp [isAtom]⟩
      exact fieldsFrom_word ho.2.1 field rest
  | group op w₀ w₁ w₂ w₃ x y ihx ihy =>
      obtain ⟨⟨h₀, h₁, hne₁, h₂, hne₂, h₃⟩, hx, hy⟩ := ho
      have hopen : IsWord [Rune.char '('] := by
        intro c hc
        rw [List.mem_singleton.mp hc]
        decide
      have hclose : IsWord [Rune.char ')'] := by
        intro c hc
        rw [List.mem_singleton.mp hc]
        decide
      have htext : (group op w₀ w₁ w₂ w₃ x y).text ++ rest = [.char '('] ++ (w₀ ++ (op.name ++ (w₁ ++
          (x.text ++ (w₂ ++ (y.text ++ (w₃ ++ ([.char ')'] ++ rest)))))))) := by
        simp [text, groupText, expressionText]
      obtain ⟨frontx, lastx, hfrontx, hlastx, -⟩ := ihx hx [] (w₂ ++ (y.text ++ (w₃ ++ ([.char ')'] ++ rest))))
      obtain ⟨fronty, lasty, hfronty, hlasty, -⟩ := ihy hy [] (w₃ ++ ([.char ')'] ++ rest))
      have hbegin : ∃ front₀, front₀ ≠ [] ∧ fieldsFrom field ((group op w₀ w₁ w₂ w₃ x y).text ++ rest) =
          front₀ ++ fields (x.text ++ (w₂ ++ (y.text ++ (w₃ ++ ([.char ')'] ++ rest))))) := by
        rw [htext, fieldsFrom_word hopen]
        by_cases hnil : w₀ = []
        · refine ⟨closed (field ++ [.char '('] ++ op.name), by simp [closed], ?_⟩
          rw [hnil, List.nil_append, fieldsFrom_word (isWord_name op), fieldsFrom_blank h₁ hne₁]
        · refine ⟨closed (field ++ [.char '(']) ++ closed op.name, by simp [closed], ?_⟩
          rw [fieldsFrom_blank h₀ hnil, fields, fieldsFrom_word (isWord_name op),
            fieldsFrom_blank h₁ hne₁, List.nil_append, List.append_assoc]
      have hend : ∃ front₃ last, last ≠ [] ∧ fieldsFrom lasty (w₃ ++ ([.char ')'] ++ rest)) =
          front₃ ++ fieldsFrom last rest := by
        by_cases hnil : w₃ = []
        · exact ⟨[], lasty ++ [.char ')'], by simp, by rw [hnil]; exact fieldsFrom_word hclose _ _⟩
        · refine ⟨closed lasty, [.char ')'], by simp, ?_⟩
          rw [fieldsFrom_blank h₃ hnil, fields, fieldsFrom_word hclose]
          rfl
      obtain ⟨front₀, hne, hfront₀⟩ := hbegin
      obtain ⟨front₃, last, hlast, hfront₃⟩ := hend
      refine ⟨front₀ ++ (frontx ++ (closed lastx ++ (fronty ++ front₃))), last, ?_, hlast, by simp [isAtom],
        fun _ => by simp [hne]⟩
      rw [hfront₀, fields, hfrontx, fieldsFrom_blank h₂ hne₂, fields, hfronty, hfront₃]
      simp

end Operand

/-! ### The value of an expression -/

section Values

variable {F : Type} (floats : Floats F)

/-- The operators as the code knows them: without `ne`. -/
def evalKnown (op : Operator) (a b : Runes) : Option Bool :=
  if op = .ne then none else op.eval floats a b

variable {floats}

theorem operators_name (op : Operator) : operators op.name = if op = .ne then none else some op := by
  cases op with
  | _ => decide

theorem toOption_applyFields (s : Runes) (op : Operator) (a b : Runes) :
    (applyFields floats s op.name a b).toOption = evalKnown floats op a b := by
  rw [applyFields, operators_name, evalKnown]
  by_cases hne : op = .ne
  · rw [if_pos hne, if_pos hne]
    rfl
  · rw [if_neg hne, if_neg hne]
    dsimp only
    cases op.eval floats a b with
    | none => rfl
    | some result => rfl

/-- The fields of an expression: three, and more where an operand is in parentheses. -/
theorem fields_expressionText {op : Operator} {w₀ w₁ w₂ w₃ : Runes} {x y : Operand}
    (hw : (Operand.group op w₀ w₁ w₂ w₃ x y).WellFormed) :
    ∃ frontx lastx fronty lasty, fields (expressionText op w₀ w₁ w₂ w₃ x.text y.text) =
        op.name :: (frontx ++ lastx :: (fronty ++ [lasty])) ∧
      (x.isAtom = true → frontx = [] ∧ lastx = x.text) ∧ (x.isAtom = false → frontx ≠ []) ∧
      (y.isAtom = true → fronty = [] ∧ lasty = y.text) ∧ (y.isAtom = false → fronty ≠ []) := by
  obtain ⟨⟨h₀, h₁, hne₁, h₂, hne₂, h₃⟩, hx, hy⟩ := hw
  obtain ⟨frontx, lastx, hfieldsx, hlastx, hatomx, hgroupx⟩ := x.fieldsFrom_text hx [] (w₂ ++ (y.text ++ w₃))
  obtain ⟨fronty, lasty, hfieldsy, hlasty, hatomy, hgroupy⟩ := y.fieldsFrom_text hy [] w₃
  refine ⟨frontx, lastx, fronty, lasty, ?_, hatomx, hgroupx, hatomy, hgroupy⟩
  rw [expressionText, fields_blank h₀, fields, fieldsFrom_word (isWord_name op),
    fieldsFrom_blank h₁ hne₁, List.nil_append, closed_of_ne_nil (name_ne_nil op), fields, hfieldsx,
    fieldsFrom_blank h₂ hne₂, closed_of_ne_nil hlastx, fields, hfieldsy, fieldsFrom_of_blank h₃,
    closed_of_ne_nil hlasty]
  simp

theorem fields_of_atoms {op : Operator} {w₀ w₁ w₂ w₃ : Runes} {x y : Operand}
    (hw : (Operand.group op w₀ w₁ w₂ w₃ x y).WellFormed) (hx : x.isAtom = true) (hy : y.isAtom = true) :
    fields (expressionText op w₀ w₁ w₂ w₃ x.text y.text) = [op.name, x.text, y.text] := by
  obtain ⟨frontx, lastx, fronty, lasty, hfields, hatomx, -, hatomy, -⟩ := fields_expressionText hw
  obtain ⟨rfl, rfl⟩ := hatomx hx
  obtain ⟨rfl, rfl⟩ := hatomy hy
  exact hfields

theorem toOption_flatValue {op : Operator} {w₀ w₁ w₂ w₃ : Runes} {x y : Operand}
    (hw : (Operand.group op w₀ w₁ w₂ w₃ x y).WellFormed) (hx : x.isAtom = true) (hy : y.isAtom = true) :
    (flatValue floats (expressionText op w₀ w₁ w₂ w₃ x.text y.text)).toOption =
      evalKnown floats op x.text y.text := by
  rw [flatValue, fields_of_atoms hw hx hy]
  exact toOption_applyFields _ op x.text y.text

namespace Operand

theorem word_of_isAtom {o : Operand} (h : o.isAtom = true)
    (eval : Operator → Runes → Runes → Option Bool) : o.word eval = some o.text := by
  cases o with
  | atom a => rfl
  | group => simp [isAtom] at h

/-- A group is replaced by the word that stands for it. -/
theorem word_subst {t : Runes} {b : Bool} (hvalue : flatValue floats t = .ok b) {o : Operand}
    (ho : o.WellFormed) :
    (o.subst t (boolText b)).word (evalKnown floats) = o.word (evalKnown floats) := by
  induction o with
  | atom a => rfl
  | group op w₀ w₁ w₂ w₃ x y ihx ihy =>
      rw [subst]
      split
      · rename_i hatoms
        rw [Bool.and_eq_true] at hatoms
        split
        · rename_i ht
          have heval := @toOption_flatValue F floats op w₀ w₁ w₂ w₃ x y ho hatoms.1 hatoms.2
          rw [ht, hvalue] at heval
          simp only [word, word_of_isAtom hatoms.1, word_of_isAtom hatoms.2, Option.bind_eq_bind,
            Option.bind_some, ← heval]
          rfl
        · rfl
      · rw [word, word, ihx ho.2.1, ihy ho.2.2]

/-- An operand with a group that has no value has none. -/
theorem word_eq_none {t e : Runes} (hvalue : flatValue floats t = .error e) {o : Operand}
    (ho : o.WellFormed) (ht : t ∈ o.tokens.filterMap Sum.getRight?) :
    o.word (evalKnown floats) = none := by
  have hplain (x : Runes) :
      ((x.map Sum.inl : List (Rune ⊕ Runes)).filterMap Sum.getRight?) = [] := by
    simp [List.filterMap_map, Function.comp_def]
  induction o with
  | atom a =>
      rw [tokens, hplain] at ht
      simp at ht
  | group op w₀ w₁ w₂ w₃ x y ihx ihy =>
      rw [tokens] at ht
      split at ht
      · rename_i hatoms
        rw [Bool.and_eq_true] at hatoms
        obtain rfl : t = expressionText op w₀ w₁ w₂ w₃ x.text y.text := by simpa using ht
        have heval := @toOption_flatValue F floats op w₀ w₁ w₂ w₃ x y ho hatoms.1 hatoms.2
        rw [hvalue] at heval
        simp only [word, word_of_isAtom hatoms.1, word_of_isAtom hatoms.2, Option.bind_eq_bind,
          Option.bind_some, ← heval]
        rfl
      · simp only [List.filterMap_cons, List.filterMap_append, hplain, Sum.getRight?_inl,
          List.nil_append, List.append_nil, List.mem_append] at ht
        rcases ht with ht | ht
        · simp [word, ihx ho.2.1 ht]
        · simp [word, ihy ho.2.2 ht]

theorem tokens_of_not_isAtom {o : Operand} (h : o.isAtom = false) :
    o.tokens.filterMap Sum.getRight? ≠ [] := by
  induction o with
  | atom a => simp [isAtom] at h
  | group op w₀ w₁ w₂ w₃ x y ihx ihy =>
      rw [tokens]
      split
      · simp
      · rename_i hatoms
        simp only [List.filterMap_cons, List.filterMap_append, ne_eq, Sum.getRight?_inl,
          List.append_eq_nil_iff, not_and]
        intro _ hnilx _ hnily
        cases hx : x.isAtom with
        | false => exact absurd hnilx (ihx hx)
        | true =>
            have hy : y.isAtom = false := by simpa [hx] using hatoms
            exact absurd hnily (ihy hy)

end Operand

namespace Expression

variable (e : Expression)

theorem tokens_text : groups.tokens e.text = (e.w₀ ++ (e.op.name ++ e.w₁)).map .inl ++
    (e.x.tokens ++ (e.w₂.map .inl ++ (e.y.tokens ++ e.w₃.map .inl))) := by
  obtain ⟨⟨h₀, h₁, -, h₂, -, h₃⟩, hx, hy⟩ := e.wellFormed
  have hfront : IsFlat (e.w₀ ++ (e.op.name ++ e.w₁)) :=
    isFlat_append (isFlat_of_isBlank h₀) (isFlat_append (isFlat_name e.op) (isFlat_of_isBlank h₁))
  have htext : e.text = (e.w₀ ++ (e.op.name ++ e.w₁)) ++ (e.x.text ++ (e.w₂ ++ (e.y.text ++
      (e.w₃ ++ [])))) := by simp [text, expressionText]
  rw [htext, tokens_append hfront.ne_open, Operand.tokens_text hx,
    tokens_append (isFlat_of_isBlank h₂).ne_open, Operand.tokens_text hy,
    tokens_append (isFlat_of_isBlank h₃).ne_open, Matcher.tokens_nil, List.append_nil]

theorem findAll_text : groups.findAll e.text =
    e.x.tokens.filterMap Sum.getRight? ++ e.y.tokens.filterMap Sum.getRight? := by
  have hplain (x : Runes) :
      ((x.map Sum.inl : List (Rune ⊕ Runes)).filterMap Sum.getRight?) = [] := by
    simp [List.filterMap_map, Function.comp_def]
  rw [Matcher.findAll, tokens_text]
  simp only [List.filterMap_append, hplain, List.nil_append, List.append_nil]

/-- An expression with all groups of one text replaced by a value. -/
def subst (t : Runes) (b : Bool) : Expression where
  op := e.op
  w₀ := e.w₀
  w₁ := e.w₁
  w₂ := e.w₂
  w₃ := e.w₃
  x := e.x.subst t (boolText b)
  y := e.y.subst t (boolText b)
  wellFormed := by
    have hne : boolText b ≠ [] := by cases b <;> simp [boolText, ofString]
    have hword : IsWord (boolText b) := by
      cases b <;> simp [IsWord, boolText, ofString, Rune.isSpace, unicodeIsSpace]
    exact ⟨e.wellFormed.1, e.wellFormed.2.1.subst hne hword (isFlat_boolText b),
      e.wellFormed.2.2.subst hne hword (isFlat_boolText b)⟩

theorem replaceGroup_text {t : Runes} (ht : IsFlat t) (b : Bool) :
    replaceGroup e.text t (boolText b) = (e.subst t b).text := by
  have hplain (x : Runes) :
      (x.map Sum.inl).flatMap (Sum.elim (fun c => [c]) (replacement t (boolText b))) = x := by
    induction x with
    | nil => rfl
    | cons c x ih => simp [ih]
  rw [replaceGroup_eq ht, Matcher.replaceAll, tokens_text]
  simp only [List.flatMap_append, hplain, Operand.flatMap_tokens]
  simp [text, subst, expressionText]

variable {e}

theorem value_subst {t : Runes} {b : Bool} (hvalue : flatValue floats t = .ok b) :
    (e.subst t b).value (evalKnown floats) = e.value (evalKnown floats) := by
  simp only [value, subst, Operand.word_subst hvalue e.wellFormed.2.1,
    Operand.word_subst hvalue e.wellFormed.2.2]

/-- A round leaves an expression of the same value, or fails at a group without a value. -/
theorem collapseFrom_text {ts : List Runes} (hts : ∀ t ∈ ts, IsFlat t) (e : Expression) :
    (∃ t ∈ ts, ∃ err, flatValue floats t = .error err ∧
        collapseFrom floats ts e.text = .error err) ∨
      ∃ e' : Expression, collapseFrom floats ts e.text = .ok e'.text ∧
        e'.value (evalKnown floats) = e.value (evalKnown floats) := by
  induction ts generalizing e with
  | nil => exact .inr ⟨e, rfl, rfl⟩
  | cons t ts ih =>
      rw [collapseFrom]
      cases hvalue : flatValue floats t with
      | error err => exact .inl ⟨t, by simp, err, hvalue, rfl⟩
      | ok b =>
          dsimp only
          rw [e.replaceGroup_text (hts t (by simp))]
          rcases ih (fun t' ht' => hts t' (by simp [ht'])) (e.subst t b) with
            ⟨t', ht', err, herr, hcollapse⟩ | ⟨e', hcollapse, hsame⟩
          · exact .inl ⟨t', by simp [ht'], err, herr, hcollapse⟩
          · exact .inr ⟨e', hcollapse, hsame.trans (value_subst hvalue)⟩

theorem value_eq_none {t err : Runes} (hvalue : flatValue floats t = .error err)
    (ht : t ∈ groups.findAll e.text) : e.value (evalKnown floats) = none := by
  rw [findAll_text, List.mem_append] at ht
  rcases ht with ht | ht
  · simp [value, Operand.word_eq_none hvalue e.wellFormed.2.1 ht]
  · simp [value, Operand.word_eq_none hvalue e.wellFormed.2.2 ht]

/-- The code returns the value that the operators it knows give to an expression, or an error where
there is none. -/
theorem returns_text (e : Expression) :
    ∃ r, Returns floats e.text r ∧ r.toOption = e.value (evalKnown floats) := by
  induction hn : parens e.text using Nat.strongRecOn generalizing e with
  | _ n ih =>
      subst hn
      rcases @collapseFrom_text F floats _ (fun t ht => isFlat_of_mem_findAll ht) e with
        ⟨t, ht, err, hvalue, hcollapse⟩ | ⟨e', hcollapse, hsame⟩
      · refine ⟨.error err, ⟨2, ?_⟩, (value_eq_none hvalue ht).symm⟩
        rw [execConditionalStr_eq, collapse, hcollapse]
      · rw [← hsame]
        by_cases hatoms : e'.x.isAtom = true ∧ e'.y.isAtom = true
        · have hfields : fields e'.text = [e'.op.name, e'.x.text, e'.y.text] :=
            fields_of_atoms e'.wellFormed hatoms.1 hatoms.2
          refine ⟨applyFields floats e'.text e'.op.name e'.x.text e'.y.text, ⟨2, ?_⟩, ?_⟩
          · rw [execConditionalStr_eq, collapse, hcollapse]
            simp only [finish, hfields]
          · rw [toOption_applyFields, value, Operand.word_of_isAtom hatoms.1,
              Operand.word_of_isAtom hatoms.2]
            rfl
        · -- Groups are left: there are more than three fields, and the call goes on.
          have hgroups' : groups.findAll e'.text ≠ [] := by
            rw [findAll_text, ne_eq, List.append_eq_nil_iff, not_and]
            intro hnilx hnily
            cases hx : e'.x.isAtom with
            | false => exact Operand.tokens_of_not_isAtom hx hnilx
            | true =>
                cases hy : e'.y.isAtom with
                | false => exact Operand.tokens_of_not_isAtom hy hnily
                | true => exact hatoms ⟨hx, hy⟩
          have hfields : (fields e'.text).length ≠ 3 := by
            obtain ⟨frontx, lastx, fronty, lasty, hfields, -, hgroupx, -, hgroupy⟩ :=
              fields_expressionText e'.wellFormed
            have hmore : frontx ≠ [] ∨ fronty ≠ [] := by
              cases hx : e'.x.isAtom with
              | false => exact .inl (hgroupx hx)
              | true => exact .inr (hgroupy (by simpa [hx] using hatoms))
            rw [show fields e'.text = _ from hfields]
            simp only [List.length_cons, List.length_append, List.length_nil, ne_eq]
            rcases hmore with hmore | hmore
            · have := List.length_pos_iff.mpr hmore
              omega
            · have := List.length_pos_iff.mpr hmore
              omega
          have hgroups : groups.findAll e.text ≠ [] := by
            intro hnil
            rw [hnil] at hcollapse
            have hsametext : e.text = e'.text := by simpa [collapseFrom] using hcollapse
            exact hgroups' (hsametext ▸ hnil)
          obtain ⟨r, hr, hrvalue⟩ := ih _ (parens_collapse hgroups hcollapse) e' rfl
          exact ⟨r, hr.of_round hcollapse hfields (any_isParen_of_groups hgroups'), hrvalue⟩

end Expression

theorem evalKnown_eq_some {op : Operator} {a b : Runes} {result : Bool} :
    evalKnown floats op a b = some result ↔ op.eval floats a b = some result ∧ op ≠ .ne := by
  rw [evalKnown]
  split
  · simp [*]
  · simp [*]

theorem Operand.word_known_iff {o : Operand} {w : Runes} :
    o.word (evalKnown floats) = some w ↔
      o.word (Operator.eval floats) = some w ∧ o.uses .ne = false := by
  induction o generalizing w with
  | atom a => simp [word, uses]
  | group op w₀ w₁ w₂ w₃ x y ihx ihy =>
      simp only [word, uses, Option.bind_eq_bind, Option.bind_eq_some_iff, ihx, ihy, evalKnown_eq_some,
        Bool.or_eq_false_iff, decide_eq_false_iff_not]
      constructor
      · rintro ⟨a, ⟨ha, hxne⟩, b, ⟨hb, hyne⟩, result, ⟨hresult, hne⟩, hw⟩
        exact ⟨⟨a, ha, b, hb, result, hresult, hw⟩, ⟨hne, hxne⟩, hyne⟩
      · rintro ⟨⟨a, ha, b, hb, result, hresult, hw⟩, ⟨hne, hxne⟩, hyne⟩
        exact ⟨a, ⟨ha, hxne⟩, b, ⟨hb, hyne⟩, result, ⟨hresult, hne⟩, hw⟩

theorem Expression.value_known_iff {e : Expression} {result : Bool} :
    e.value (evalKnown floats) = some result ↔
      e.value (Operator.eval floats) = some result ∧ e.uses .ne = false := by
  simp only [Expression.value, Expression.uses, Option.bind_eq_bind, Option.bind_eq_some_iff,
    Operand.word_known_iff, evalKnown_eq_some, Bool.or_eq_false_iff, decide_eq_false_iff_not]
  constructor
  · rintro ⟨a, ⟨ha, hxne⟩, b, ⟨hb, hyne⟩, hresult, hne⟩
    exact ⟨⟨a, ha, b, hb, hresult⟩, ⟨hne, hxne⟩, hyne⟩
  · rintro ⟨⟨a, ha, b, hb, hresult⟩, ⟨hne, hxne⟩, hyne⟩
    exact ⟨a, ⟨ha, hxne⟩, b, ⟨hb, hyne⟩, hresult, hne⟩

end Values

/-- A call on a text returns, and where the text is an expression that has a value it returns this
value. -/
def Evaluates {F : Type} (floats : Floats F) (s : Runes) : Prop :=
  (∃ r, Returns floats s r) ∧ ∀ e : Expression, e.text = s →
    ∀ result, e.value (Operator.eval floats) = some result → Returns floats s (.ok result)

/-- A text is evaluated as documented unless the rewriting gets stuck at it or it is an expression
with a value that uses `ne`. -/
theorem evaluates_iff {F : Type} (floats : Floats F) (s : Runes) :
    Evaluates floats s ↔ ¬ Stuck floats s ∧ ∀ e : Expression, e.text = s → e.uses .ne = true →
      e.value (Operator.eval floats) = none := by
  constructor
  · rintro ⟨hreturns, hvalue⟩
    refine ⟨(exists_returns_iff s).mp hreturns, ?_⟩
    rintro e rfl hne
    by_contra hsome
    obtain ⟨result, hresult⟩ := Option.ne_none_iff_exists'.mp hsome
    obtain ⟨r, hr, hrvalue⟩ := @Expression.returns_text F floats e
    obtain rfl := hr.unique (hvalue e rfl result hresult)
    have hknown := (Expression.value_known_iff.mp hrvalue.symm).2
    simp [hne] at hknown
  · rintro ⟨hstuck, hne⟩
    refine ⟨(exists_returns_iff s).mpr hstuck, ?_⟩
    rintro e rfl result hresult
    have hfree : e.uses .ne = false := by
      by_contra huses
      simp [hne e rfl (by simpa using huses)] at hresult
    obtain ⟨r, hr, hrvalue⟩ := @Expression.returns_text F floats e
    rw [Expression.value_known_iff.mpr ⟨hresult, hfree⟩] at hrvalue
    cases r with
    | error err => simp [Except.toOption] at hrvalue
    | ok b =>
        obtain rfl : b = result := by simpa [Except.toOption] using hrvalue
        exact hr

/-- Numbers without a sign, as far as an example needs them. -/
def sampleFloats : Floats ℕ where
  parseFloat s := if s = ofString "1" then some 1 else if s = ofString "2" then some 2 else none
  ge a b := b ≤ a
  le a b := a ≤ b
  gt a b := b < a
  lt a b := a < b

/-- A parenthesis alone is rewritten to itself for ever, and `ne` is unknown. -/
theorem not_evaluates :
    ¬ Evaluates sampleFloats (ofString ")") ∧ ¬ Evaluates sampleFloats (ofString "ne 1 2") := by
  constructor
  · rintro ⟨hreturns, -⟩
    rw [exists_returns_iff] at hreturns
    exact hreturns (.stray rfl rfl (by decide))
  · rintro ⟨-, hvalue⟩
    have hword (s : String) (h : s = "1" ∨ s = "2") :
        (Operand.atom (ofString s)).WellFormed := by
      rcases h with rfl | rfl
      · exact ⟨by decide, by decide, by decide⟩
      · exact ⟨by decide, by decide, by decide⟩
    have hreturns := hvalue ⟨.ne, [], ofString " ", ofString " ", [], .atom (ofString "1"),
      .atom (ofString "2"), ⟨⟨by decide, by decide, by decide, by decide, by decide, by decide⟩,
        hword "1" (.inl rfl), hword "2" (.inr rfl)⟩⟩ rfl true rfl
    have herror : Returns sampleFloats (ofString "ne 1 2") (.error invalidFunc) := ⟨2, by decide⟩
    exact absurd (hreturns.unique herror) (by simp)

end Higress.ApiWorkflow.Conditional
