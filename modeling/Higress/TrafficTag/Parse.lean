import Higress.Lib.Atoi
import Higress.Lib.Gjson
import Higress.Lib.LetterCase

/-!
The conditions of the plugin `traffic-tag` (`parse.go`). The groups and the conditions of a group
are gone through by callbacks that share the variable `parseError`: a condition that passes its
check clears what an earlier one has left there, so that only the last group with conditions
decides.

`regexp.Compile` is a parameter, and so are the letters that are not ASCII.
-/

namespace Higress.TrafficTag

open Lib

structure ConditionRule where
  conditionType : GoString
  key : GoString
  operator : GoString
  value : List GoString

structure ConditionGroup where
  headerName : GoString
  headerValue : GoString
  logic : GoString
  conditions : List ConditionRule

def typeHeader : GoString := bytes "header"

def typeCookie : GoString := bytes "cookie"

def typeParameter : GoString := bytes "parameter"

def opPrefix : GoString := bytes "prefix"

def opEqual : GoString := bytes "equal"

def opNotEqual : GoString := bytes "not_equal"

def opRegex : GoString := bytes "regex"

def opIn : GoString := bytes "in"

def opNotIn : GoString := bytes "not_in"

def opPercent : GoString := bytes "percentage"

def validOperators : List GoString :=
  [opEqual, opNotEqual, opPrefix, opIn, opNotIn, opRegex, opPercent]

/-- `validate`, with the text of the error. -/
def ConditionRule.validate (c : ConditionRule) : Option GoString :=
  if c.conditionType = [] then some (bytes "conditionType cannot be empty")
  else if c.key = [] then some (bytes "key cannot be empty")
  else if c.operator = [] then some (bytes "operator cannot be empty")
  else if c.operator ∉ validOperators then
    some (bytes "invalid operator: '" ++ c.operator ++ bytes "'")
  else if c.conditionType ≠ typeHeader ∧ c.conditionType ≠ typeParameter ∧
      c.conditionType ≠ typeCookie then
    some (bytes "invalid conditionType: '" ++ c.conditionType ++ bytes "'")
  else if c.operator = opIn ∨ c.operator = opNotIn then
    if c.value.length < 1 then
      some (bytes "value must contain at least one element for 'in' or 'not_in' operators")
    else none
  else if c.operator = opPercent then
    match c.value with
    | [v] =>
        let percent := atoi v
        if percent.2 = false then some (bytes "value for 'percentage' must be a valid integer")
        else if percent.1 < 0 ∨ 100 < percent.1 then
          some (bytes "value for 'percentage' must be greater than 0 and less than 100")
        else none
    | _ => some (bytes "value for 'percentage' must contain exactly one element")
  else if c.value.length ≠ 1 then
    some (bytes "value must contain exactly one element for '" ++ c.operator ++ bytes "' operator")
  else none

section Parse

variable {ρ : Type*} (table : CaseTable) (compile : GoString → Except GoString ρ)

/-- `regexCache`: what stands there has been compiled. -/
structure RegexCache where
  lookup : GoString → Option ρ
  compiled : ∀ p r, lookup p = some r → compile p = .ok r

/-- `extractStringArray`. -/
def extractStringArray (result : Option GValue) : List GoString :=
  ((result.map GValue.array).getD []).map GValue.string

/-- The condition that an item of the configuration spells. -/
def readCondition (cond : GValue) : ConditionRule where
  conditionType := toLower table (cond.getString (bytes "conditionType"))
  key := cond.getString (bytes "key")
  operator := toLower table (cond.getString (bytes "operator"))
  value := extractStringArray (cond.get (bytes "value"))

variable {compile}

/-- `compileRegex`. -/
def compileRegex (cache : RegexCache compile) (pattern : GoString) :
    Except GoString (RegexCache compile) :=
  match cache.lookup pattern with
  | some _ => .ok cache
  | none =>
      match h : compile pattern with
      | .error e => .error e
      | .ok r => .ok
          { lookup := Function.update cache.lookup pattern (some r)
            compiled := by
              intro p r' hp
              by_cases hpattern : p = pattern
              · subst hpattern
                rw [Function.update_self] at hp
                obtain rfl := Option.some.inj hp
                exact h
              · rw [Function.update_of_ne hpattern] at hp
                exact cache.compiled p r' hp }

/-- The variables that the callback of the conditions writes. -/
structure GroupState (compile : GoString → Except GoString ρ) where
  parseError : Option GoString
  conditions : List ConditionRule
  cache : RegexCache compile

/-- The callback of the conditions. -/
def parseCondition (s : GroupState compile) (cond : GValue) : GroupState compile × Bool :=
  let c := readCondition table cond
  match c.validate with
  | some e => ({ s with parseError := some e }, false)
  | none =>
      if c.operator = opRegex then
        match compileRegex s.cache (c.value.headD []) with
        | .error e => ({ s with parseError := some e }, false)
        | .ok cache => (⟨none, s.conditions ++ [c], cache⟩, true)
      else (⟨none, s.conditions ++ [c], s.cache⟩, true)

/-- The variables that the callback of the groups writes. -/
structure ConfigState (compile : GoString → Except GoString ρ) where
  parseError : Option GoString
  conditionGroups : List ConditionGroup
  cache : RegexCache compile

/-- The fields of a group beside its conditions. -/
def readGroup (group : GValue) : ConditionGroup where
  headerName := group.getString (bytes "headerName")
  headerValue := group.getString (bytes "headerValue")
  logic := toLower table (group.getString (bytes "logic"))
  conditions := []

def groupConditions (group : GValue) : List GValue :=
  ((group.get (bytes "conditions")).map GValue.elements).getD []

/-- The test of the fields of a group. -/
def ConditionGroup.rejected (cg : ConditionGroup) : Bool :=
  cg.headerName = [] || cg.headerValue = [] || cg.logic = [] ||
    (cg.logic ≠ bytes "and" && cg.logic ≠ bytes "or")

/-- The callback of the groups. -/
def parseGroup (s : ConfigState compile) (group : GValue) : ConfigState compile × Bool :=
  let cg := readGroup table group
  if cg.rejected then
    let e := bytes "invalid condition group: " ++ group.string ++ bytes ", HeaderName: " ++
      cg.headerName ++ bytes ", HeaderValue: " ++ cg.headerValue ++ bytes ", Logic: " ++ cg.logic
    ({ s with parseError := some e }, false)
  else
    let r := forEach (parseCondition table) ⟨s.parseError, [], s.cache⟩ (groupConditions group)
    (⟨r.parseError, s.conditionGroups ++ [{ cg with conditions := r.conditions }], r.cache⟩, true)

def conditionGroups (json : GValue) : List GValue :=
  ((json.get (bytes "conditionGroups")).map GValue.elements).getD []

/-- `parseContentConfig`. -/
def parseContentConfig (cache : RegexCache compile) (json : GValue) : ConfigState compile :=
  forEach (parseGroup table) ⟨none, [], cache⟩ (conditionGroups json)

/-! ### Valid configurations -/

/-- What a condition has to be. -/
structure ConditionRule.Valid (compile : GoString → Except GoString ρ) (c : ConditionRule) : Prop where
  conditionType : c.conditionType ∈ [typeHeader, typeParameter, typeCookie]
  key : c.key ≠ []
  operator : c.operator ∈ validOperators
  several : c.operator = opIn ∨ c.operator = opNotIn → c.value ≠ []
  single : ¬ (c.operator = opIn ∨ c.operator = opNotIn) → c.value.length = 1
  percent : c.operator = opPercent →
    ∀ v ∈ c.value, (atoi v).2 = true ∧ 0 ≤ (atoi v).1 ∧ (atoi v).1 ≤ 100
  regex : c.operator = opRegex → ∀ v ∈ c.value, ∃ r, compile v = .ok r

/-- The fields of a group beside its conditions. -/
structure ConditionGroup.Named (cg : ConditionGroup) : Prop where
  headerName : cg.headerName ≠ []
  headerValue : cg.headerValue ≠ []
  logic : cg.logic = bytes "and" ∨ cg.logic = bytes "or"

variable (compile) in
/-- Every condition of the group is valid. -/
def ValidConditions (group : GValue) : Prop :=
  ∀ cond ∈ groupConditions group, (readCondition table cond).Valid compile

variable (compile) in
def ValidConfig (json : GValue) : Prop :=
  ∀ group ∈ conditionGroups json, (readGroup table group).Named ∧ ValidConditions table compile group

/-- The group with all of its conditions. -/
def configuredGroup (group : GValue) : ConditionGroup :=
  { readGroup table group with conditions := (groupConditions group).map (readCondition table) }

def configured (json : GValue) : List ConditionGroup :=
  (conditionGroups json).map (configuredGroup table)

theorem ConditionGroup.rejected_eq_false_iff (cg : ConditionGroup) : cg.rejected = false ↔ cg.Named := by
  have hand : bytes "and" ≠ [] := by decide
  have hor : bytes "or" ≠ [] := by decide
  simp only [rejected, Bool.or_eq_false_iff, Bool.and_eq_false_iff, decide_eq_false_iff_not, not_not,
    ne_eq]
  constructor
  · rintro ⟨⟨⟨hname, hvalue⟩, -⟩, hlogic⟩
    exact ⟨hname, hvalue, hlogic⟩
  · rintro ⟨hname, hvalue, hlogic⟩
    refine ⟨⟨⟨hname, hvalue⟩, ?_⟩, hlogic⟩
    rintro hnil
    rcases hlogic with h | h
    · exact hand (h.symm.trans hnil)
    · exact hor (h.symm.trans hnil)

/-- No operator is empty. -/
theorem ne_nil_of_mem_validOperators {op : GoString} (h : op ∈ validOperators) : op ≠ [] := by
  rintro rfl
  exact absurd h (by decide)

theorem mem_types_iff {t : GoString} : t ∈ [typeHeader, typeParameter, typeCookie] ↔
    ¬ (t ≠ typeHeader ∧ t ≠ typeParameter ∧ t ≠ typeCookie) := by
  simp only [List.mem_cons, List.not_mem_nil, or_false]
  constructor
  · rintro (h | h | h) ⟨h₁, h₂, h₃⟩
    · exact h₁ h
    · exact h₂ h
    · exact h₃ h
  · intro h
    by_contra hno
    push Not at hno
    exact h hno

/-- `validate` finds everything but a bad regular expression. -/
theorem ConditionRule.validate_of_valid {c : ConditionRule} (h : c.Valid compile) :
    c.validate = none := by
  obtain ⟨htype, hkey, hop, hseveral, hsingle, hpercent, -⟩ := h
  have htypeNe : c.conditionType ≠ [] := by
    intro hnil
    rw [hnil] at htype
    exact absurd htype (by decide)
  rw [validate, if_neg htypeNe, if_neg hkey, if_neg (ne_nil_of_mem_validOperators hop),
    if_neg (not_not.mpr hop),
    if_neg (mem_types_iff.mp htype)]
  by_cases hin : c.operator = opIn ∨ c.operator = opNotIn
  · have hpos := List.length_pos_iff.mpr (hseveral hin)
    rw [if_pos hin, if_neg (by omega)]
  · rw [if_neg hin]
    obtain ⟨v, hv⟩ := List.length_eq_one_iff.mp (hsingle hin)
    by_cases hop : c.operator = opPercent
    · obtain ⟨hok, hlow, hhigh⟩ := hpercent hop v (by simp [hv])
      rw [if_pos hop, hv]
      change (if (atoi v).2 = false then _ else if _ then _ else none) = none
      rw [if_neg (by simp [hok]), if_neg (by omega)]
    · rw [if_neg hop, if_neg (by simp [hv])]

theorem ConditionRule.valid_of_validate {c : ConditionRule} (h : c.validate = none)
    (hregex : c.operator = opRegex → ∃ r, compile (c.value.headD []) = .ok r) :
    c.Valid compile := by
  rw [validate] at h
  split_ifs at h with htypeNe hkey hopNe hop htypes hin hlen hper hone
  · have hnot : c.operator ≠ opPercent ∧ c.operator ≠ opRegex := by
      rcases hin with h | h <;> rw [h] <;> decide
    refine ⟨mem_types_iff.mpr htypes, hkey, hop, ?_, fun hn => absurd hin hn,
      fun hp => absurd hp hnot.1, fun hr => absurd hr hnot.2⟩
    rintro - hnil
    simp [hnil] at hlen
  · have hnot : c.operator ≠ opRegex := by
      rw [hper]
      decide
    split at h
    · rename_i v hv
      simp only at h
      split_ifs at h with hok hrange
      push Not at hrange
      refine ⟨mem_types_iff.mpr htypes, hkey, hop, fun hn => absurd hn hin, fun _ => by simp [hv], ?_,
        fun hr => absurd hr hnot⟩
      rintro - v' hv'
      obtain rfl : v' = v := by simpa [hv] using hv'
      exact ⟨by simpa using hok, hrange⟩
    · cases h
  · obtain ⟨v, hv⟩ := List.length_eq_one_iff.mp (not_not.mp hone)
    refine ⟨mem_types_iff.mpr htypes, hkey, hop, fun hn => absurd hn hin, fun _ => not_not.mp hone,
      fun hp => absurd hp hper, ?_⟩
    intro hr v' hv'
    obtain rfl : v' = v := by simpa [hv] using hv'
    simpa [hv] using hregex hr

theorem compileRegex_of_ok (cache : RegexCache compile) {pattern : GoString} {r : ρ}
    (h : compile pattern = .ok r) : ∃ cache', compileRegex cache pattern = .ok cache' := by
  rw [compileRegex]
  split
  · exact ⟨_, rfl⟩
  · split
    · rename_i e he
      rw [h] at he
      cases he
    · exact ⟨_, rfl⟩

theorem ok_of_compileRegex {cache cache' : RegexCache compile} {pattern : GoString}
    (h : compileRegex cache pattern = .ok cache') : ∃ r, compile pattern = .ok r := by
  rw [compileRegex] at h
  split at h
  · rename_i r hr
    exact ⟨r, cache.compiled _ _ hr⟩
  · split at h
    · cases h
    · rename_i r hr
      exact ⟨r, hr⟩

/-- What the callback of the conditions does. -/
theorem parseCondition_of_valid (s : GroupState compile) {cond : GValue}
    (h : (readCondition table cond).Valid compile) :
    ∃ cache, parseCondition table s cond =
      (⟨none, s.conditions ++ [readCondition table cond], cache⟩, true) := by
  simp only [parseCondition, ConditionRule.validate_of_valid h]
  by_cases hop : (readCondition table cond).operator = opRegex
  · have hin : ¬ (opRegex = opIn ∨ opRegex = opNotIn) := by decide
    obtain ⟨v, hv⟩ := List.length_eq_one_iff.mp (h.single (by rw [hop]; exact hin))
    obtain ⟨r, hr⟩ := h.regex hop v (by simp [hv])
    obtain ⟨cache, hcache⟩ := compileRegex_of_ok s.cache hr
    refine ⟨cache, ?_⟩
    rw [if_pos hop, hv, List.headD_cons, hcache]
  · exact ⟨s.cache, by rw [if_neg hop]⟩

theorem parseCondition_of_not_valid (s : GroupState compile) {cond : GValue}
    (h : ¬ (readCondition table cond).Valid compile) :
    ∃ e, parseCondition table s cond = ({ s with parseError := some e }, false) := by
  simp only [parseCondition]
  cases hvalidate : (readCondition table cond).validate with
  | some e => exact ⟨e, rfl⟩
  | none =>
      have hop : (readCondition table cond).operator = opRegex ∧
          ¬ ∃ r, compile ((readCondition table cond).value.headD []) = .ok r := by
        by_contra hno
        refine h (ConditionRule.valid_of_validate hvalidate fun hop => ?_)
        by_contra hnone
        exact hno ⟨hop, hnone⟩
      dsimp only
      rw [if_pos hop.1]
      cases hcompile : compileRegex s.cache ((readCondition table cond).value.headD []) with
      | error e => exact ⟨e, rfl⟩
      | ok cache => exact absurd (ok_of_compileRegex hcompile) hop.2

/-! ### What is reported -/

theorem conditions_of_valid {conds : List GValue}
    (h : ∀ cond ∈ conds, (readCondition table cond).Valid compile) (s : GroupState compile) :
    (forEach (parseCondition table) s conds).conditions =
        s.conditions ++ conds.map (readCondition table) ∧
      (conds ≠ [] → (forEach (parseCondition table) s conds).parseError = none) := by
  induction conds generalizing s with
  | nil => simp [forEach]
  | cons cond conds ih =>
      obtain ⟨cache, hstep⟩ := parseCondition_of_valid table s (h cond (by simp))
      rw [forEach, hstep, if_pos rfl]
      obtain ⟨hconditions, herror⟩ := ih (fun c hc => h c (by simp [hc]))
        ⟨none, s.conditions ++ [readCondition table cond], cache⟩
      refine ⟨by simpa using hconditions, fun _ => ?_⟩
      by_cases hnil : conds = []
      · simp [hnil, forEach]
      · exact herror hnil

theorem parseError_of_not_valid {conds : List GValue}
    (h : ∃ cond ∈ conds, ¬ (readCondition table cond).Valid compile) (s : GroupState compile) :
    (forEach (parseCondition table) s conds).parseError ≠ none := by
  induction conds generalizing s with
  | nil => simp at h
  | cons cond conds ih =>
      rw [forEach]
      by_cases hvalid : (readCondition table cond).Valid compile
      · obtain ⟨cache, hstep⟩ := parseCondition_of_valid table s hvalid
        rw [hstep, if_pos rfl]
        apply ih
        obtain ⟨c, hc, hnot⟩ := h
        rcases List.mem_cons.mp hc with rfl | hc
        · exact absurd hvalid hnot
        · exact ⟨c, hc, hnot⟩
      · obtain ⟨e, hstep⟩ := parseCondition_of_not_valid table s hvalid
        rw [hstep]
        simp

theorem parseGroup_of_named (s : ConfigState compile) {group : GValue}
    (h : (readGroup table group).Named) : parseGroup table s group =
      (⟨(forEach (parseCondition table) ⟨s.parseError, [], s.cache⟩ (groupConditions group)).parseError,
        s.conditionGroups ++ [{ readGroup table group with conditions :=
          (forEach (parseCondition table) ⟨s.parseError, [], s.cache⟩
            (groupConditions group)).conditions }],
        (forEach (parseCondition table) ⟨s.parseError, [], s.cache⟩ (groupConditions group)).cache⟩,
        true) := by
  simp only [parseGroup, (ConditionGroup.rejected_eq_false_iff _).mpr h, Bool.false_eq_true, if_false]

/-- A group that is no group ends the parse with its error. -/
theorem parseError_of_not_named {groups : List GValue}
    (h : ∃ group ∈ groups, ¬ (readGroup table group).Named) (s : ConfigState compile) :
    (forEach (parseGroup table) s groups).parseError ≠ none := by
  induction groups generalizing s with
  | nil => simp at h
  | cons group groups ih =>
      rw [forEach]
      by_cases hnamed : (readGroup table group).Named
      · rw [parseGroup_of_named table s hnamed, if_pos rfl]
        apply ih
        obtain ⟨g, hg, hnot⟩ := h
        rcases List.mem_cons.mp hg with rfl | hg
        · exact absurd hnamed hnot
        · exact ⟨g, hg, hnot⟩
      · have hrejected : (readGroup table group).rejected = true := by
          rw [← Bool.not_eq_false, ConditionGroup.rejected_eq_false_iff]
          exact hnamed
        simp [parseGroup, hrejected]

/-- The groups with all of their conditions are kept. -/
theorem conditionGroups_of_valid {groups : List GValue}
    (h : ∀ group ∈ groups, (readGroup table group).Named ∧ ValidConditions table compile group)
    (s : ConfigState compile) (herror : s.parseError = none) :
    (forEach (parseGroup table) s groups).parseError = none ∧
      (forEach (parseGroup table) s groups).conditionGroups =
        s.conditionGroups ++ groups.map (configuredGroup table) := by
  induction groups generalizing s with
  | nil => simpa [forEach] using herror
  | cons group groups ih =>
      obtain ⟨hnamed, hvalid⟩ := h group (by simp)
      obtain ⟨hconditions, hnone⟩ := conditions_of_valid table hvalid ⟨s.parseError, [], s.cache⟩
      have herror' : (forEach (parseCondition table) ⟨s.parseError, [], s.cache⟩
          (groupConditions group)).parseError = none := by
        by_cases hnil : groupConditions group = []
        · simpa [hnil, forEach] using herror
        · exact hnone hnil
      rw [forEach, parseGroup_of_named table s hnamed, if_pos rfl, hconditions]
      obtain ⟨h₁, h₂⟩ := ih (fun g hg => h g (by simp [hg])) ⟨_, _, _⟩ herror'
      exact ⟨h₁, h₂.trans (by simp [configuredGroup])⟩

/-- Groups without conditions leave the error as it is. -/
theorem parseError_of_no_conditions {groups : List GValue}
    (hnamed : ∀ group ∈ groups, (readGroup table group).Named)
    (h : ∀ group ∈ groups, groupConditions group = []) (s : ConfigState compile) :
    (forEach (parseGroup table) s groups).parseError = s.parseError := by
  induction groups generalizing s with
  | nil => rfl
  | cons group groups ih =>
      rw [forEach, parseGroup_of_named table s (hnamed group (by simp)), if_pos rfl,
        ih (fun g hg => hnamed g (by simp [hg])) (fun g hg => h g (by simp [hg])), h group (by simp)]
      rfl

/-- The last group with conditions decides about the error. -/
theorem parseError_eq_none_iff {pre post : List GValue} {group : GValue}
    (hnamed : ∀ g ∈ pre ++ group :: post, (readGroup table g).Named)
    (hconds : groupConditions group ≠ []) (hpost : ∀ g ∈ post, groupConditions g = [])
    (s : ConfigState compile) :
    (forEach (parseGroup table) s (pre ++ group :: post)).parseError = none ↔
      ValidConditions table compile group := by
  induction pre generalizing s with
  | nil =>
      rw [List.nil_append, forEach, parseGroup_of_named table s (hnamed group (by simp)), if_pos rfl,
        parseError_of_no_conditions table (fun g hg => hnamed g (by simp [hg])) hpost]
      constructor
      · intro herror
        by_contra hnot
        simp only [ValidConditions, not_forall, exists_prop] at hnot
        exact parseError_of_not_valid table hnot _ herror
      · intro hvalid
        exact (conditions_of_valid table hvalid _).2 hconds
  | cons g pre ih =>
      rw [List.cons_append, forEach, parseGroup_of_named table s (hnamed g (by simp)), if_pos rfl]
      exact ih (fun g hg => hnamed g (by simp [hg])) _

/-- Of the elements that satisfy `p`, if there are any, one is the last. -/
theorem exists_last {α : Type*} (p : α → Prop) (l : List α) :
    (∀ a ∈ l, ¬ p a) ∨ ∃ pre a post, l = pre ++ a :: post ∧ p a ∧ ∀ b ∈ post, ¬ p b := by
  induction l with
  | nil => simp
  | cons a l ih =>
      rcases ih with hno | ⟨pre, b, post, rfl, hb, hpost⟩
      · by_cases ha : p a
        · exact .inr ⟨[], a, l, rfl, ha, hno⟩
        · exact .inl (by simpa [ha] using hno)
      · exact .inr ⟨a :: pre, b, post, rfl, hb, hpost⟩

variable (compile) in
/-- Either a group lacks a field, or every condition is valid, or the last group that has conditions
has one that is not valid. -/
def Decisive (json : GValue) : Prop :=
  (∃ group ∈ conditionGroups json, ¬ (readGroup table group).Named) ∨
    (∀ group ∈ conditionGroups json, ValidConditions table compile group) ∨
    ∃ pre group post, conditionGroups json = pre ++ group :: post ∧
      ¬ ValidConditions table compile group ∧ ∀ g ∈ post, groupConditions g = []

/-- A configuration is accepted exactly when it is valid, and then with every condition. -/
structure Sound (r : ConfigState compile) (json : GValue) : Prop where
  accepted_iff : r.parseError = none ↔ ValidConfig table compile json
  complete : r.parseError = none → r.conditionGroups = configured table json

theorem parseContentConfig_sound_iff (cache : RegexCache compile) (json : GValue) :
    Sound table (parseContentConfig table cache json) json ↔ Decisive table compile json := by
  rw [parseContentConfig, Decisive]
  by_cases hnamed : ∀ group ∈ conditionGroups json, (readGroup table group).Named
  · have hno : ¬ ∃ group ∈ conditionGroups json, ¬ (readGroup table group).Named := by simpa using hnamed
    by_cases hvalid : ∀ group ∈ conditionGroups json, ValidConditions table compile group
    · have hconfig : ValidConfig table compile json := fun g hg => ⟨hnamed g hg, hvalid g hg⟩
      obtain ⟨herror, hgroups⟩ := conditionGroups_of_valid table hconfig ⟨none, [], cache⟩ rfl
      refine ⟨fun _ => .inr (.inl hvalid), fun _ => ⟨iff_of_true herror hconfig, fun _ => ?_⟩⟩
      simpa [configured] using hgroups
    · have hconfig : ¬ ValidConfig table compile json := fun h => hvalid fun g hg => (h g hg).2
      constructor
      · intro hsound
        rcases exists_last (fun g => groupConditions g ≠ []) (conditionGroups json) with
          hempty | ⟨pre, group, post, hgroups, hconds, hpost⟩
        · -- without conditions every group is valid
          refine absurd (fun g hg cond hcond => ?_) hvalid
          rw [not_not.mp (hempty g hg)] at hcond
          simp at hcond
        · have hpost' : ∀ g ∈ post, groupConditions g = [] := fun g hg => not_not.mp (hpost g hg)
          refine .inr (.inr ⟨pre, group, post, hgroups, fun hg => hconfig ?_, hpost'⟩)
          rw [← hsound.accepted_iff, hgroups]
          exact (parseError_eq_none_iff table (hgroups ▸ hnamed) hconds hpost' _).mpr hg
      · rintro (h | h | ⟨pre, group, post, hgroups, hnot, hpost⟩)
        · exact absurd h hno
        · exact absurd h hvalid
        · have hconds : groupConditions group ≠ [] := by
            intro hnil
            refine hnot fun cond hcond => ?_
            rw [hnil] at hcond
            simp at hcond
          have herror : (forEach (parseGroup table) ⟨none, [], cache⟩
              (conditionGroups json)).parseError ≠ none := by
            rw [hgroups, Ne, parseError_eq_none_iff table (hgroups ▸ hnamed) hconds hpost]
            exact hnot
          exact ⟨iff_of_false herror hconfig, fun h => absurd h herror⟩
  · have hex : ∃ group ∈ conditionGroups json, ¬ (readGroup table group).Named := by simpa using hnamed
    have herror := parseError_of_not_named table hex ⟨none, [], cache⟩
    refine ⟨fun _ => .inl hex, fun _ => ⟨iff_of_false herror fun h => ?_, fun h => absurd h herror⟩⟩
    exact hnamed fun g hg => (h g hg).1

end Parse

namespace Sample

/-- An object and the text it stands in, which nothing here prints. -/
def object (members : List (String × GValue)) : GValue :=
  .obj [] (members.map fun m => (bytes m.1, m.2))

def condition (operator : String) : GValue :=
  object [("conditionType", .str (bytes "header")), ("key", .str (bytes "foo")),
    ("operator", .str (bytes operator)), ("value", .arr [] [.str (bytes "bar")])]

def group (operator : String) : GValue :=
  object [("headerName", .str (bytes "x-mse-tag")), ("headerValue", .str (bytes "gray")),
    ("logic", .str (bytes "and")), ("conditions", .arr [] [condition operator])]

/-- Two groups; there is no operator `equals`. -/
def json : GValue := object [("conditionGroups", .arr [] [group "equals", group "equal"])]

def compile (_ : GoString) : Except GoString Unit := .ok ()

def cache : RegexCache compile := ⟨fun _ => none, by simp⟩

theorem readCondition_condition (table : CaseTable) (operator : String) :
    readCondition table (condition operator) = ⟨toLower table (bytes "header"), bytes "foo",
      toLower table (bytes operator), [bytes "bar"]⟩ := rfl

theorem readGroup_group (table : CaseTable) (operator : String) :
    readGroup table (group operator) = ⟨bytes "x-mse-tag", bytes "gray", toLower table (bytes "and"), []⟩ :=
  rfl

theorem groupConditions_group (operator : String) :
    groupConditions (group operator) = [condition operator] := rfl

theorem toLower_self {s : GoString} (h : (s.all fun b => decide (b < 0x80)) = true) (hs : lower s = s) :
    toLower plainCaseTable s = s :=
  (toLower_eq_lower _ (Strings.forall_mem_of_all h)).trans hs

end Sample

/-- The error of the first group is cleared by the condition of the second one. -/
theorem parseContentConfig_drops_error :
    (parseContentConfig plainCaseTable Sample.cache Sample.json).parseError = none ∧
      ¬ ValidConfig plainCaseTable Sample.compile Sample.json := by
  have hgroups : conditionGroups Sample.json = [Sample.group "equals", Sample.group "equal"] := rfl
  have hnamed (op : String) : (readGroup plainCaseTable (Sample.group op)).Named := by
    rw [Sample.readGroup_group, Sample.toLower_self (by decide) (by decide)]
    exact ⟨by decide, by decide, .inl rfl⟩
  constructor
  · have hequal : (readCondition plainCaseTable (Sample.condition "equal")).Valid Sample.compile := by
      rw [Sample.readCondition_condition, Sample.toLower_self (by decide) (by decide),
        Sample.toLower_self (by decide) (by decide)]
      exact ⟨by decide, by decide, by decide, by decide, by decide, by decide, fun _ _ _ => ⟨(), rfl⟩⟩
    have hall : ∀ g ∈ [Sample.group "equals"] ++ Sample.group "equal" :: [],
        (readGroup plainCaseTable g).Named := by simp [hnamed]
    rw [parseContentConfig, hgroups]
    refine (parseError_eq_none_iff _ hall ?_ (by simp) _).mpr ?_
    · simp [Sample.groupConditions_group]
    · simpa [ValidConditions, Sample.groupConditions_group] using hequal
  · intro h
    have hvalid := (h (Sample.group "equals") (by simp [hgroups])).2 (Sample.condition "equals")
      (by simp [Sample.groupConditions_group])
    have hop := hvalid.operator
    rw [Sample.readCondition_condition, Sample.toLower_self (by decide) (by decide),
      Sample.toLower_self (by decide) (by decide)] at hop
    exact absurd hop (by decide)

end Higress.TrafficTag
