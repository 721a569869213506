import Mathlib
import Higress.Lib.GoMap

/-!
The mapping of model names (`getMappedModel` in `ai-proxy/provider/provider.go`). A key is a name, a
start of names with `*` behind it, a regular expression with `~` before it, or `*` for all that is
left. The keys are tried in the order in which Go goes through the map, which is any order.

The expressions of Go's `regexp` are given by a parameter.
-/

namespace Higress.AiProxy.ModelMapping

open Lib

/-- Go's `regexp`: whether a text is an expression, whether it matches, and what becomes of the
matches. -/
structure Regexp where
  compiles : GoString → Bool
  matchString : GoString → GoString → Bool
  replaceAllString : GoString → GoString → GoString → GoString

/-- A mapping: its entries, in some order. -/
structure Mapping where
  entries : List (GoString × GoString)
  nodup : (entries.map Prod.fst).Nodup

def wildcard : GoString := bytes "*"

/-- What becomes of a model at one key: it is passed on, the program stops since the expression is
none (`MustCompile`), or it is mapped. -/
inductive Outcome
  | passed
  | panicked
  | mapped (v : GoString)
  deriving DecidableEq

/-- The branch of the loop for an expression. -/
def applyRegexp (re : Regexp) (model expr v : GoString) : Outcome :=
  if !re.compiles expr then .panicked
  else if re.matchString expr model then .mapped (re.replaceAllString expr model v)
  else .passed

/-- The body of the loop of `doGetMappedModel`. -/
def applyKey (re : Regexp) (model k v : GoString) : Outcome :=
  if k = wildcard then .passed
  else
    let trimmed := Strings.trimSuffix k wildcard
    if wildcard.isSuffixOf k ∧ Strings.startsWith model trimmed then .mapped v
    else
      match trimmed with
      | 126 :: expr => applyRegexp re model expr v
      | _ => .passed

/-- The loop of `doGetMappedModel`. -/
def applyKeys (re : Regexp) (model : GoString) : List (GoString × GoString) → Outcome
  | [] => .passed
  | e :: es =>
      match applyKey re model e.1 e.2 with
      | .passed => applyKeys re model es
      | outcome => outcome

/-- `doGetMappedModel` with the entries in the order of the loop; `none` if the program stops. -/
def doGetMappedModel (re : Regexp) (model : GoString) (modelMapping : List (GoString × GoString)) :
    Option GoString :=
  if modelMapping = [] then some []
  else
    match modelMapping.lookup model with
    | some v => some v
    | none =>
        match applyKeys re model modelMapping with
        | .mapped v => some v
        | .panicked => none
        | .passed =>
            match modelMapping.lookup wildcard with
            | some v => some v
            | none => some []

/-- An empty name stands for the model itself. -/
def orModel (model mappedModel : GoString) : GoString :=
  if mappedModel.length ≠ 0 then mappedModel else model

def getMappedModel (re : Regexp) (model : GoString) (modelMapping : List (GoString × GoString)) :
    Option GoString :=
  (doGetMappedModel re model modelMapping).map (orModel model)

/-! ### What the mapping is for -/

/-- What a model becomes of an outcome that is not passed on. -/
def Outcome.result (model : GoString) : Outcome → Option GoString
  | .mapped v => some (orModel model v)
  | _ => none

/-- What a key is for: `~R` is the expression `R`, and `P*` is for the names that start with `P`. -/
def keyOutcome (re : Regexp) (model k v : GoString) : Outcome :=
  if k = wildcard then .passed
  else
    match k with
    | 126 :: expr => applyRegexp re model expr v
    | k =>
        if wildcard.isSuffixOf k ∧ Strings.startsWith model (Strings.trimSuffix k wildcard) then
          .mapped v
        else .passed

/-- The order of the loop does not matter, a key that is the name comes before the other keys and
these before `*`, and expressions are applied as they are. -/
structure Precedence (re : Regexp) (mapping : Mapping) (model : GoString) : Prop where
  order : ∀ es es', es.Perm mapping.entries → es'.Perm mapping.entries →
    getMappedModel re model es = getMappedModel re model es'
  name : ∀ v, (model, v) ∈ mapping.entries → ∀ es, es.Perm mapping.entries →
    getMappedModel re model es = some (orModel model v)
  keys : model ∉ mapping.entries.map Prod.fst → ∀ es, es.Perm mapping.entries →
    (∃ e ∈ mapping.entries, keyOutcome re model e.1 e.2 ≠ .passed) →
    ∃ e ∈ mapping.entries, keyOutcome re model e.1 e.2 ≠ .passed ∧
      getMappedModel re model es = (keyOutcome re model e.1 e.2).result model
  rest : model ∉ mapping.entries.map Prod.fst → ∀ es, es.Perm mapping.entries →
    (∀ e ∈ mapping.entries, keyOutcome re model e.1 e.2 = .passed) →
    getMappedModel re model es =
      some (orModel model ((mapping.entries.lookup wildcard).getD []))
  regexp : model ∉ mapping.entries.map Prod.fst → ∀ expr v, (126 :: expr, v) ∈ mapping.entries →
    applyKey re model (126 :: expr) v = applyRegexp re model expr v

/-- On a model, a key `~S*` does what the expression `S*` does: the expression makes its value of a
model that starts with `~S`, and is like the expression `S` otherwise. -/
def SameStar (re : Regexp) (model s v : GoString) : Prop :=
  if Strings.startsWith model (126 :: s) then applyRegexp re model (s ++ wildcard) v = .mapped v
  else applyRegexp re model s v = applyRegexp re model (s ++ wildcard) v

variable {re : Regexp} {model : GoString} {es : List (GoString × GoString)} {mapping : Mapping}

/-! ### Keys -/

theorem trimSuffix_append_wildcard (s : GoString) :
    Strings.trimSuffix (s ++ wildcard) wildcard = s := by
  have hsuffix : wildcard.isSuffixOf (s ++ wildcard) = true := by
    rw [List.isSuffixOf_iff_suffix]
    exact List.suffix_append s wildcard
  rw [Strings.trimSuffix, if_pos hsuffix, List.length_append, Nat.add_sub_cancel, List.take_left]

theorem exists_of_isSuffixOf {k : GoString} (h : wildcard.isSuffixOf k = true) :
    ∃ s, k = s ++ wildcard := by
  obtain ⟨s, hs⟩ := List.isSuffixOf_iff_suffix.mp h
  exact ⟨s, hs.symm⟩

theorem trimSuffix_of_not {k : GoString} (h : ¬ wildcard.isSuffixOf k = true) :
    Strings.trimSuffix k wildcard = k := by
  rw [Strings.trimSuffix, if_neg h]

theorem tilde_ne_wildcard (expr : GoString) : 126 :: expr ≠ wildcard := by
  intro h
  have hhead := congrArg List.head? h
  simp only [List.head?_cons] at hhead
  exact absurd hhead (by decide)

/-- A key `~S*` is first tried as a start of names and then as the expression without its `*`. -/
theorem applyKey_star (s v : GoString) :
    applyKey re model (126 :: (s ++ wildcard)) v =
      if Strings.startsWith model (126 :: s) then .mapped v else applyRegexp re model s v := by
  have htrim : Strings.trimSuffix (126 :: (s ++ wildcard)) wildcard = 126 :: s :=
    trimSuffix_append_wildcard (126 :: s)
  have hsuffix : wildcard.isSuffixOf (126 :: (s ++ wildcard)) = true := by
    rw [List.isSuffixOf_iff_suffix]
    exact List.suffix_append (126 :: s) wildcard
  rw [applyKey, if_neg (tilde_ne_wildcard _)]
  simp only [htrim, hsuffix, true_and]

/-- An expression that does not end in `*` is applied as it is. -/
theorem applyKey_regexp {expr : GoString} (h : ¬ wildcard.isSuffixOf (126 :: expr) = true)
    (v : GoString) : applyKey re model (126 :: expr) v = applyRegexp re model expr v := by
  rw [applyKey, if_neg (tilde_ne_wildcard _)]
  simp [trimSuffix_of_not h, h]

theorem keyOutcome_tilde (expr v : GoString) :
    keyOutcome re model (126 :: expr) v = applyRegexp re model expr v := by
  rw [keyOutcome, if_neg (tilde_ne_wildcard expr)]

theorem keyOutcome_other {k : GoString} (hwild : k ≠ wildcard) (h : ∀ expr, k ≠ 126 :: expr)
    (v : GoString) :
    keyOutcome re model k v =
      if wildcard.isSuffixOf k ∧ Strings.startsWith model (Strings.trimSuffix k wildcard) then
        .mapped v
      else .passed := by
  rw [keyOutcome.eq_def, if_neg hwild]
  split
  · rename_i expr
    exact absurd rfl (h expr)
  · rfl

/-- A key that starts with `~` after its `*` is taken off starts with it before. -/
theorem tilde_of_trimSuffix {k expr : GoString} (h : Strings.trimSuffix k wildcard = 126 :: expr) :
    ∃ expr', k = 126 :: expr' := by
  by_cases hsuffix : wildcard.isSuffixOf k = true
  · obtain ⟨s, rfl⟩ := exists_of_isSuffixOf hsuffix
    rw [trimSuffix_append_wildcard] at h
    exact ⟨expr ++ wildcard, by rw [h]; rfl⟩
  · rw [trimSuffix_of_not hsuffix] at h
    exact ⟨expr, h⟩

/-- All keys but those for expressions are applied as what they are for. -/
theorem applyKey_eq_keyOutcome {k v : GoString}
    (h : ∀ expr, k = 126 :: expr → applyKey re model k v = applyRegexp re model expr v) :
    applyKey re model k v = keyOutcome re model k v := by
  by_cases htilde : ∃ expr, k = 126 :: expr
  · obtain ⟨expr, rfl⟩ := htilde
    rw [h expr rfl, keyOutcome_tilde]
  · by_cases hwild : k = wildcard
    · subst hwild
      rw [applyKey, if_pos rfl]
      rfl
    · rw [keyOutcome_other hwild fun expr hk => htilde ⟨expr, hk⟩, applyKey, if_neg hwild]
      dsimp only
      split_ifs with hstart
      · rfl
      · split
        · rename_i expr htrim
          exact absurd (tilde_of_trimSuffix htrim) htilde
        · rfl

/-! ### The loop -/

/-- The loop passes all keys, or ends with one of them. -/
theorem applyKeys_cases (es : List (GoString × GoString)) :
    (applyKeys re model es = .passed ∧ ∀ e ∈ es, applyKey re model e.1 e.2 = .passed) ∨
      ∃ e ∈ es, applyKey re model e.1 e.2 ≠ .passed ∧
        applyKeys re model es = applyKey re model e.1 e.2 := by
  induction es with
  | nil => exact Or.inl ⟨rfl, by simp⟩
  | cons e es ih =>
      by_cases hpassed : applyKey re model e.1 e.2 = .passed
      · have heq : applyKeys re model (e :: es) = applyKeys re model es := by
          rw [applyKeys, hpassed]
        rcases ih with ⟨hall, hpass⟩ | ⟨e', he', hne, hloop⟩
        · refine Or.inl ⟨heq.trans hall, ?_⟩
          intro e' he'
          rcases List.mem_cons.mp he' with rfl | he'
          · exact hpassed
          · exact hpass e' he'
        · exact Or.inr ⟨e', List.mem_cons_of_mem _ he', hne, heq.trans hloop⟩
      · refine Or.inr ⟨e, List.mem_cons_self, hpassed, ?_⟩
        rw [applyKeys]
        split
        · contradiction
        · rfl

/-- A key that is not passed ends the loop if it comes first. -/
theorem applyKeys_cons {e : GoString × GoString} (h : applyKey re model e.1 e.2 ≠ .passed) :
    applyKeys re model (e :: es) = applyKey re model e.1 e.2 := by
  rw [applyKeys]
  split
  · contradiction
  · rfl

theorem getMappedModel_of_key (h : (es.map Prod.fst).Nodup) {v : GoString} (hmem : (model, v) ∈ es) :
    getMappedModel re model es = some (orModel model v) := by
  have hne : es ≠ [] := List.ne_nil_of_mem hmem
  rw [getMappedModel, doGetMappedModel, if_neg hne, (GoMap.lookup_eq_some_iff h).mpr hmem]
  rfl

theorem getMappedModel_of_not_key (h : model ∉ es.map Prod.fst) :
    getMappedModel re model es =
      (match applyKeys re model es with
      | .passed => some (orModel model ((es.lookup wildcard).getD []))
      | outcome => outcome.result model) := by
  rw [getMappedModel, doGetMappedModel, GoMap.lookup_eq_none_iff.mpr h]
  by_cases hnil : es = []
  · subst hnil
    rfl
  · rw [if_neg hnil]
    dsimp only
    cases applyKeys re model es with
    | passed => cases es.lookup wildcard <;> rfl
    | panicked => rfl
    | mapped v => rfl

theorem lookup_of_perm (hperm : es.Perm mapping.entries) (name : GoString) :
    es.lookup name = mapping.entries.lookup name := by
  have hnodup : (es.map Prod.fst).Nodup := (hperm.map Prod.fst).nodup_iff.mpr mapping.nodup
  apply Option.ext
  intro v
  rw [GoMap.lookup_eq_some_iff hnodup, GoMap.lookup_eq_some_iff mapping.nodup, hperm.mem_iff]

/-- Any two keys that are not passed make the same of the model. -/
def Agree (re : Regexp) (mapping : Mapping) (model : GoString) : Prop :=
  ∀ e ∈ mapping.entries, ∀ e' ∈ mapping.entries, applyKey re model e.1 e.2 ≠ .passed →
    applyKey re model e'.1 e'.2 ≠ .passed →
    (applyKey re model e.1 e.2).result model = (applyKey re model e'.1 e'.2).result model

/-- What an order of the loop gives for a model that is no key. -/
theorem getMappedModel_cases (hkey : model ∉ mapping.entries.map Prod.fst)
    (hperm : es.Perm mapping.entries) :
    ((∀ e ∈ mapping.entries, applyKey re model e.1 e.2 = .passed) ∧
      getMappedModel re model es =
        some (orModel model ((mapping.entries.lookup wildcard).getD []))) ∨
    ∃ e ∈ mapping.entries, applyKey re model e.1 e.2 ≠ .passed ∧
      getMappedModel re model es = (applyKey re model e.1 e.2).result model := by
  have hnot : model ∉ es.map Prod.fst := fun hmem => hkey ((hperm.map Prod.fst).mem_iff.mp hmem)
  rw [getMappedModel_of_not_key hnot]
  rcases @applyKeys_cases re model es with ⟨heq, hall⟩ | ⟨e, he, hne, heq⟩
  · left
    refine ⟨fun e he => hall e (hperm.mem_iff.mpr he), ?_⟩
    rw [heq, ← lookup_of_perm hperm]
  · right
    refine ⟨e, hperm.mem_iff.mp he, hne, ?_⟩
    rw [heq]
    split
    · contradiction
    · rfl

/-- The order does not matter if and only if the keys agree. -/
theorem order_iff_agree (hkey : model ∉ mapping.entries.map Prod.fst) :
    (∀ es es', es.Perm mapping.entries → es'.Perm mapping.entries →
      getMappedModel re model es = getMappedModel re model es') ↔ Agree re mapping model := by
  constructor
  · intro horder e he e' he' hne hne'
    -- each of the two keys can come first
    have hfirst : ∀ e ∈ mapping.entries, applyKey re model e.1 e.2 ≠ .passed →
        getMappedModel re model (e :: mapping.entries.erase e) =
          (applyKey re model e.1 e.2).result model := by
      intro e he hne
      have hnot : model ∉ (e :: mapping.entries.erase e).map Prod.fst := fun hmem =>
        hkey (((List.perm_cons_erase he).symm.map Prod.fst).mem_iff.mp hmem)
      rw [getMappedModel_of_not_key hnot, applyKeys_cons hne]
      split
      · contradiction
      · rfl
    rw [← hfirst e he hne, ← hfirst e' he' hne']
    exact horder _ _ (List.perm_cons_erase he).symm (List.perm_cons_erase he').symm
  · intro hagree es es' hperm hperm'
    rcases @getMappedModel_cases re model es mapping hkey hperm with
      ⟨hall, heq⟩ | ⟨e, he, hne, heq⟩
    · rcases @getMappedModel_cases re model es' mapping hkey hperm' with
        ⟨-, heq'⟩ | ⟨e', he', hne', -⟩
      · rw [heq, heq']
      · exact absurd (hall e' he') hne'
    · rcases @getMappedModel_cases re model es' mapping hkey hperm' with
        ⟨hall', -⟩ | ⟨e', he', hne', heq'⟩
      · exact absurd (hall' e he) hne
      · rw [heq, heq']
        exact hagree e he e' he' hne hne'

/-- Expressions are applied as they are if and only if those that end in `*` are. -/
theorem regexp_iff_sameStar :
    (∀ expr v, (126 :: expr, v) ∈ mapping.entries →
      applyKey re model (126 :: expr) v = applyRegexp re model expr v) ↔
    ∀ s v, (126 :: (s ++ wildcard), v) ∈ mapping.entries → SameStar re model s v := by
  constructor
  · intro h s v hmem
    have heq := h (s ++ wildcard) v hmem
    rw [applyKey_star] at heq
    rw [SameStar]
    split_ifs with hstart
    · rw [if_pos hstart] at heq
      exact heq.symm
    · rw [if_neg hstart] at heq
      exact heq
  · intro h expr v hmem
    by_cases hsuffix : wildcard.isSuffixOf (126 :: expr) = true
    · obtain ⟨s, rfl⟩ : ∃ s, expr = s ++ wildcard := by
        obtain ⟨t, ht⟩ := exists_of_isSuffixOf hsuffix
        cases t with
        | nil => exact absurd ht (tilde_ne_wildcard expr)
        | cons b s => exact ⟨s, (List.cons.inj ht).2⟩
      have hsame := h s v hmem
      rw [SameStar] at hsame
      rw [applyKey_star]
      split_ifs with hstart
      · rw [if_pos hstart] at hsame
        exact hsame.symm
      · rw [if_neg hstart] at hsame
        exact hsame
    · exact applyKey_regexp hsuffix v

/-- The mapping is applied as it is meant to be exactly when the model is one of the keys, or the
keys that are not passed agree and those of the form `~S*` do what `S*` does. -/
theorem precedence_iff (re : Regexp) (mapping : Mapping) (model : GoString) :
    Precedence re mapping model ↔
      model ∈ mapping.entries.map Prod.fst ∨
        (Agree re mapping model ∧
          ∀ s v, (126 :: (s ++ wildcard), v) ∈ mapping.entries → SameStar re model s v) := by
  have hname : ∀ v, (model, v) ∈ mapping.entries → ∀ es, es.Perm mapping.entries →
      getMappedModel re model es = some (orModel model v) := fun v hmem es hperm =>
    getMappedModel_of_key ((hperm.map Prod.fst).nodup_iff.mpr mapping.nodup) (hperm.mem_iff.mpr hmem)
  by_cases hkey : model ∈ mapping.entries.map Prod.fst
  · refine ⟨fun _ => Or.inl hkey, fun _ => ?_⟩
    obtain ⟨e, he, hmodel⟩ := List.mem_map.mp hkey
    have hmem : (model, e.2) ∈ mapping.entries := by rwa [← hmodel]
    refine ⟨?_, hname, fun h => absurd hkey h, fun h => absurd hkey h, fun h => absurd hkey h⟩
    intro es es' hperm hperm'
    rw [hname e.2 hmem es hperm, hname e.2 hmem es' hperm']
  · constructor
    · intro h
      exact Or.inr ⟨(order_iff_agree hkey).mp h.order, regexp_iff_sameStar.mp (h.regexp hkey)⟩
    · rintro (h | ⟨hagree, hstar⟩)
      · exact absurd h hkey
      · have hregexp := regexp_iff_sameStar.mpr hstar
        have hmeant : ∀ e ∈ mapping.entries,
            applyKey re model e.1 e.2 = keyOutcome re model e.1 e.2 := by
          intro e he
          refine applyKey_eq_keyOutcome fun expr hexpr => ?_
          rw [hexpr]
          exact hregexp expr e.2 (hexpr ▸ he)
        refine ⟨(order_iff_agree hkey).mpr hagree, hname, ?_, ?_, fun _ => hregexp⟩
        · rintro - es hperm ⟨e₀, he₀, hne₀⟩
          rcases @getMappedModel_cases re model es mapping hkey hperm with
            ⟨hall, -⟩ | ⟨e, he, hne, heq⟩
          · exact absurd ((hmeant e₀ he₀).symm.trans (hall e₀ he₀)) hne₀
          · rw [hmeant e he] at hne heq
            exact ⟨e, he, hne, heq⟩
        · intro _ es hperm hall
          rcases @getMappedModel_cases re model es mapping hkey hperm with
            ⟨-, heq⟩ | ⟨e, he, hne, -⟩
          · exact heq
          · exact absurd ((hmeant e he).trans (hall e he)) hne

/-- Expressions without special characters, as far as they match. -/
def plainRegexp : Regexp where
  compiles _ := true
  matchString expr model := Strings.contains model expr
  replaceAllString expr model v := Strings.replaceFirst model expr v

/-- Two starts of one name. -/
def twoPrefixes : Mapping where
  entries := [(bytes "gpt-*", bytes "a"), (bytes "gpt-4*", bytes "b")]
  nodup := by decide

/-- The two keys map the model differently, and either can come first. -/
theorem two_prefixes_disagree :
    getMappedModel plainRegexp (bytes "gpt-4o") twoPrefixes.entries = some (bytes "a") ∧
      getMappedModel plainRegexp (bytes "gpt-4o") twoPrefixes.entries.reverse = some (bytes "b") ∧
      ¬ Precedence plainRegexp twoPrefixes (bytes "gpt-4o") := by
  have ha : getMappedModel plainRegexp (bytes "gpt-4o") twoPrefixes.entries = some (bytes "a") := rfl
  have hb : getMappedModel plainRegexp (bytes "gpt-4o") twoPrefixes.entries.reverse =
      some (bytes "b") := rfl
  refine ⟨ha, hb, ?_⟩
  intro h
  have hsame := h.order _ _ (List.Perm.refl _) (List.reverse_perm _)
  rw [ha, hb] at hsame
  exact absurd hsame (by decide)

end Higress.AiProxy.ModelMapping
