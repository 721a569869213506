import Higress.Lib.ByteSplit
import Higress.Lib.Trim

/-!
Texts that list parameters: parts between separators, each with a name before its first `=`.
A parameter is set by putting one part in the place of all those of its name, or behind the
others if there are none. Several are set one after the other; the order matters for those that
there were none of.
-/

namespace Higress.Lib

open Strings

/-- How the parts of a text are told apart: the byte between them, what is written after it, and
what is trimmed off a part. -/
structure ParamSyntax where
  sep : UInt8
  pad : GoString
  trim : GoString → GoString
  trim_nil : trim [] = []
  trim_trim : ∀ s, trim (trim s) = trim s
  trim_pad : ∀ s, trim (pad ++ s) = trim s
  trim_subset : ∀ s, trim s ⊆ s
  sep_pad : sep ∉ pad

namespace ParamSyntax

variable (syn : ParamSyntax)

/-- The parts that are not empty. -/
def parts (s : GoString) : List GoString :=
  ((split s [syn.sep]).map syn.trim).filter (· ≠ [])

/-- A part as it is read: it has no separator and nothing to trim. -/
structure Clean (p : GoString) : Prop where
  sep : syn.sep ∉ p
  trim : syn.trim p = p
  ne_nil : p ≠ []

def joined (ps : List GoString) : GoString := join ps (syn.sep :: syn.pad)

variable {syn} {s : GoString} {ps : List GoString}

theorem clean_of_mem_parts {p : GoString} (h : p ∈ syn.parts s) : syn.Clean p := by
  rw [parts, List.mem_filter, List.mem_map] at h
  obtain ⟨⟨q, hq, rfl⟩, hne⟩ := h
  refine ⟨fun hsep => ?_, syn.trim_trim q, by simpa using hne⟩
  exact notMem_of_mem_split hq (syn.trim_subset q hsep)

theorem joined_cons (p : GoString) (ps : List GoString) :
    syn.joined (p :: ps) = join (p :: ps.map (syn.pad ++ ·)) [syn.sep] := by
  induction ps generalizing p with
  | nil => simp [joined, join]
  | cons q ps ih =>
      have hq := ih (syn.pad ++ q)
      rw [joined, join, List.intercalate_cons_cons, List.map_cons, join,
        List.intercalate_cons_cons]
      change p ++ (syn.sep :: syn.pad) ++ syn.joined (q :: ps) = p ++ [syn.sep] ++ join _ _
      have hpad : syn.joined ((syn.pad ++ q) :: ps) = syn.pad ++ syn.joined (q :: ps) := by
        cases ps with
        | nil => simp [joined, join]
        | cons r ps => simp [joined, join, List.intercalate_cons_cons]
      rw [← hq, hpad]
      simp

/-- Clean parts are read again from the text that they are joined to. -/
theorem parts_joined (h : ∀ p ∈ ps, syn.Clean p) : syn.parts (syn.joined ps) = ps := by
  cases ps with
  | nil =>
      change List.filter _ (List.map syn.trim (split [] [syn.sep])) = []
      simp [split, splitFrom, syn.trim_nil]
  | cons p ps =>
      have hsep : ∀ q ∈ p :: ps.map (syn.pad ++ ·), syn.sep ∉ q := by
        intro q hq
        rcases List.mem_cons.mp hq with rfl | hq
        · exact (h q (by simp)).sep
        · obtain ⟨r, hr, rfl⟩ := List.mem_map.mp hq
          rw [List.mem_append, not_or]
          exact ⟨syn.sep_pad, (h r (by simp [hr])).sep⟩
      have htrim : (ps.map (syn.pad ++ ·)).map syn.trim = ps := by
        rw [List.map_map]
        conv => rhs; rw [← List.map_id ps]
        apply List.map_congr_left
        intro q hq
        change syn.trim (syn.pad ++ q) = q
        rw [syn.trim_pad, (h q (by simp [hq])).trim]
      rw [parts, joined_cons, split_join_byte hsep (by simp), List.map_cons, htrim,
        (h p (by simp)).trim, List.filter_eq_self]
      intro q hq
      simpa using (h q hq).ne_nil

end ParamSyntax

/-! ### Setting one parameter -/

/-- What stands before the first `=` of a part. -/
def paramName (part : GoString) : GoString := (cutByte 61 part).1

/-- The part of a name and a value. -/
def paramText (key value : GoString) : GoString := key ++ 61 :: value

theorem paramName_paramText {key : GoString} (h : 61 ∉ key) (value : GoString) :
    paramName (paramText key value) = key := by
  have := cutByte_append_afterByte h (some value)
  rw [paramName, paramText]
  exact congrArg Prod.fst this

theorem equals_notMem_paramName (part : GoString) : 61 ∉ paramName part := (cutByte_spec 61 part).1

/-- The loop over the parts, with whether the parameter has been put in its place. -/
def setParts (key value : GoString) : Bool → List GoString → List GoString
  | replaced, [] => if replaced then [] else [paramText key value]
  | replaced, part :: ps =>
      if paramName part ≠ key then part :: setParts key value replaced ps
      else if replaced then setParts key value replaced ps
      else paramText key value :: setParts key value true ps

section SetParts

variable {key value : GoString} {ps : List GoString}

theorem setParts_replaced (ps : List GoString) :
    setParts key value true ps = ps.filter (paramName · ≠ key) := by
  induction ps with
  | nil => rfl
  | cons part ps ih =>
      rw [setParts, List.filter_cons, ih]
      by_cases h : paramName part = key
      · simp [h]
      · simp [h]

/-- If there are none of its name, the part is put behind the others. -/
theorem setParts_new (h : key ∉ ps.map paramName) :
    setParts key value false ps = ps ++ [paramText key value] := by
  induction ps with
  | nil => rfl
  | cons part ps ih =>
      rw [List.map_cons, List.mem_cons, not_or] at h
      rw [setParts, if_pos (Ne.symm h.1), ih h.2, List.cons_append]

/-- Otherwise it takes the place of the first, and the others go. -/
theorem setParts_append {pre post : List GoString} {part : GoString} (hpart : paramName part = key)
    (hpre : key ∉ pre.map paramName) :
    setParts key value false (pre ++ part :: post) =
      pre ++ paramText key value :: post.filter (paramName · ≠ key) := by
  induction pre with
  | nil =>
      rw [List.nil_append, setParts, if_neg (by simpa using hpart), setParts_replaced]
      rfl
  | cons p pre ih =>
      rw [List.map_cons, List.mem_cons, not_or] at hpre
      rw [List.cons_append, setParts, if_pos (Ne.symm hpre.1), ih hpre.2]
      rfl

/-- The first part of a name. -/
theorem exists_first_of_mem (h : key ∈ ps.map paramName) :
    ∃ pre part post, ps = pre ++ part :: post ∧ paramName part = key ∧ key ∉ pre.map paramName := by
  induction ps with
  | nil => simp at h
  | cons p ps ih =>
      by_cases hp : paramName p = key
      · exact ⟨[], p, ps, rfl, hp, by simp⟩
      · rw [List.map_cons, List.mem_cons] at h
        obtain ⟨pre, part, post, rfl, hpart, hpre⟩ := ih (h.resolve_left (Ne.symm hp))
        refine ⟨p :: pre, part, post, rfl, hpart, ?_⟩
        rw [List.map_cons, List.mem_cons, not_or]
        exact ⟨Ne.symm hp, hpre⟩

/-- The parts of other names stay as they are. -/
theorem filter_setParts {q : GoString → Bool} (hq : ∀ p, paramName p = key → q p = false)
    (hkey : 61 ∉ key) : (setParts key value false ps).filter q = ps.filter q := by
  have htext : q (paramText key value) = false := hq _ (paramName_paramText hkey value)
  by_cases h : key ∈ ps.map paramName
  · obtain ⟨pre, part, post, rfl, hpart, hpre⟩ := exists_first_of_mem h
    rw [setParts_append hpart hpre, List.filter_append, List.filter_append, List.filter_cons,
      List.filter_cons, htext, hq part hpart, List.filter_filter]
    simp only [Bool.false_eq_true, if_false]
    congr 1
    apply List.filter_congr
    intro p _
    by_cases hp : paramName p = key
    · simp [hp, hq p hp]
    · simp [hp]
  · rw [setParts_new h, List.filter_append, List.filter_cons, htext]
    simp

/-- There is one part of the name. -/
theorem filter_setParts_self (hkey : 61 ∉ key) :
    (setParts key value false ps).filter (paramName · = key) = [paramText key value] := by
  have htext := paramName_paramText hkey value
  by_cases h : key ∈ ps.map paramName
  · obtain ⟨pre, part, post, rfl, hpart, hpre⟩ := exists_first_of_mem h
    have hnone : pre.filter (paramName · = key) = [] := by
      rw [List.filter_eq_nil_iff]
      intro p hp heq
      exact hpre (List.mem_map.mpr ⟨p, hp, of_decide_eq_true heq⟩)
    rw [setParts_append hpart hpre, List.filter_append, List.filter_cons, hnone, htext,
      List.filter_filter]
    simp
  · have hnone : ps.filter (paramName · = key) = [] := by
      rw [List.filter_eq_nil_iff]
      intro p hp heq
      exact h (List.mem_map.mpr ⟨p, hp, of_decide_eq_true heq⟩)
    rw [setParts_new h, List.filter_append, hnone]
    simp [htext]

theorem mem_setParts {p : GoString} {replaced : Bool} (h : p ∈ setParts key value replaced ps) :
    p ∈ ps ∨ p = paramText key value := by
  induction ps generalizing replaced with
  | nil =>
      cases replaced with
      | true => simp [setParts] at h
      | false => exact .inr (by simpa [setParts] using h)
  | cons part ps ih =>
      rw [setParts] at h
      split_ifs at h
      · rcases List.mem_cons.mp h with rfl | h
        · exact .inl (by simp)
        · exact (ih h).imp_left (List.mem_cons_of_mem _)
      · exact (ih h).imp_left (List.mem_cons_of_mem _)
      · rcases List.mem_cons.mp h with rfl | h
        · exact .inr rfl
        · exact (ih h).imp_left (List.mem_cons_of_mem _)

/-- The names, of which none comes to another place. -/
theorem names_setParts (hkey : 61 ∉ key) :
    List.Sublist ((setParts key value false ps).map paramName) (ps.map paramName) ∨
      key ∉ ps.map paramName ∧
        (setParts key value false ps).map paramName = ps.map paramName ++ [key] := by
  have htext := paramName_paramText hkey value
  by_cases h : key ∈ ps.map paramName
  · left
    obtain ⟨pre, part, post, rfl, hpart, hpre⟩ := exists_first_of_mem h
    rw [setParts_append hpart hpre, List.map_append, List.map_append, List.map_cons, List.map_cons,
      htext, hpart]
    exact (List.Sublist.refl _).append ((List.filter_sublist.map _).cons_cons _)
  · right
    rw [setParts_new h, List.map_append]
    exact ⟨h, by simp [htext]⟩

theorem mem_names_setParts (hkey : 61 ∉ key) {name : GoString} :
    name ∈ (setParts key value false ps).map paramName ↔ name = key ∨ name ∈ ps.map paramName := by
  constructor
  · intro h
    obtain ⟨p, hp, rfl⟩ := List.mem_map.mp h
    rcases mem_setParts hp with hp | rfl
    · exact .inr (List.mem_map.mpr ⟨p, hp, rfl⟩)
    · exact .inl (paramName_paramText hkey value)
  · intro h
    by_cases hname : name = key
    · have hself : paramText key value ∈ (setParts key value false ps).filter (paramName · = key) := by
        rw [filter_setParts_self hkey]
        simp
      rw [hname]
      exact List.mem_map.mpr ⟨_, (List.mem_filter.mp hself).1, paramName_paramText hkey value⟩
    · obtain ⟨p, hp, rfl⟩ := List.mem_map.mp (h.resolve_left hname)
      have hother : p ∈ (setParts key value false ps).filter (paramName · ≠ key) := by
        rw [filter_setParts (by simp) hkey]
        exact List.mem_filter.mpr ⟨hp, by simpa using hname⟩
      exact List.mem_map.mpr ⟨p, (List.mem_filter.mp hother).1, rfl⟩

end SetParts

/-! ### Setting several parameters -/

/-- Sets parameters one after the other. -/
def setAll (sets : List (GoString × GoString)) (ps : List GoString) : List GoString :=
  sets.foldl (fun ps kv => setParts kv.1 kv.2 false ps) ps

/-- What the parts should be after parameters are set: one part for each of them, the others as
they were, and all in the places that parts of their names had, or behind them. -/
structure Updated (sets : List (GoString × GoString)) (old new : List GoString) : Prop where
  one : ∀ kv ∈ sets, new.filter (paramName · = kv.1) = [paramText kv.1 kv.2]
  others : new.filter (paramName · ∉ sets.map Prod.fst) =
    old.filter (paramName · ∉ sets.map Prod.fst)
  places : ∃ kept added, new.map paramName = kept ++ added ∧
    List.Sublist kept (old.map paramName) ∧ ∀ name ∈ added, name ∉ old.map paramName

/-- At most one of the parameters has no part yet. -/
def OneNew (sets : List (GoString × GoString)) (ps : List GoString) : Prop :=
  ∀ kv ∈ sets, ∀ kv' ∈ sets, kv.1 ∉ ps.map paramName → kv'.1 ∉ ps.map paramName → kv.1 = kv'.1

section SetAll

variable {sets xs ys : List (GoString × GoString)} {ps : List GoString}

theorem filter_setAll (hkeys : ∀ kv ∈ sets, 61 ∉ kv.1) {q : GoString → Bool}
    (hq : ∀ kv ∈ sets, ∀ p, paramName p = kv.1 → q p = false) :
    (setAll sets ps).filter q = ps.filter q := by
  induction sets generalizing ps with
  | nil => rfl
  | cons kv sets ih =>
      change (setAll sets (setParts kv.1 kv.2 false ps)).filter q = _
      rw [ih (fun kv h => hkeys kv (List.mem_cons_of_mem _ h))
        (fun kv h => hq kv (List.mem_cons_of_mem _ h)),
        filter_setParts (hq kv (by simp)) (hkeys kv (by simp))]

theorem filter_setAll_self (hkeys : ∀ kv ∈ sets, 61 ∉ kv.1) (hnodup : (sets.map Prod.fst).Nodup) :
    ∀ kv ∈ sets, (setAll sets ps).filter (paramName · = kv.1) = [paramText kv.1 kv.2] := by
  induction sets generalizing ps with
  | nil => simp
  | cons kv sets ih =>
      rw [List.map_cons, List.nodup_cons] at hnodup
      have hrest : ∀ kv ∈ sets, 61 ∉ kv.1 := fun kv h => hkeys kv (List.mem_cons_of_mem _ h)
      intro kv' hmem
      change (setAll sets (setParts kv.1 kv.2 false ps)).filter _ = _
      rcases List.mem_cons.mp hmem with rfl | hmem
      · rw [filter_setAll hrest, filter_setParts_self (hkeys kv' (by simp))]
        intro other hother p hp
        have hne : other.1 ≠ kv'.1 := fun heq =>
          hnodup.1 (heq ▸ List.mem_map.mpr ⟨other, hother, rfl⟩)
        simp [hp, hne]
      · exact ih hrest hnodup.2 kv' hmem

theorem mem_names_setAll (hkeys : ∀ kv ∈ sets, 61 ∉ kv.1) {name : GoString} :
    name ∈ (setAll sets ps).map paramName ↔
      name ∈ sets.map Prod.fst ∨ name ∈ ps.map paramName := by
  induction sets generalizing ps with
  | nil => simp [setAll]
  | cons kv sets ih =>
      change name ∈ (setAll sets (setParts kv.1 kv.2 false ps)).map paramName ↔ _
      rw [ih (fun kv h => hkeys kv (List.mem_cons_of_mem _ h)),
        mem_names_setParts (hkeys kv (by simp)), List.map_cons, List.mem_cons, or_assoc,
        or_left_comm]

theorem places_setAll (hkeys : ∀ kv ∈ sets, 61 ∉ kv.1) {old kept added : List GoString}
    (hnames : ps.map paramName = kept ++ added) (hkept : List.Sublist kept old)
    (hold : old ⊆ ps.map paramName) (hadded : ∀ name ∈ added, name ∉ old) :
    ∃ kept added, (setAll sets ps).map paramName = kept ++ added ∧ List.Sublist kept old ∧
      ∀ name ∈ added, name ∉ old := by
  induction sets generalizing ps kept added with
  | nil => exact ⟨kept, added, hnames, hkept, hadded⟩
  | cons kv sets ih =>
      have hkey := hkeys kv (by simp)
      have hrest : ∀ kv ∈ sets, 61 ∉ kv.1 := fun kv h => hkeys kv (List.mem_cons_of_mem _ h)
      have hold' : old ⊆ (setParts kv.1 kv.2 false ps).map paramName := fun name hname =>
        (mem_names_setParts hkey).mpr (.inr (hold hname))
      rcases names_setParts hkey with hsub | ⟨hnew, heq⟩
      · rw [hnames] at hsub
        obtain ⟨kept', added', heq, hk, ha⟩ := List.sublist_append_iff.mp hsub
        exact ih hrest heq (hk.trans hkept) hold' (fun name h => hadded name (ha.subset h))
      · rw [hnames, List.append_assoc] at heq
        refine ih hrest heq hkept hold' fun name hname => ?_
        rcases List.mem_append.mp hname with hname | hname
        · exact hadded name hname
        · rw [List.mem_singleton.mp hname]
          exact fun h => hnew (hold h)

/-- Parameters with names of their own are set as they should be. -/
theorem setAll_updated (hkeys : ∀ kv ∈ sets, 61 ∉ kv.1) (hnodup : (sets.map Prod.fst).Nodup) :
    Updated sets ps (setAll sets ps) where
  one := filter_setAll_self hkeys hnodup
  others := by
    apply filter_setAll hkeys
    intro kv hkv p hp
    simp only [hp, decide_eq_false_iff_not, not_not]
    exact List.mem_map.mpr ⟨kv, hkv, rfl⟩
  places := places_setAll hkeys (List.append_nil _).symm (List.Sublist.refl _) (List.Subset.refl _)
    (by simp)

/-- Two loops can be exchanged if one of the parameters has its place already. -/
theorem setParts_comm {k k' v v' : GoString} (hk : 61 ∉ k) (hk' : 61 ∉ k') (hne : k ≠ k')
    (ps : List GoString) (r r' : Bool)
    (h : r = true ∨ r' = true ∨ k ∈ ps.map paramName ∨ k' ∈ ps.map paramName) :
    setParts k v r (setParts k' v' r' ps) = setParts k' v' r' (setParts k v r ps) := by
  have htext : paramName (paramText k v) = k := paramName_paramText hk v
  have htext' : paramName (paramText k' v') = k' := paramName_paramText hk' v'
  induction ps generalizing r r' with
  | nil =>
      cases r <;> cases r' <;> simp_all [setParts, hne.symm]
  | cons p ps ih =>
      by_cases hp : paramName p = k
      · -- the first loop puts its parameter in this place, or passes over it
        have hp' : paramName p ≠ k' := hp.trans_ne hne
        cases r with
        | true =>
            have := ih true r' (.inl rfl)
            simpa [setParts, hp, hne] using this
        | false =>
            have := ih true r' (.inl rfl)
            simpa [setParts, hp, hne, htext] using this
      · by_cases hp' : paramName p = k'
        · cases r' with
          | true =>
              have := ih r true (.inr (.inl rfl))
              simpa [setParts, hp', hne.symm] using this
          | false =>
              have := ih r true (.inr (.inl rfl))
              simpa [setParts, hp', hne.symm, htext'] using this
        · have := ih r r' (by simpa [Ne.symm hp, Ne.symm hp'] using h)
          simpa [setParts, hp, hp'] using this

theorem OneNew.setParts (h : OneNew sets ps) {k v : GoString} (hk : 61 ∉ k) :
    OneNew sets (Lib.setParts k v false ps) := by
  intro kv hkv kv' hkv' hnew hnew'
  rw [mem_names_setParts hk, not_or] at hnew hnew'
  exact h kv hkv kv' hkv' hnew.2 hnew'.2

/-- The order does not matter if at most one parameter has no part yet. -/
theorem setAll_perm (h : xs.Perm ys) (hkeys : ∀ kv ∈ xs, 61 ∉ kv.1)
    (hnodup : (xs.map Prod.fst).Nodup) (hnew : OneNew xs ps) : setAll xs ps = setAll ys ps := by
  induction h generalizing ps with
  | nil => rfl
  | cons kv h ih =>
      have hrest := fun kv' hmem => hkeys kv' (List.mem_cons_of_mem kv hmem)
      rw [List.map_cons, List.nodup_cons] at hnodup
      refine ih hrest hnodup.2 ?_
      apply OneNew.setParts _ (hkeys kv (by simp))
      exact fun a ha b hb => hnew a (by simp [ha]) b (by simp [hb])
  | swap kv kv' rest =>
      rw [List.map_cons, List.nodup_cons] at hnodup
      have hne : kv'.1 ≠ kv.1 := fun heq => hnodup.1 (by simp [heq])
      change setAll rest (setParts kv.1 kv.2 false (setParts kv'.1 kv'.2 false ps)) =
        setAll rest (setParts kv'.1 kv'.2 false (setParts kv.1 kv.2 false ps))
      rw [setParts_comm (hkeys kv (by simp)) (hkeys kv' (by simp)) hne.symm]
      by_contra hnone
      simp only [not_or] at hnone
      exact hne (hnew kv' (by simp) kv (by simp) hnone.2.2.2 hnone.2.2.1)
  | trans h₁ _ ih₁ ih₂ =>
      rw [ih₁ hkeys hnodup hnew]
      refine ih₂ (fun kv hkv => hkeys kv (h₁.mem_iff.mpr hkv)) ((h₁.map _).nodup_iff.mp hnodup) ?_
      exact fun a ha b hb => hnew a (h₁.mem_iff.mpr ha) b (h₁.mem_iff.mpr hb)

/-- A parameter that is set last and had no part stands last. -/
theorem getLast?_setAll {kv : GoString × GoString} (hkeys : ∀ kv ∈ sets, 61 ∉ kv.1)
    (hkv : kv.1 ∉ sets.map Prod.fst) (hnew : kv.1 ∉ ps.map paramName) :
    (setAll (sets ++ [kv]) ps).getLast? = some (paramText kv.1 kv.2) := by
  have hnot : kv.1 ∉ (setAll sets ps).map paramName := by
    rw [mem_names_setAll hkeys, not_or]
    exact ⟨hkv, hnew⟩
  rw [setAll, List.foldl_append]
  change (setParts kv.1 kv.2 false (setAll sets ps)).getLast? = _
  rw [setParts_new hnot]
  simp

/-- If each parameter can be set last with the same result, at most one has no part yet. -/
theorem oneNew_of_setAll (hkeys : ∀ kv ∈ sets, 61 ∉ kv.1) (hnodup : (sets.map Prod.fst).Nodup)
    {result : List GoString}
    (h : ∀ kv ∈ sets, ∃ rest, (rest ++ [kv]).Perm sets ∧ setAll (rest ++ [kv]) ps = result) :
    OneNew sets ps := by
  have hlast (kv : GoString × GoString) (hkv : kv ∈ sets) (hnew : kv.1 ∉ ps.map paramName) :
      result.getLast? = some (paramText kv.1 kv.2) := by
    obtain ⟨rest, hperm, rfl⟩ := h kv hkv
    have hnodup' := (hperm.map Prod.fst).nodup_iff.mpr hnodup
    rw [List.map_append, List.nodup_append] at hnodup'
    apply getLast?_setAll (fun kv' hmem => hkeys kv' (hperm.mem_iff.mp (by simp [hmem]))) _ hnew
    exact fun hmem => hnodup'.2.2 _ hmem _ (by simp) rfl
  intro kv hkv kv' hkv' hnew hnew'
  have heq := hlast kv hkv hnew
  rw [hlast kv' hkv' hnew'] at heq
  have := congrArg paramName (Option.some.inj heq)
  rw [paramName_paramText (hkeys kv hkv), paramName_paramText (hkeys kv' hkv')] at this
  exact this.symm

end SetAll

/-! ### Texts -/

/-- Sets a parameter in a text; one without a name is not set. -/
def ParamSyntax.setParam (syn : ParamSyntax) (existing key value : GoString) : GoString :=
  if key = [] then existing else syn.joined (setParts key value false (syn.parts existing))

theorem ParamSyntax.parts_setParam {syn : ParamSyntax} {existing key value : GoString}
    (hkey : key ≠ []) (h : syn.Clean (paramText key value)) :
    syn.parts (syn.setParam existing key value) =
      setParts key value false (syn.parts existing) := by
  rw [setParam, if_neg hkey, parts_joined]
  intro p hp
  rcases mem_setParts hp with hp | rfl
  · exact clean_of_mem_parts hp
  · exact h

namespace ParamSyntax

/-- Sets parameters in a text, one after the other. -/
def setParams (syn : ParamSyntax) (sets : List (GoString × GoString)) (s : GoString) : GoString :=
  sets.foldl (fun s kv => syn.setParam s kv.1 kv.2) s

/-- The parameters that have a name. -/
def named (sets : List (GoString × GoString)) : List (GoString × GoString) :=
  sets.filter (·.1 ≠ [])

/-- Names and values that can stand in a text. -/
structure Settable (syn : ParamSyntax) (sets : List (GoString × GoString)) : Prop where
  keys : ∀ kv ∈ named sets, 61 ∉ kv.1
  clean : ∀ kv ∈ named sets, syn.Clean (paramText kv.1 kv.2)

variable {syn : ParamSyntax} {sets xs : List (GoString × GoString)}

theorem named_perm (h : xs.Perm sets) : (named xs).Perm (named sets) := h.filter _

theorem Settable.perm (h : syn.Settable sets) (hperm : xs.Perm sets) : syn.Settable xs :=
  ⟨fun kv hkv => h.keys kv ((named_perm hperm).mem_iff.mp hkv),
    fun kv hkv => h.clean kv ((named_perm hperm).mem_iff.mp hkv)⟩

theorem setParams_eq (h : ∀ kv ∈ named sets, syn.Clean (paramText kv.1 kv.2)) (s : GoString) :
    syn.setParams sets s =
      if named sets = [] then s else syn.joined (setAll (named sets) (syn.parts s)) := by
  induction sets generalizing s with
  | nil => rfl
  | cons kv sets ih =>
      change syn.setParams sets (syn.setParam s kv.1 kv.2) = _
      by_cases hkv : kv.1 = []
      · have hnamed : named (kv :: sets) = named sets := by simp [named, hkv]
        rw [hnamed] at h ⊢
        rw [setParam, if_pos hkv, ih h]
      · have hnamed : named (kv :: sets) = kv :: named sets := by simp [named, hkv]
        rw [hnamed] at h ⊢
        have hrest := fun kv' hmem => h kv' (List.mem_cons_of_mem kv hmem)
        rw [ih hrest, parts_setParam hkv (h kv (by simp)), if_neg (List.cons_ne_nil _ _)]
        by_cases hnone : named sets = []
        · rw [if_pos hnone, hnone, setParam, if_neg hkv]
          rfl
        · rw [if_neg hnone]
          rfl

theorem parts_setParams (h : ∀ kv ∈ named sets, syn.Clean (paramText kv.1 kv.2)) (s : GoString) :
    syn.parts (syn.setParams sets s) = setAll (named sets) (syn.parts s) := by
  induction sets generalizing s with
  | nil => rfl
  | cons kv sets ih =>
      change syn.parts (syn.setParams sets (syn.setParam s kv.1 kv.2)) = _
      by_cases hkv : kv.1 = []
      · have hnamed : named (kv :: sets) = named sets := by simp [named, hkv]
        rw [hnamed] at h ⊢
        rw [setParam, if_pos hkv, ih h]
      · have hnamed : named (kv :: sets) = kv :: named sets := by simp [named, hkv]
        rw [hnamed] at h ⊢
        rw [ih (fun kv' hmem => h kv' (List.mem_cons_of_mem kv hmem)),
          parts_setParam hkv (h kv (by simp))]
        rfl

theorem nodup_named (h : (sets.map Prod.fst).Nodup) : ((named sets).map Prod.fst).Nodup :=
  h.sublist (List.filter_sublist.map _)

/-- A name and a value that are read back as they were set can stand in a text. -/
theorem settable_of_updated {old : List GoString} {t : GoString}
    (h : Updated (named sets) old (syn.parts t)) : syn.Settable sets := by
  have hmem (kv : GoString × GoString) (hkv : kv ∈ named sets) :
      paramText kv.1 kv.2 ∈ (syn.parts t).filter (paramName · = kv.1) := by
    rw [h.one kv hkv]
    exact List.mem_singleton_self _
  refine ⟨fun kv hkv => ?_, fun kv hkv => ?_⟩
  · have hname := (List.mem_filter.mp (hmem kv hkv)).2
    rw [← of_decide_eq_true hname]
    exact equals_notMem_paramName _
  · exact clean_of_mem_parts (List.mem_filter.mp (hmem kv hkv)).1

/-- Parameters that can stand in the text are set as they should be. -/
theorem setParams_updated (hnodup : (sets.map Prod.fst).Nodup) (h : syn.Settable sets)
    (s : GoString) : Updated (named sets) (syn.parts s) (syn.parts (syn.setParams sets s)) := by
  rw [parts_setParams h.clean]
  exact setAll_updated h.keys (nodup_named hnodup)

/-- At most one of them has no part yet: then the order does not matter. -/
theorem setParams_perm (hnodup : (sets.map Prod.fst).Nodup) (h : syn.Settable sets) {s : GoString}
    (hnew : OneNew (named sets) (syn.parts s)) (hperm : xs.Perm sets) :
    syn.setParams xs s = syn.setParams sets s := by
  have hnamed := named_perm hperm
  rw [setParams_eq (h.perm hperm).clean, setParams_eq h.clean,
    setAll_perm hnamed.symm h.keys (nodup_named hnodup) hnew]
  by_cases hnone : named sets = []
  · rw [if_pos hnone, if_pos (by simpa [hnone] using hnamed)]
  · rw [if_neg hnone, if_neg fun hx => hnone (by simpa [hx] using hnamed.symm)]

/-- If each can be set last with the same result, at most one has no part yet. -/
theorem oneNew_of_setParams (hnodup : (sets.map Prod.fst).Nodup) (h : syn.Settable sets)
    {s result : GoString}
    (hsame : ∀ kv ∈ named sets, ∃ rest, (rest ++ [kv]).Perm sets ∧
      syn.setParams (rest ++ [kv]) s = result) :
    OneNew (named sets) (syn.parts s) := by
  apply @oneNew_of_setAll _ _ h.keys (nodup_named hnodup) (syn.parts result)
  intro kv hkv
  obtain ⟨rest, hperm, hresult⟩ := hsame kv hkv
  have hnamed : named (rest ++ [kv]) = named rest ++ [kv] := by
    have hkey : kv.1 ≠ [] := by simpa using (List.mem_filter.mp hkv).2
    simp [named, List.filter_append, hkey]
  refine ⟨named rest, ?_, ?_⟩
  · rw [← hnamed]
    exact named_perm hperm
  · rw [← hnamed, ← parts_setParams (h.perm hperm).clean, hresult]

end ParamSyntax

end Higress.Lib
