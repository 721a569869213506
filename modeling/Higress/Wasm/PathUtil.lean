import Higress.Lib.Path

/-!
The package `pathutil` of the Wasm plugins: a path prefix that an operator has
configured is put before a request target of a client, and the target must not
lead out of it. Paths are checked as written and percent-decoded.
-/

namespace Higress.PathUtil

open Lib

inductive PathError
  | pathTraversal
  | invalidEscape
  | relativePrefix
  | nonCanonicalPrefix
  deriving DecidableEq

def PathError.message : PathError → GoString
  | .pathTraversal => bytes "request path escapes the configured prefix"
  | .invalidEscape => bytes "request path contains an undecodable percent-escape"
  | .relativePrefix => bytes "path prefix must be absolute"
  | .nonCanonicalPrefix => bytes "path prefix must be canonical"

/-- `SplitTarget`: the path and the query with its separator. -/
def splitTarget (target : GoString) : GoString × GoString :=
  match target.idxOf? 63 with
  | some i => (target.take i, target.drop i)
  | none => (target, [])

/-- `WithinPrefix`. -/
def withinPrefix (p pre : GoString) : Bool :=
  let p := Path.clean p
  let clean := Path.clean pre
  if clean = [47] then Strings.startsWith p [47]
  else p == clean || Strings.startsWith p (clean ++ [47])

def validatePrefix (pre : GoString) : Option PathError :=
  if !Strings.startsWith pre [47] then some .relativePrefix
  else
    let trimmed := Strings.trimSuffix pre [47]
    if trimmed = [] ∨ Path.clean trimmed = trimmed then none else some .nonCanonicalPrefix

def isRootPrefix (pre : GoString) : Bool := Path.clean pre == [47]

/-- `ValidateWithin`. -/
def validateWithin (pre target : GoString) : Option PathError :=
  match validatePrefix pre with
  | some err => some err
  | none =>
      let pathPart := (splitTarget target).1
      if pathPart.contains 92 then some .pathTraversal
      else if !withinPrefix pathPart pre then some .pathTraversal
      else if isRootPrefix pre then none
      else match Path.unescape pathPart with
        | none => some .invalidEscape
        | some decoded =>
            if decoded.contains 92 || !withinPrefix decoded pre then some .pathTraversal else none

/-- `SafeJoin`. -/
def safeJoin (pre target : GoString) : GoString × Option PathError :=
  let (pathPart, querySuffix) := splitTarget target
  let joined := Path.join [pre, pathPart]
  match validateWithin pre joined with
  | some err => ([], some err)
  | none => (joined ++ querySuffix, none)

theorem startsWith_slash {p : GoString} : Strings.startsWith p [47] = true ↔ p.head? = some 47 := by
  cases p with
  | nil => simp [Strings.startsWith]
  | cons b p =>
      rw [Strings.startsWith, List.isPrefixOf_iff_prefix, List.cons_prefix_cons, List.head?_cons,
        Option.some_inj]
      exact ⟨fun h => h.1.symm, fun h => ⟨h.symm, List.nil_prefix⟩⟩

/-- A rooted path and what it is cleaned to. -/
theorem clean_of_rooted {p : GoString} (h : p.head? = some 47) :
    Path.clean p = 47 :: Strings.join (Path.resolve p) [47] := by
  rw [Path.clean, if_pos h]

theorem clean_eq_slash_iff {p : GoString} (h : p.head? = some 47) :
    Path.clean p = [47] ↔ Path.resolve p = [] := by
  rw [clean_of_rooted h]
  constructor
  · intro heq
    by_contra hne
    have := Path.elements_join (fun e he => (Path.plain_of_mem_resolve he).slash) hne
    rw [(List.cons.inj heq).2] at this
    have hnil : ([] : GoString) ∈ Path.resolve p := by
      rw [← this]
      simp [Path.elements]
    exact (Path.plain_of_mem_resolve hnil).ne_nil rfl
  · intro heq
    rw [heq]
    rfl

/-- Containment is decided on the resolved elements. -/
theorem withinPrefix_iff {p pre : GoString} (hpre : pre.head? = some 47) :
    withinPrefix p pre = true ↔ p.head? = some 47 ∧ Path.resolve pre <+: Path.resolve p := by
  rw [withinPrefix]
  split
  · rename_i hroot
    rw [(clean_eq_slash_iff hpre).mp hroot, startsWith_slash]
    constructor
    · intro h
      obtain ⟨q, hq⟩ : ∃ q, Path.clean p = 47 :: q := by
        cases hc : Path.clean p with
        | nil => simp [hc] at h
        | cons b q =>
            obtain rfl : b = 47 := by simpa [hc] using h
            exact ⟨q, rfl⟩
      exact ⟨Path.rooted_of_clean hq, List.nil_prefix⟩
    · rintro ⟨h, -⟩
      simp [clean_of_rooted h]
  · rename_i hroot
    have hne : Path.resolve pre ≠ [] := fun h => hroot ((clean_eq_slash_iff hpre).mpr h)
    rw [Bool.or_eq_true, beq_iff_eq, Strings.startsWith, List.isPrefixOf_iff_prefix,
      clean_of_rooted hpre]
    constructor
    · intro h
      have hp : p.head? = some 47 := by
        rcases h with h | ⟨r, h⟩
        · exact Path.rooted_of_clean h
        · exact Path.rooted_of_clean h.symm
      refine ⟨hp, ?_⟩
      rw [clean_of_rooted hp] at h
      rcases h with h | h
      · have := congrArg Path.resolve h
        rw [Path.resolve_slash_join fun e => Path.plain_of_mem_resolve,
          Path.resolve_slash_join fun e => Path.plain_of_mem_resolve] at this
        rw [this]
      · rw [List.cons_append, List.cons_prefix_cons] at h
        exact Path.isPrefix_of_slash_isPrefix (fun e => Path.plain_of_mem_resolve)
          (fun e => Path.plain_of_mem_resolve) hne h.2
    · rintro ⟨hp, below, hbelow⟩
      rw [clean_of_rooted hp, ← hbelow]
      by_cases hb : below = []
      · left
        rw [hb, List.append_nil]
      · right
        rw [Path.join_append hne hb]
        exact ⟨Strings.join below [47], by simp⟩

/-- A valid prefix is its cleaned form, up to one slash at its end. -/
theorem validatePrefix_eq_none {pre : GoString} (h : validatePrefix pre = none) :
    pre.head? = some 47 ∧ (pre = Path.clean pre ∨ pre = Path.clean pre ++ [47]) := by
  rw [validatePrefix] at h
  split at h
  · simp at h
  rename_i hslash
  have hpre : pre.head? = some 47 := startsWith_slash.mp (by simpa using hslash)
  refine ⟨hpre, ?_⟩
  dsimp only at h
  split at h
  · rename_i htrim
    rw [Strings.trimSuffix] at htrim
    split at htrim
    · rename_i hsuffix
      obtain ⟨trimmed, rfl⟩ := List.isSuffixOf_iff_suffix.mp hsuffix
      have htake : (trimmed ++ [47]).take ((trimmed ++ [47]).length - [(47 : UInt8)].length) =
          trimmed := by simp
      rw [htake] at htrim
      cases trimmed with
      | nil => exact Or.inl (by decide)
      | cons b t =>
          obtain rfl : b = 47 := by simpa using hpre
          right
          rw [List.cons_append, Path.clean_rooted, Path.resolve_append_slash_nil,
            ← Path.clean_rooted, htrim.resolve_left (by simp), List.cons_append]
    · rcases htrim with rfl | htrim
      · simp at hpre
      · exact Or.inl htrim.symm
  · simp at h

theorem mem_clean_of_valid {pre : GoString} (h : validatePrefix pre = none) {b : UInt8}
    (hb : b ≠ 47) (hmem : b ∈ pre) : b ∈ Path.clean pre := by
  rcases (validatePrefix_eq_none h).2 with hclean | hclean
  · rwa [← hclean]
  · rw [hclean] at hmem
    simpa [hb] using hmem

/-! ### Checked targets -/

/-- A rooted path at `base` or below it, without backslashes. -/
structure Within (base : List GoString) (p : GoString) : Prop where
  rooted : p.head? = some 47
  backslash : 92 ∉ p
  resolves : base <+: Path.resolve p

theorem validateWithin_eq_none_iff {pre target : GoString} :
    validateWithin pre target = none ↔ validatePrefix pre = none ∧
      Within (Path.resolve pre) (splitTarget target).1 ∧
      (Path.resolve pre ≠ [] → ∃ decoded, Path.unescape (splitTarget target).1 = some decoded ∧
        Within (Path.resolve pre) decoded) := by
  rw [validateWithin]
  cases hvalid : validatePrefix pre with
  | some err => simp
  | none =>
      have hpre := (validatePrefix_eq_none hvalid).1
      have hwithin : ∀ p, (p.contains 92 || !withinPrefix p pre) = false ↔
          Within (Path.resolve pre) p := by
        intro p
        rw [Bool.or_eq_false_iff, Bool.not_eq_false', withinPrefix_iff hpre]
        constructor
        · exact fun h => ⟨h.2.1, by simpa using h.1, h.2.2⟩
        · exact fun h => ⟨by simpa using h.backslash, h.rooted, h.resolves⟩
      have hroot : isRootPrefix pre = true ↔ Path.resolve pre = [] := by
        rw [isRootPrefix, beq_iff_eq, clean_eq_slash_iff hpre]
      generalize (splitTarget target).1 = pathPart
      dsimp only
      by_cases hraw : Within (Path.resolve pre) pathPart
      · obtain ⟨hbackslash, hin⟩ := Bool.or_eq_false_iff.mp ((hwithin pathPart).mpr hraw)
        rw [hbackslash, hin, if_neg Bool.false_ne_true, if_neg Bool.false_ne_true]
        by_cases hr : Path.resolve pre = []
        · simp [hroot.mpr hr, hr, hr ▸ hraw]
        rw [if_neg fun h => hr (hroot.mp h)]
        cases Path.unescape pathPart with
        | none => simp [hr]
        | some decoded =>
            simp only [hraw, hr, ← hwithin, Option.some.injEq, exists_eq_left', ne_eq, not_false_eq_true,
              true_and, forall_const]
            split
            · rename_i hbad
              rw [hbad]
              simp
            · rename_i hgood
              exact ⟨fun _ => by simpa using hgood, fun _ => rfl⟩
      · have hbad : (pathPart.contains 92 || !withinPrefix pathPart pre) = true :=
          eq_true_of_ne_false fun h => hraw ((hwithin pathPart).mp h)
        simp only [hraw, false_and, and_false, iff_false]
        split
        · simp
        · rename_i hbackslash
          rw [Bool.not_eq_true] at hbackslash
          rw [hbackslash, Bool.false_or] at hbad
          simp [hbad]

/-! ### Joined targets -/

theorem splitTarget_of_append {p q : GoString} (hp : 63 ∉ p) (hq : q = [] ∨ q.head? = some 63) :
    splitTarget (p ++ q) = (p, q) := by
  have hidx : (p ++ q).idxOf? 63 = if q = [] then none else some p.length := by
    induction p with
    | nil =>
        rcases hq with rfl | hq
        · rfl
        · cases q with
          | nil => simp at hq
          | cons b q =>
              obtain rfl : b = 63 := by simpa using hq
              simp [List.idxOf?_cons]
    | cons b p ih =>
        simp only [List.mem_cons, not_or] at hp
        have hb : (b == 63) = false := by simpa using Ne.symm hp.1
        rw [List.cons_append, List.idxOf?_cons, hb, if_neg Bool.false_ne_true, ih hp.2]
        split <;> rfl
  rw [splitTarget, hidx]
  split_ifs with h
  · simp [h]
  · simp

theorem splitTarget_spec (target : GoString) :
    ∃ p q, target = p ++ q ∧ 63 ∉ p ∧ (q = [] ∨ q.head? = some 63) ∧ splitTarget target = (p, q) := by
  by_cases h : 63 ∈ target
  · obtain ⟨p, q, rfl, hp⟩ := List.eq_append_cons_of_mem h
    exact ⟨p, 63 :: q, rfl, hp, Or.inr rfl, splitTarget_of_append hp (Or.inr rfl)⟩
  · have := splitTarget_of_append h (Or.inl rfl)
    rw [List.append_nil] at this
    exact ⟨target, [], by simp, h, Or.inl rfl, this⟩

theorem join_below {pre : GoString} (hpre : pre.head? = some 47) (pathPart : GoString) :
    Path.join [pre, pathPart] =
      47 :: Strings.join (Path.resolve (pre ++ 47 :: pathPart)) [47] := by
  cases pre with
  | nil => simp at hpre
  | cons b pre =>
      obtain rfl : b = 47 := by simpa using hpre
      rw [Path.join, List.dropWhile_cons_of_neg (by simp)]
      dsimp only
      rw [Strings.join, List.intercalate_cons_cons, List.intercalate_singleton, clean_of_rooted rfl]
      simp

/-- The bytes of a joined path are those of its parts, slashes and dots. -/
theorem notMem_join_below {pre pathPart : GoString} (hpre : pre.head? = some 47) {b : UInt8}
    (hslash : b ≠ 47) (hdot : b ≠ 46) (h : b ∉ pre) (h' : b ∉ pathPart) :
    b ∉ Path.join [pre, pathPart] := by
  intro hmem
  have hroot : (pre ++ 47 :: pathPart).head? = some 47 := by
    cases pre with
    | nil => simp at hpre
    | cons c pre => exact hpre
  rw [join_below hpre, ← clean_of_rooted hroot] at hmem
  have := Path.mem_of_mem_clean hslash hdot hmem
  simp [h, h', hslash] at this

/-- What a join promises: the query of the target and a path that stays below
the prefix and, decoded, leads to it or below it. -/
structure Contained (pre target out : GoString) : Prop where
  query : (splitTarget out).2 = (splitTarget target).2
  within : Within (Path.resolve pre) (splitTarget out).1
  descends : Path.StaysBelow (Path.resolve pre) (splitTarget out).1
  decoded : Path.resolve pre ≠ [] → ∃ decoded, Path.unescape (splitTarget out).1 = some decoded ∧
    Within (Path.resolve pre) decoded

/-- A prefix with a question mark contains no path of a target. -/
theorem question_notMem {pre target : GoString} (hvalid : validatePrefix pre = none)
    (h : Within (Path.resolve pre) (splitTarget target).1) : 63 ∉ pre := by
  intro hmem
  have hclean := mem_clean_of_valid hvalid (by decide) hmem
  rw [clean_of_rooted (validatePrefix_eq_none hvalid).1, List.mem_cons,
    Path.mem_join (by decide)] at hclean
  obtain ⟨e, he, hb⟩ := hclean.resolve_left (by decide)
  obtain ⟨p, q, -, hp, -, hsplit⟩ := splitTarget_spec target
  rw [hsplit] at h
  refine hp (@Path.mem_of_mem_clean p 63 (by decide) (by decide) ?_)
  rw [clean_of_rooted h.rooted, List.mem_cons, Path.mem_join (by decide)]
  exact Or.inr ⟨e, h.resolves.subset he, hb⟩

theorem contained_of_validateWithin {pre target : GoString}
    (h : validateWithin pre (Path.join [pre, (splitTarget target).1]) = none) :
    Contained pre target (Path.join [pre, (splitTarget target).1] ++ (splitTarget target).2) := by
  obtain ⟨hvalid, hwithin, hdecoded⟩ := validateWithin_eq_none_iff.mp h
  have hpre := (validatePrefix_eq_none hvalid).1
  obtain ⟨p, q, -, hp, hq, hsplit⟩ := splitTarget_spec target
  rw [hsplit] at hwithin hdecoded ⊢
  have hquestion : 63 ∉ Path.join [pre, p] :=
    notMem_join_below hpre (by decide) (by decide) (question_notMem hvalid hwithin) hp
  -- the joined path has no query of its own
  have hwhole : splitTarget (Path.join [pre, p]) = (Path.join [pre, p], []) := by
    have := splitTarget_of_append hquestion (Or.inl rfl)
    rwa [List.append_nil] at this
  rw [hwhole] at hwithin hdecoded
  have hout := splitTarget_of_append hquestion hq
  refine ⟨by rw [hout, hsplit], ?_, ?_, ?_⟩ <;> rw [hout]
  · exact hwithin
  · have hresolves := hwithin.resolves
    rw [join_below hpre] at hresolves ⊢
    rw [Path.resolve_slash_join fun e => Path.plain_of_mem_resolve] at hresolves
    exact Path.staysBelow_slash_join (fun e => Path.plain_of_mem_resolve) hresolves
  · exact hdecoded

/-- A target whose path has nothing to resolve or to decode. -/
structure PlainTarget (target : GoString) : Prop where
  elements : ∀ e ∈ Path.elements (splitTarget target).1, e ≠ [] ∧ e ≠ [46] ∧ e ≠ [46, 46]
  percent : 37 ∉ (splitTarget target).1
  backslash : 92 ∉ (splitTarget target).1

theorem join_plain {pre p : GoString} (hpre : pre.head? = some 47)
    (hp : ∀ e ∈ Path.elements p, Path.Plain e) :
    Path.join [pre, p] = Strings.trimSuffix (Path.clean pre) [47] ++ 47 :: p ∧
      Path.resolve pre <+: Path.resolve (Path.join [pre, p]) := by
  have hplain : ∀ e ∈ Path.resolve pre ++ Path.elements p, Path.Plain e := by
    intro e he
    rcases List.mem_append.mp he with he | he
    · exact Path.plain_of_mem_resolve he
    · exact hp e he
  have hpath : Strings.join (Path.elements p) [47] = p := List.intercalate_splitOn 47
  rw [join_below hpre, Path.resolve_append_slash, Path.foldl_push_plain hp]
  refine ⟨?_, ?_⟩
  · rw [clean_of_rooted hpre]
    by_cases hroot : Path.resolve pre = []
    · rw [hroot, List.nil_append, hpath]
      rfl
    · have hsuffix := Path.not_suffix_slash_join (fun e => Path.plain_of_mem_resolve) hroot
      rw [← List.isSuffixOf_iff_suffix] at hsuffix
      have hne : Path.elements p ≠ [] := List.splitOn_ne_nil 47 p
      rw [Path.join_append hroot hne, hpath, Strings.trimSuffix, if_neg hsuffix]
      rfl
  · rw [Path.resolve_slash_join hplain]
    exact List.prefix_append _ _

theorem safeJoin_eq (pre target : GoString) :
    safeJoin pre target =
      match validateWithin pre (Path.join [pre, (splitTarget target).1]) with
      | some err => ([], some err)
      | none => (Path.join [pre, (splitTarget target).1] ++ (splitTarget target).2, none) := by
  rw [safeJoin]

theorem validateWithin_plain {pre target : GoString} (hvalid : validatePrefix pre = none)
    (hpre : ∀ b ∈ pre, b ≠ 37 ∧ b ≠ 92 ∧ b ≠ 63) (htarget : PlainTarget target)
    (hresolves : Path.resolve pre <+: Path.resolve (Path.join [pre, (splitTarget target).1])) :
    validateWithin pre (Path.join [pre, (splitTarget target).1]) = none := by
  have hrooted := (validatePrefix_eq_none hvalid).1
  obtain ⟨p, q, -, hp, -, hsplit⟩ := splitTarget_spec target
  obtain ⟨-, hpercent, hbackslash⟩ := htarget
  rw [hsplit] at hresolves hpercent hbackslash ⊢
  have hquestion : 63 ∉ Path.join [pre, p] :=
    notMem_join_below hrooted (by decide) (by decide) (fun h => (hpre 63 h).2.2 rfl) hp
  have hwhole := splitTarget_of_append hquestion (Or.inl rfl)
  rw [List.append_nil] at hwhole
  have hwithin : Within (Path.resolve pre) (Path.join [pre, p]) := by
    refine ⟨by rw [join_below hrooted]; rfl, ?_, hresolves⟩
    exact notMem_join_below hrooted (by decide) (by decide) (fun h => (hpre 92 h).2.1 rfl)
      hbackslash
  refine validateWithin_eq_none_iff.mpr ⟨hvalid, ?_, fun _ => ⟨Path.join [pre, p], ?_, hwithin⟩⟩
  · rw [hwhole]
    exact hwithin
  · rw [hwhole]
    exact Path.unescape_of_notMem (notMem_join_below hrooted (by decide) (by decide)
      (fun h => (hpre 37 h).1 rfl) hpercent)

/-- A join fails with nothing, or its path is contained in the prefix; a target
with nothing to resolve or to decode is appended as it is. -/
theorem safeJoin_contained (pre target : GoString) :
    ((safeJoin pre target).2 ≠ none → (safeJoin pre target).1 = []) ∧
    ((safeJoin pre target).2 = none → Contained pre target (safeJoin pre target).1) ∧
    (PlainTarget target →
      ((safeJoin pre target).2 = none →
        (safeJoin pre target).1 = Strings.trimSuffix (Path.clean pre) [47] ++ [47] ++ target) ∧
      (validatePrefix pre = none → (∀ b ∈ pre, b ≠ 37 ∧ b ≠ 92 ∧ b ≠ 63) →
        (safeJoin pre target).2 = none)) := by
  rw [safeJoin_eq]
  refine ⟨?_, ?_, fun htarget => ?_⟩
  · split
    · exact fun _ => rfl
    · exact fun h => absurd rfl h
  · split
    · simp
    · rename_i h
      exact fun _ => contained_of_validateWithin h
  · have hplain : ∀ e ∈ Path.elements (splitTarget target).1, Path.Plain e := by
      intro e he
      obtain ⟨hnil, hdot, hdotdot⟩ := htarget.elements e he
      exact ⟨hnil, hdot, hdotdot, Path.slash_notMem_of_mem_elements he⟩
    refine ⟨?_, fun hvalid hpre => ?_⟩
    · split
      · simp
      · rename_i h
        intro _
        have hrooted := (validatePrefix_eq_none (validateWithin_eq_none_iff.mp h).1).1
        obtain ⟨p, q, htarget, -, -, hsplit⟩ := splitTarget_spec target
        dsimp only
        rw [(join_plain hrooted hplain).1, hsplit, htarget]
        simp
    · have hrooted := (validatePrefix_eq_none hvalid).1
      rw [validateWithin_plain hvalid hpre htarget (join_plain hrooted hplain).2]

theorem safeJoin_contained_users :
    Contained (bytes "/auth/") (bytes "users?next=/../admin") (bytes "/auth/users?next=/../admin") ∧
      (safeJoin (bytes "/auth/") (bytes "users?next=/../admin")).1 =
        bytes "/auth/users?next=/../admin" := by
  have h := safeJoin_contained (bytes "/auth/") (bytes "users?next=/../admin")
  have hout : safeJoin (bytes "/auth/") (bytes "users?next=/../admin") =
      (bytes "/auth/users?next=/../admin", none) := by decide
  rw [hout] at h
  exact ⟨h.2.1 rfl, by rw [hout]⟩

/-- Below the root nothing is decoded, a decoded path may leave the prefix and
come back, and the slash at the end of a prefix is not doubled. -/
theorem safeJoin_decoded_leaves :
    (safeJoin (bytes "/") (bytes "/a%5Cb") = (bytes "/a%5Cb", none) ∧
      Path.unescape (bytes "/a%5Cb") = some (bytes "/a\\b")) ∧
    (safeJoin (bytes "/api") (bytes "/%2E%2E/api") = (bytes "/api/%2E%2E/api", none) ∧
      Path.unescape (bytes "/api/%2E%2E/api") = some (bytes "/api/../api") ∧
      ¬ Path.StaysBelow (Path.resolve (bytes "/api")) (bytes "/api/../api")) ∧
    (validatePrefix (bytes "/auth/") = none ∧ PlainTarget (bytes "users") ∧
      safeJoin (bytes "/auth/") (bytes "users") = (bytes "/auth/users", none)) := by
  refine ⟨by decide, ⟨by decide, by decide, ?_⟩, by decide, ⟨?_, ?_, ?_⟩, by decide⟩
  · rintro ⟨-, h⟩
    exact absurd (h 2 3 (by decide) (by decide)) (by decide)
  all_goals decide

/-! ### Base paths of providers -/

end Higress.PathUtil
