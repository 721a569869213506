import Mathlib
import Higress.PluginRelease.Precedence

/-!
Where the release tool agrees with the precedence of semantic versions, and where the next version that it
computes is a greater one. Both rest on numbers that fit into 64 bits; a hyphen before digits is read as a
sign besides.
-/

namespace Higress.PluginRelease

open Lib

/-! ### Versions that are read exactly -/

/-- A semantic version of the specification, in which numeric identifiers have no leading zeros. -/
structure IsValid (raw : GoString) (m : Groups) : Prop where
  found : findStringSubmatch raw = some m
  numeric : ∀ s ∈ identifiers m.prerelease, isDecimal s = true → isNumeral s = true

/-- The three numbers fit into a signed integer of 64 bits. -/
structure Groups.Fits (m : Groups) : Prop where
  major : decimalValue m.major < 2 ^ 63
  minor : decimalValue m.minor < 2 ^ 63
  patch : decimalValue m.patch < 2 ^ 63

/-- An identifier is read as a number if it is one. -/
def ExactIdentifier (s : GoString) : Prop :=
  (isDecimal s = true → decimalValue s < 2 ^ 63) ∧ (isDecimal s = false → (atoi s).2 = false)

structure Groups.Exact (m : Groups) : Prop where
  fits : m.Fits
  identifiers : ∀ s ∈ identifiers m.prerelease, ExactIdentifier s

/-- What is read of a number. -/
def clamped (digits : GoString) : ℕ := min (decimalValue digits) (2 ^ 63 - 1)

theorem toInt_number {s : GoString} (h : isNumeral s = true) :
    (Int64.ofInt (atoi s).1).toInt = clamped s := by
  rw [toInt_ofInt_atoi, (atoi_of_isDecimal (isDecimal_of_isNumeral h)).1, clamped]
  omega

/-- The numbers of the core as they are read. -/
def Groups.readCore (m : Groups) : ℕ ×ₗ ℕ ×ₗ ℕ :=
  toLex (clamped m.major, toLex (clamped m.minor, clamped m.patch))

def castCore (c : ℕ ×ₗ ℕ ×ₗ ℕ) : ℤ ×ₗ ℤ ×ₗ ℤ :=
  toLex ((ofLex c).1, toLex ((ofLex (ofLex c).2).1, (ofLex (ofLex c).2).2))

theorem strictMono_castCore : StrictMono castCore := by
  rintro ⟨a, b, c⟩ ⟨a', b', c'⟩ h
  change toLex (a, toLex (b, c)) < toLex (a', toLex (b', c')) at h
  change toLex ((a : ℤ), toLex ((b : ℤ), (c : ℤ))) < toLex ((a' : ℤ), toLex ((b' : ℤ), (c' : ℤ)))
  simp only [Prod.Lex.toLex_lt_toLex] at h ⊢
  omega

section Numbers

variable {s t : GoString} {m m' : Groups}

theorem core_eq_castCore (h : findStringSubmatch s = some m) : m.semver.core = castCore m.readCore := by
  obtain ⟨_, _, hm⟩ := findStringSubmatch_eq_some.mp h
  obtain ⟨hmajor, hminor, hpatch⟩ := hm.numerals
  rw [Semver.core]
  simp only [Groups.semver, toInt_number hmajor, toInt_number hminor, toInt_number hpatch]
  rfl

theorem Groups.Fits.readCore (h : m.Fits) : m.readCore = m.core := by
  have hmajor : clamped m.major = decimalValue m.major := by
    have := h.major
    rw [clamped]
    omega
  have hminor : clamped m.minor = decimalValue m.minor := by
    have := h.minor
    rw [clamped]
    omega
  have hpatch : clamped m.patch = decimalValue m.patch := by
    have := h.patch
    rw [clamped]
    omega
  rw [Groups.readCore, Groups.core, hmajor, hminor, hpatch]

theorem readCore_le (m : Groups) : m.readCore ≤ m.core := by
  rw [Groups.readCore, Groups.core, Prod.Lex.toLex_le_toLex, Prod.Lex.toLex_le_toLex]
  simp only [clamped]
  omega

theorem readCore_eq_iff : m.readCore = m.core ↔ m.Fits := by
  refine ⟨fun h => ?_, Groups.Fits.readCore⟩
  simp only [Groups.readCore, Groups.core, EmbeddingLike.apply_eq_iff_eq, Prod.mk.injEq, clamped] at h
  exact ⟨by omega, by omega, by omega⟩

end Numbers

/-! ### Agreement with the specification -/

def castIdentifier (x : ℕ ⊕ₗ GoString) : ℤ ⊕ₗ GoString := toLex (Sum.map Nat.cast id (ofLex x))

theorem strictMono_castIdentifier : StrictMono castIdentifier := by
  rintro (a | a) (b | b) h
  · exact Sum.Lex.inl_lt_inl_iff.mpr (Int.ofNat_lt.mpr (Sum.Lex.inl_lt_inl_iff.mp h))
  · exact Sum.Lex.inl_lt_inr _ _
  · exact absurd h Sum.Lex.not_inr_lt_inl
  · exact Sum.Lex.inr_lt_inr_iff.mpr (Sum.Lex.inr_lt_inr_iff.mp h)

theorem ExactIdentifier.read {s : GoString} (h : ExactIdentifier s) :
    readIdentifier s = castIdentifier (specIdentifier s) := by
  rw [readIdentifier, specIdentifier]
  cases hs : isDecimal s with
  | true =>
      obtain ⟨hvalue, hok⟩ := atoi_of_isDecimal hs
      have hsmall := h.1 hs
      rw [if_pos (hok.mpr hsmall), if_pos rfl, hvalue]
      change Sum.inlₗ _ = Sum.inlₗ (decimalValue s : ℤ)
      congr 1
      omega
  | false =>
      rw [h.2 hs]
      rfl

theorem eq_of_specIdentifier {a b : GoString} (ha : isDecimal a = true → isNumeral a = true)
    (hb : isDecimal b = true → isNumeral b = true) (h : specIdentifier a = specIdentifier b) : a = b := by
  rw [specIdentifier, specIdentifier] at h
  split at h <;> split at h
  · rename_i hda hdb
    have hvalue : decimalValue a = decimalValue b := by simpa using h
    rw [← formatNat_decimalValue (ha hda), hvalue, formatNat_decimalValue (hb hdb)]
  · cases h
  · cases h
  · simpa using h

section Agreement

variable {s t : GoString} {m m' : Groups}

/-- The tool agrees with the specification on two versions. -/
def Agree (m m' : Groups) : Prop :=
  compareSemver m.semver m'.semver = comparison m.precedence m'.precedence

theorem agree_of_exact (hm : IsValid s m) (hm' : IsValid t m') (h : m.Exact) (h' : m'.Exact) :
    Agree m m' := by
  have hread (m : Groups) (h : m.Exact) : (identifiers m.prerelease).map readIdentifier =
      ((identifiers m.prerelease).map specIdentifier).map castIdentifier := by
    rw [List.map_map]
    exact List.map_congr_left fun s hs => (h.identifiers s hs).read
  have hrank (m : Groups) (h : m.Exact) : prereleaseRank readIdentifier m.semver.prerelease =
      (prereleaseRank specIdentifier m.prerelease).map (List.map castIdentifier) := by
    change prereleaseRank readIdentifier m.prerelease = _
    rw [prereleaseRank, prereleaseRank, hread m h]
    split <;> rfl
  have hmono : StrictMono (WithTop.map (List.map castIdentifier)) :=
    (strictMono_listMap strictMono_castIdentifier).withTop_map
  have hapart : Apart (identifiers m.prerelease) (identifiers m'.prerelease) := by
    intro a ha b hb hab
    rw [(h.identifiers a ha).read, (h'.identifiers b hb).read] at hab
    exact eq_of_specIdentifier (hm.numeric a ha) (hm'.numeric b hb)
      (strictMono_castIdentifier.injective hab)
  have hcores : m.semver.core = m'.semver.core ↔ m.core = m'.core := by
    rw [core_eq_castCore hm.found, core_eq_castCore hm'.found, h.fits.readCore, h'.fits.readCore]
    exact strictMono_castCore.injective.eq_iff
  rw [Agree, compareSemver_of_apart hapart, Semver.rank, Semver.rank, Groups.precedence,
    Groups.precedence, comparison_toLex, comparison_toLex, hrank m h, hrank m' h',
    comparison_map hmono]
  simp only [hcores]
  rw [core_eq_castCore hm.found, core_eq_castCore hm'.found, h.fits.readCore, h'.fits.readCore,
    comparison_map strictMono_castCore]

/-- A version with a number out of range is not above the one with the numbers that are read. -/
theorem exists_disagree_of_not_fits (hm : IsValid s m) (h : ¬ m.Fits) :
    ∃ t m', IsValid t m' ∧ m'.Exact ∧ ¬ Agree m m' := by
  let m' : Groups := ⟨formatNat (clamped m.major), formatNat (clamped m.minor),
    formatNat (clamped m.patch), []⟩
  have hmatches : Matches (Strings.join [m'.major, m'.minor, m'.patch] [46]) m' none none :=
    ⟨⟨isNumeral_formatNat _, isNumeral_formatNat _, isNumeral_formatNat _⟩, by simp, by simp, rfl,
      by simp [afterByte]⟩
  have hfound := findStringSubmatch_eq_some.mpr ⟨_, _, hmatches⟩
  have hids : identifiers m'.prerelease = [[]] := rfl
  have hcore : m'.core = m.readCore := by
    rw [Groups.core, Groups.readCore]
    simp only [m', decimalValue_formatNat]
  have hfits : m'.Fits := by
    constructor <;> simp only [m', decimalValue_formatNat, clamped] <;> omega
  refine ⟨_, m', ⟨hfound, by simp [hids, isDecimal]⟩, ⟨hfits, ?_⟩, ?_⟩
  · rw [hids]
    intro s hs
    rw [List.mem_singleton.mp hs]
    exact ⟨by decide, fun _ => by decide⟩
  · have hlt : m'.core < m.core := by
      rw [hcore]
      exact lt_of_le_of_ne (readCore_le m) fun heq => h (readCore_eq_iff.mp heq)
    have hspec : comparison m.precedence m'.precedence = 1 := by
      rw [Groups.precedence, Groups.precedence, comparison_toLex, if_neg hlt.ne', comparison_of_gt hlt]
    have hsame : m.semver.core = m'.semver.core := by
      rw [core_eq_castCore hm.found, core_eq_castCore hfound, hfits.readCore, hcore]
    have htool : compareSemver m.semver m'.semver ≤ 0 := by
      rw [compareSemver_eq, if_pos hsame]
      change comparePrereleases m.prerelease [] ≤ 0
      by_cases hnil : m.prerelease = [] <;> simp [comparePrereleases, hnil]
    rw [Agree, hspec]
    omega

theorem nil_exact : ExactIdentifier [] := ⟨by decide, fun _ => by decide⟩

/-- Of a text that is not all digits, `Atoi` reads digits behind a hyphen. -/
theorem atoi_lt_one {x : GoString} (hx : isIdentifier x = true) (hd : isDecimal x = false)
    (hok : (atoi x).2 = true) : (atoi x).1 < 1 := by
  have hvalue : ∀ n, integerValue x = some n → n < 1 := by
    intro n hn
    cases x with
    | nil => cases hx
    | cons b x =>
        have hplus : b ≠ 43 := by
          rintro rfl
          rw [isIdentifier, Bool.and_eq_true, List.all_cons, Bool.and_eq_true] at hx
          exact absurd hx.2.1 (by decide)
        by_cases hminus : b = 45
        · subst hminus
          rw [integerValue] at hn
          split at hn
          · obtain rfl := Option.some.inj hn
            omega
          · cases hn
        · rw [integerValue.eq_3 _ (fun _ heq => hplus (List.cons.inj heq).1)
            (fun _ heq => hminus (List.cons.inj heq).1), hd] at hn
          cases hn
  rw [atoi] at hok ⊢
  split at hok
  · cases hok
  · rename_i n hn
    have hlt := hvalue n hn
    split_ifs <;> omega

/-- Beside an identifier that is read wrongly, another one stands on the wrong side. -/
theorem exists_wrong_identifier {x : GoString} (hx : isIdentifier x = true)
    (h : ¬ ExactIdentifier x) : ∃ y, isIdentifier y = true ∧ ExactIdentifier y ∧
      (isDecimal y = true → isNumeral y = true) ∧ x ≠ y ∧ specIdentifier x ≠ specIdentifier y ∧
      comparison (readIdentifier x) (readIdentifier y) ≠
        comparison (specIdentifier x) (specIdentifier y) := by
  cases hd : isDecimal x with
  | true =>
      -- a number out of range is read as a text, which is above a hyphen
      have hlarge : ¬ decimalValue x < 2 ^ 63 := by
        intro hsmall
        exact h ⟨fun _ => hsmall, by simp [hd]⟩
      have hread : readIdentifier x = Sum.inrₗ x := by
        rw [readIdentifier, if_neg fun hok => hlarge ((atoi_of_isDecimal hd).2.mp hok)]
      have hspec : specIdentifier x = Sum.inlₗ (decimalValue x) := by rw [specIdentifier, if_pos hd]
      have hhyphen : readIdentifier [45] = Sum.inrₗ [45] := rfl
      have hhyphen' : specIdentifier [45] = Sum.inrₗ [45] := rfl
      have hlt : ([45] : GoString) < x := by
        obtain ⟨hne, hdigits⟩ := isDecimal_iff.mp hd
        obtain ⟨b, x, rfl⟩ := List.exists_cons_of_ne_nil hne
        have hb := (hdigits b (by simp)).1
        refine List.cons_lt_cons_iff.mpr (.inl ?_)
        rw [UInt8.lt_iff_toNat_lt]
        have h45 : (45 : UInt8).toNat = 45 := rfl
        omega
      refine ⟨[45], by decide, ⟨by decide, fun _ => by decide⟩, by decide, hlt.ne', ?_, ?_⟩
      · rw [hspec, hhyphen']
        simp
      · rw [hread, hhyphen, hspec, hhyphen', comparison_inr_inr, comparison_inl_inr,
          comparison_of_gt hlt]
        norm_num
  | false =>
      -- a hyphen before digits is read as a sign
      have hok : (atoi x).2 = true := by
        by_contra hfails
        exact h ⟨by simp [hd], fun _ => by simpa using hfails⟩
      have hneg : (atoi x).1 < 1 := atoi_lt_one hx hd hok
      have hread : readIdentifier x = Sum.inlₗ (atoi x).1 := if_pos hok
      have hspec : specIdentifier x = Sum.inrₗ x := by rw [specIdentifier, if_neg (by simp [hd])]
      have hone : readIdentifier [49] = Sum.inlₗ 1 := rfl
      have hone' : specIdentifier [49] = Sum.inlₗ 1 := rfl
      refine ⟨[49], by decide, ⟨by decide, by decide⟩, by decide, ?_, ?_, ?_⟩
      · rintro rfl
        cases hd
      · rw [hspec, hone']
        simp
      · rw [hread, hone, hspec, hone', comparison_inl_inl, comparison_inr_inl, comparison_of_lt hneg]
        norm_num

/-- A version with an identifier that is read wrongly. -/
theorem exists_disagree_of_identifier (hm : IsValid s m) (hfits : m.Fits)
    (h : ¬ ∀ s ∈ identifiers m.prerelease, ExactIdentifier s) :
    ∃ t m', IsValid t m' ∧ m'.Exact ∧ ¬ Agree m m' := by
  obtain ⟨before, x, after, hids, hbefore, hx⟩ := exists_first h
  have hne : m.prerelease ≠ [] := by
    intro hnil
    have hmem : x ∈ identifiers m.prerelease := by simp [hids]
    rw [hnil] at hmem
    rw [List.mem_singleton.mp hmem] at hx
    exact hx nil_exact
  have hidentifier : ∀ s ∈ before ++ [x], isIdentifier s = true := by
    intro s hs
    refine isIdentifier_of_mem hm.found hne ?_
    rw [hids]
    simp only [List.mem_append, List.mem_singleton] at hs
    rcases hs with hs | rfl <;> simp [*]
  obtain ⟨y, hy, hyexact, hynumeral, hxy, hspec, hwrong⟩ :=
    exists_wrong_identifier (hidentifier x (by simp)) hx
  have hall : ∀ s ∈ before ++ [y], isIdentifier s = true := by
    intro s hs
    rcases List.mem_append.mp hs with hs | hs
    · exact hidentifier s (by simp [hs])
    · rwa [List.mem_singleton.mp hs]
  have hnonempty : before ++ [y] ≠ [] := by simp
  have hids' : identifiers (m.withIdentifiers (before ++ [y])).prerelease = before ++ [y] :=
    identifiers_join hall hnonempty
  obtain ⟨t, ht⟩ := withIdentifiers_matches hm.found hall hnonempty
  refine ⟨t, m.withIdentifiers (before ++ [y]), ⟨findStringSubmatch_eq_some.mpr ⟨_, _, ht⟩, ?_⟩,
    ⟨⟨hfits.major, hfits.minor, hfits.patch⟩, ?_⟩, ?_⟩
  · rw [hids']
    intro s hs
    rcases List.mem_append.mp hs with hs | hs
    · exact hm.numeric s (by simp [hids, hs])
    · rwa [List.mem_singleton.mp hs]
  · rw [hids']
    intro s hs
    rcases List.mem_append.mp hs with hs | hs
    · exact hbefore s hs
    · rwa [List.mem_singleton.mp hs]
  · have hcore : m.core = (m.withIdentifiers (before ++ [y])).core := rfl
    have hrank : prereleaseRank specIdentifier m.prerelease =
        ((identifiers m.prerelease).map specIdentifier : List _) := if_neg hne
    have hrank' : prereleaseRank specIdentifier (m.withIdentifiers (before ++ [y])).prerelease =
        ((before ++ [y]).map specIdentifier : List _) := by
      rw [prereleaseRank, hids']
      exact if_neg (join_ne_nil hall hnonempty)
    rw [Agree, compareSemver_withIdentifiers hne hall hnonempty, hids, compareIdentifiers_append,
      compareIdentifiers_cons, if_neg hxy, Groups.precedence, Groups.precedence, comparison_toLex,
      if_pos hcore, hrank, hrank', comparison_coe, hids, List.map_append, List.map_append,
      comparison_append, List.map_cons, List.map_cons, comparison_cons, if_neg hspec]
    exact hwrong

/-- A version agrees with the exact ones if and only if it is one of them. -/
theorem agree_iff_exact (hm : IsValid s m) :
    (∀ t m', IsValid t m' → m'.Exact → Agree m m') ↔ m.Exact := by
  refine ⟨fun h => ?_, fun h t m' hm' h' => agree_of_exact hm hm' h h'⟩
  by_contra hexact
  obtain ⟨t, m', hm', h', hdisagree⟩ : ∃ t m', IsValid t m' ∧ m'.Exact ∧ ¬ Agree m m' := by
    by_cases hfits : m.Fits
    · exact exists_disagree_of_identifier hm hfits fun hids => hexact ⟨hfits, hids⟩
    · exact exists_disagree_of_not_fits hm hfits
  exact hdisagree (h t m' hm' h')

end Agreement

/-! ### The next version -/

/-- The version without its prerelease. -/
def Groups.stable (m : Groups) : Groups := { m with prerelease := [] }

/-- A text is a stable version above `p` and not below the stable part of `c`. -/
def IsNext (p c : Groups) (text : GoString) : Prop :=
  ∃ q, findStringSubmatch text = some q ∧ q.prerelease = [] ∧ p.precedence < q.precedence ∧
    c.stable.precedence ≤ q.precedence

/-- A number is written and read back. -/
theorem toInt_stableString {a b c : ℕ} {v : Semver} (ha : v.major.toInt = a) (hb : v.minor.toInt = b)
    (hc : v.patch.toInt = c) : findStringSubmatch v.stableString =
      some ⟨formatNat a, formatNat b, formatNat c, []⟩ := by
  have hformat (n : ℕ) : formatInt n = formatNat n := by simp [formatInt]
  refine findStringSubmatch_eq_some.mpr ⟨none, none,
    ⟨isNumeral_formatNat _, isNumeral_formatNat _, isNumeral_formatNat _⟩, by simp, by simp, rfl, ?_⟩
  rw [Semver.stableString, ha, hb, hc, hformat, hformat, hformat]
  simp [Strings.join, afterByte, List.intercalate_cons_cons]

/-- A negative number makes no version. -/
theorem findStringSubmatch_stableString_neg {v : Semver} (ha : 0 ≤ v.major.toInt)
    (hb : 0 ≤ v.minor.toInt) (hc : v.patch.toInt < 0) : findStringSubmatch v.stableString = none := by
  have htext : v.stableString = (Strings.join [formatNat v.major.toInt.natAbs,
      formatNat v.minor.toInt.natAbs, []] [46] ++ afterByte 45 (some (formatNat v.patch.toInt.natAbs))) ++
      afterByte 43 none := by
    simp [Semver.stableString, formatInt, not_lt.mpr ha, not_lt.mpr hb, hc, Strings.join, afterByte,
      List.intercalate_cons_cons]
  have hnumber (n : ℕ) (b : UInt8) (hb : Json.isDigit b = false) : b ∉ formatNat n :=
    notMem_of_isNumeral (isNumeral_formatNat n) hb
  have hcore (b : UInt8) (hb : Json.isDigit b = false) (hdot : b ≠ 46) :
      b ∉ Strings.join [formatNat v.major.toInt.natAbs, formatNat v.minor.toInt.natAbs, []] [46] := by
    simp [Strings.join, List.intercalate_cons_cons, hnumber _ b hb, hdot]
  have hplus : 43 ∉ Strings.join [formatNat v.major.toInt.natAbs, formatNat v.minor.toInt.natAbs, []]
      [46] ++ afterByte 45 (some (formatNat v.patch.toInt.natAbs)) := by
    rw [List.mem_append, not_or]
    refine ⟨hcore 43 (by decide) (by decide), ?_⟩
    simpa [afterByte] using hnumber _ 43 (by decide)
  have hdot : ∀ part ∈ [formatNat v.major.toInt.natAbs, formatNat v.minor.toInt.natAbs, []],
      46 ∉ part := by
    simp [hnumber _ 46 (by decide)]
  have hempty : isNumeral [] = false := by decide
  simp only [findStringSubmatch, htext, cutByte_append_afterByte hplus,
    cutByte_append_afterByte (hcore 45 (by decide) (by decide)), split_join_byte hdot (by simp), hempty,
    Bool.and_false, Bool.false_and, Bool.false_eq_true, if_false]

section Next

variable {table : PrintTable} {previous current : GoString} {p c : Groups}

theorem precedence_stable_lt {q : Groups} (hp : p.prerelease = []) (hq : q.prerelease = []) :
    p.precedence < q.precedence ↔ p.core < q.core := by
  rw [Groups.precedence, Groups.precedence, hp, hq, Prod.Lex.toLex_lt_toLex]
  simp

theorem precedence_stable_le {q : Groups} (hp : p.prerelease = []) (hq : q.prerelease = []) :
    p.precedence ≤ q.precedence ↔ p.core ≤ q.core := by
  rw [← not_lt, precedence_stable_lt hq hp, not_lt]

/-- The version that is returned: the stable part of the current one, if what is read of it is above
the previous one, and the previous one with the next patch number otherwise. -/
theorem nextVersion_eq (hp : findStringSubmatch (Strings.trimSpace previous) = some p)
    (hstable : p.prerelease = []) (hc : findStringSubmatch (Strings.trimSpace current) = some c) :
    nextVersion table previous current = .ok (if p.readCore < c.readCore then c.semver.stableString
      else ({ p.semver with patch := p.semver.patch + 1 } : Semver).stableString) := by
  have hcompare (cur : Semver) (hcore : cur.core = c.semver.core) (hcur : cur.prerelease = []) :
      0 < compareSemver cur p.semver ↔ p.readCore < c.readCore := by
    have hpre : p.semver.prerelease = [] := hstable
    rw [compareSemver_eq, hcore, hcur, hpre, core_eq_castCore hc, core_eq_castCore hp]
    split
    · rename_i heq
      have hread := strictMono_castCore.injective heq
      simp [comparePrereleases, hread]
    · rw [comparison_pos, strictMono_castCore.lt_iff_lt]
  have hcpre : c.semver.prerelease = c.prerelease := rfl
  have hppre : p.semver.prerelease = [] := hstable
  rw [nextVersion, parseSemver_eq_ok.mpr ⟨p, hp, rfl⟩, parseSemver_eq_ok.mpr ⟨c, hc, rfl⟩]
  simp only [hppre, ne_eq, not_true_eq_false, if_false, hcpre]
  by_cases hnil : c.prerelease = []
  · simp only [hnil, true_and, not_true_eq_false, false_and, if_false,
      hcompare c.semver rfl (hcpre.trans hnil)]
    split <;> rfl
  · simp only [hnil, false_and, not_false_eq_true, true_and, if_false,
      hcompare c.semver.stable rfl rfl]
    split <;> rfl

theorem toInt_patch_succ (hp : findStringSubmatch (Strings.trimSpace previous) = some p) :
    (p.semver.patch + 1).toInt =
      if clamped p.patch < 2 ^ 63 - 1 then (clamped p.patch + 1 : ℤ) else -2 ^ 63 := by
  obtain ⟨_, _, h⟩ := findStringSubmatch_eq_some.mp hp
  have hpatch : p.semver.patch.toInt = clamped p.patch := toInt_number h.numerals.2.2
  have hone : (1 : Int64).toInt = 1 := by decide
  have hle : clamped p.patch ≤ 2 ^ 63 - 1 := min_le_right _ _
  rw [Int64.toInt_add, hpatch, hone, Int.bmod_def]
  split_ifs <;> omega

theorem isNext_iff {q : Groups} {text : GoString} (hp : p.prerelease = [])
    (hq : findStringSubmatch text = some q) (hqs : q.prerelease = []) :
    IsNext p c text ↔ p.core < q.core ∧ c.core ≤ q.core := by
  have hcore : c.stable.precedence ≤ q.precedence ↔ c.core ≤ q.core :=
    @precedence_stable_le c.stable q rfl hqs
  constructor
  · rintro ⟨q', hfound, -, hlt, hle⟩
    obtain rfl := Option.some.inj (hq.symm.trans hfound)
    exact ⟨(precedence_stable_lt hp hqs).mp hlt, hcore.mp hle⟩
  · rintro ⟨hlt, hle⟩
    exact ⟨q, hq, hqs, (precedence_stable_lt hp hqs).mpr hlt, hcore.mpr hle⟩

theorem nextVersion_isNext_iff (hp : findStringSubmatch (Strings.trimSpace previous) = some p)
    (hstable : p.prerelease = []) (hc : findStringSubmatch (Strings.trimSpace current) = some c) :
    ∃ text, nextVersion table previous current = .ok text ∧
      (IsNext p c text ↔ (p.core < c.core ∧ c.Fits) ∨
        (c.core ≤ p.core ∧ p.Fits ∧ decimalValue p.patch < 2 ^ 63 - 1)) := by
  refine ⟨_, nextVersion_eq hp hstable hc, ?_⟩
  obtain ⟨_, _, hmp⟩ := findStringSubmatch_eq_some.mp hp
  obtain ⟨_, _, hmc⟩ := findStringSubmatch_eq_some.mp hc
  split
  · rename_i hlt
    have hfound := @toInt_stableString _ _ _ c.semver (toInt_number hmc.numerals.1)
      (toInt_number hmc.numerals.2.1) (toInt_number hmc.numerals.2.2)
    rw [isNext_iff hstable hfound rfl]
    have hcore : (⟨formatNat (clamped c.major), formatNat (clamped c.minor),
        formatNat (clamped c.patch), []⟩ : Groups).core = c.readCore := by
      simp only [Groups.core, Groups.readCore, decimalValue_formatNat]
    have hfits : c.core ≤ c.readCore ↔ c.Fits := by
      rw [← readCore_eq_iff]
      exact ⟨fun h => le_antisymm (readCore_le c) h, fun h => h.ge⟩
    rw [hcore, hfits]
    constructor
    · rintro ⟨h, hc⟩
      exact .inl ⟨hc.readCore ▸ h, hc⟩
    · rintro (⟨h, hc⟩ | ⟨h, hp, -⟩)
      · exact ⟨hc.readCore.symm ▸ h, hc⟩
      · rw [hp.readCore] at hlt
        exact absurd (hlt.trans_le (readCore_le c)) (not_lt.mpr h)
  · rename_i hlt
    have hfirst : ¬ (p.core < c.core ∧ c.Fits) := by
      rintro ⟨h, hc⟩
      exact hlt (hc.readCore.symm ▸ (readCore_le p).trans_lt h)
    rw [or_iff_right hfirst]
    have hsucc := toInt_patch_succ hp
    split at hsucc
    · rename_i hsmall
      have hfound := @toInt_stableString _ _ (clamped p.patch + 1)
        { p.semver with patch := p.semver.patch + 1 } (toInt_number hmp.numerals.1)
        (toInt_number hmp.numerals.2.1) hsucc
      rw [isNext_iff hstable hfound rfl]
      simp only [Groups.core, Groups.readCore, decimalValue_formatNat, clamped,
        Prod.Lex.toLex_lt_toLex, Prod.Lex.toLex_le_toLex] at hlt hsmall ⊢
      constructor
      · rintro ⟨habove, hle⟩
        refine ⟨by omega, ⟨by omega, by omega, by omega⟩, by omega⟩
      · rintro ⟨hle, ⟨hmajor, hminor, hpatch⟩, -⟩
        refine ⟨by omega, by omega⟩
    · rename_i hlarge
      have hnone : findStringSubmatch
          ({ p.semver with patch := p.semver.patch + 1 } : Semver).stableString = none := by
        refine findStringSubmatch_stableString_neg ?_ ?_ ?_
        · exact (toInt_number hmp.numerals.1).symm ▸ Int.natCast_nonneg _
        · exact (toInt_number hmp.numerals.2.1).symm ▸ Int.natCast_nonneg _
        · change (p.semver.patch + 1).toInt < 0
          rw [hsucc]
          norm_num
      refine iff_of_false ?_ ?_
      · rintro ⟨q, hfound, -⟩
        rw [hnone] at hfound
        cases hfound
      · rintro ⟨-, -, hpatch⟩
        rw [clamped] at hlarge
        omega

/-- A next version is computed of a stable previous version and a current one. -/
theorem exists_groups_of_nextVersion {text : GoString}
    (h : nextVersion table previous current = .ok text) :
    ∃ p c, findStringSubmatch (Strings.trimSpace previous) = some p ∧ p.prerelease = [] ∧
      findStringSubmatch (Strings.trimSpace current) = some c := by
  rw [nextVersion] at h
  split at h
  · cases h
  · rename_i prev hprev
    obtain ⟨p, hp, rfl⟩ := parseSemver_eq_ok.mp hprev
    split at h
    · cases h
    · rename_i hstable
      split at h
      · cases h
      · rename_i cur hcur
        obtain ⟨c, hc, -⟩ := parseSemver_eq_ok.mp hcur
        exact ⟨p, c, hp, not_not.mp hstable, hc⟩

end Next

/-! ### The release tool -/

/-- Beside plain versions, the comparison is a total preorder with a further version if and only if that
one is plain. It agrees with the specification between a valid version and all the exact ones if and only
if that version is exact. The next version is above the previous one and not below the current one if and
only if the greater of the two has numbers that fit, and room for another patch where one is added. -/
theorem semver_order_iff (table : PrintTable) (raw previous current : GoString) :
    (∀ v, parseSemver table raw = .ok v →
      (IsPreorderOn (insert v (plainVersions table)) ↔ v.Plain)) ∧
    (∀ m, IsValid raw m →
      ((∀ raw' m', IsValid raw' m' → m'.Exact → Agree m m') ↔ m.Exact)) ∧
    (∀ text, nextVersion table previous current = .ok text →
      ∃ p c, findStringSubmatch (Strings.trimSpace previous) = some p ∧
        findStringSubmatch (Strings.trimSpace current) = some c ∧
        (IsNext p c text ↔ (p.core < c.core ∧ c.Fits) ∨
          (c.core ≤ p.core ∧ p.Fits ∧ decimalValue p.patch < 2 ^ 63 - 1))) := by
  refine ⟨fun v => isPreorderOn_insert_iff, fun m => agree_iff_exact, ?_⟩
  intro text h
  obtain ⟨p, c, hp, hstable, hc⟩ := exists_groups_of_nextVersion h
  obtain ⟨text', htext, hiff⟩ := @nextVersion_isNext_iff table _ _ _ _ hp hstable hc
  obtain rfl : text' = text := Except.ok.inj (htext.symm.trans h)
  exact ⟨p, c, hp, hc, hiff⟩

/-- The printable characters of ASCII. -/
def asciiTable : PrintTable := ⟨fun r => decide (32 ≤ r ∧ r < 127), fun _ _ => rfl⟩

theorem semver_order_release :
    IsPreorderOn (insert ⟨1, 0, 0, bytes "alpha.2"⟩ (plainVersions asciiTable)) ∧
      (∀ raw' m', IsValid raw' m' → m'.Exact →
        Agree ⟨bytes "1", bytes "0", bytes "0", bytes "alpha.2"⟩ m') ∧
      nextVersion asciiTable (bytes "1.0.0") (bytes "1.0.0") = .ok (bytes "1.0.1") ∧
      IsNext ⟨bytes "1", bytes "0", bytes "0", []⟩ ⟨bytes "1", bytes "0", bytes "0", []⟩
        (bytes "1.0.1") := by
  obtain ⟨hpreorder, hagree, hnext⟩ :=
    semver_order_iff asciiTable (bytes "1.0.0-alpha.2") (bytes "1.0.0") (bytes "1.0.0")
  have hids : identifiers (bytes "alpha.2") = [bytes "alpha", bytes "2"] := by decide
  refine ⟨?_, ?_, rfl, ?_⟩
  · refine (hpreorder _ rfl).mpr fun s hs => ?_
    change s ∈ identifiers (bytes "alpha.2") at hs
    simp only [hids, List.mem_cons, List.not_mem_nil, or_false] at hs
    rcases hs with rfl | rfl
    · exact fun h => absurd h (by decide)
    · exact fun _ => by decide
  · refine (hagree _ ⟨rfl, fun s hs => ?_⟩).mpr
      ⟨⟨by decide, by decide, by decide⟩, fun s hs => ?_⟩
    · change s ∈ identifiers (bytes "alpha.2") at hs
      simp only [hids, List.mem_cons, List.not_mem_nil, or_false] at hs
      rcases hs with rfl | rfl <;> decide
    · change s ∈ identifiers (bytes "alpha.2") at hs
      simp only [hids, List.mem_cons, List.not_mem_nil, or_false] at hs
      rcases hs with rfl | rfl <;> exact ⟨by decide, by decide⟩
  · obtain ⟨p, c, hp, hc, hiff⟩ := hnext (bytes "1.0.1") rfl
    obtain rfl := Option.some.inj hp
    obtain rfl := Option.some.inj hc
    exact hiff.mpr (.inr ⟨le_rfl, ⟨by decide, by decide, by decide⟩, by decide⟩)

/-- Two versions are equal to a third but not to each other, a numeric identifier that does not fit is
above a text, and the next version of one that does not fit is below it. -/
theorem semver_order_fails :
    (∃ a b c, parseSemver asciiTable (bytes "1.0.0-01.9") = .ok a ∧
      parseSemver asciiTable (bytes "1.0.0-1.7") = .ok b ∧
      parseSemver asciiTable (bytes "1.0.0-01.5") = .ok c ∧
      compareSemver a b ≤ 0 ∧ compareSemver b c ≤ 0 ∧ ¬ compareSemver a c ≤ 0) ∧
    compareSemver ⟨1, 0, 0, bytes "9223372036854775808"⟩ ⟨1, 0, 0, bytes "-"⟩ = 1 ∧
    nextVersion asciiTable (bytes "9223372036854775808.0.0") (bytes "0.0.1") =
      .ok (bytes "9223372036854775807.0.1") := by
  refine ⟨⟨_, _, _, rfl, rfl, rfl, ?_⟩, ?_, rfl⟩ <;> decide

end Higress.PluginRelease
