import Mathlib
import Higress.Lib.Comparison
import Higress.PluginRelease.Semver

/-!
The order of semantic versions and the comparison of the release tool. The precedence of the
specification is a lexicographic order: of the three numbers, then of the identifiers of the prerelease,
where numbers are below other texts and a version without a prerelease is above those with one.

The tool compares what `strconv.Atoi` reads. That is a lexicographic order too as long as no two
identifiers that are written differently are read as the same number: where they are, the comparison
stops with a zero, whatever follows them.
-/

namespace Higress.PluginRelease

open Lib

/-! ### The orders -/

/-- An identifier in the specification. -/
def specIdentifier (s : GoString) : ℕ ⊕ₗ GoString :=
  if isDecimal s = true then Sum.inlₗ (decimalValue s) else Sum.inrₗ s

def Groups.core (m : Groups) : ℕ ×ₗ ℕ ×ₗ ℕ :=
  toLex (decimalValue m.major, toLex (decimalValue m.minor, decimalValue m.patch))

/-- The rank of a prerelease, with the given reading of its identifiers. -/
def prereleaseRank {α : Type*} (read : GoString → α) (prerelease : GoString) : WithTop (List α) :=
  if prerelease = [] then ⊤ else ((identifiers prerelease).map read : List α)

/-- The place of a version in the order of the specification. -/
def Groups.precedence (m : Groups) : (ℕ ×ₗ ℕ ×ₗ ℕ) ×ₗ WithTop (List (ℕ ⊕ₗ GoString)) :=
  toLex (m.core, prereleaseRank specIdentifier m.prerelease)

/-- An identifier as the tool reads it. -/
def readIdentifier (s : GoString) : ℤ ⊕ₗ GoString :=
  if (atoi s).2 = true then Sum.inlₗ (atoi s).1 else Sum.inrₗ s

def Semver.core (v : Semver) : ℤ ×ₗ ℤ ×ₗ ℤ :=
  toLex (v.major.toInt, toLex (v.minor.toInt, v.patch.toInt))

/-- The place of a version in the order of what the tool reads. -/
def Semver.rank (v : Semver) : (ℤ ×ₗ ℤ ×ₗ ℤ) ×ₗ WithTop (List (ℤ ⊕ₗ GoString)) :=
  toLex (v.core, prereleaseRank readIdentifier v.prerelease)

/-! ### The comparison of the tool -/

theorem compareInt_eq (a b : Int64) : compareInt a b = comparison a.toInt b.toInt := by
  rw [compareInt, comparison]
  simp only [Int64.lt_iff_toInt_lt]

theorem toInt_ofInt_atoi (s : GoString) : (Int64.ofInt (atoi s).1).toInt = (atoi s).1 := by
  obtain ⟨hlow, hhigh⟩ := atoi_bounds s
  exact Int64.toInt_ofInt_of_le (by simpa using hlow) (by simpa using hhigh)

/-- Identifiers that differ are compared as they are read. -/
theorem compareIdentifiers_cons {a b : GoString} (aa bb : List GoString) :
    compareIdentifiers (a :: aa) (b :: bb) =
      if a = b then compareIdentifiers aa bb else comparison (readIdentifier a) (readIdentifier b) := by
  have ha := toInt_ofInt_atoi a
  have hb := toInt_ofInt_atoi b
  rw [compareIdentifiers]
  split
  · rfl
  · rename_i hne
    rw [readIdentifier, readIdentifier]
    rcases hra : atoi a with ⟨ai, _ | _⟩ <;> rcases hrb : atoi b with ⟨bi, _ | _⟩ <;>
      rw [hra] at ha <;> rw [hrb] at hb
    · have hstrings : (if a < b then -1 else 1 : ℤ) = comparison a b := by
        rcases lt_or_gt_of_ne hne with hlt | hlt
        · rw [comparison_of_lt hlt, if_pos hlt]
        · rw [comparison_of_gt hlt, if_neg hlt.not_gt]
      simpa [comparison_inr_inr] using hstrings
    · simp [comparison_inr_inl]
    · simp [comparison_inl_inr]
    · simp only [if_true, comparison_inl_inl, compareInt_eq, ha, hb]

/-- No identifier of the one list is read as one of the other that is written differently. -/
def Apart (l l' : List GoString) : Prop :=
  ∀ a ∈ l, ∀ b ∈ l', readIdentifier a = readIdentifier b → a = b

theorem compareIdentifiers_of_apart {l l' : List GoString} (h : Apart l l') :
    compareIdentifiers l l' = comparison (l.map readIdentifier) (l'.map readIdentifier) := by
  induction l generalizing l' with
  | nil =>
      cases l' with
      | nil => rfl
      | cons b l' => exact (comparison_of_lt (List.nil_lt_cons _ _)).symm
  | cons a l ih =>
      cases l' with
      | nil => exact (comparison_of_gt (List.nil_lt_cons _ _)).symm
      | cons b l' =>
          have hrest : Apart l l' := fun x hx y hy => h x (by simp [hx]) y (by simp [hy])
          have hread : readIdentifier a = readIdentifier b ↔ a = b :=
            ⟨h a (by simp) b (by simp), congrArg _⟩
          rw [compareIdentifiers_cons, List.map_cons, List.map_cons, comparison_cons, ih hrest]
          simp only [hread]

/-- The answers for two prereleases. -/
def comparePrereleases (a b : GoString) : ℤ :=
  if a = b then 0 else if a = [] then 1 else if b = [] then -1 else comparePrerelease a b

/-- First the cores are compared and then the prereleases. -/
theorem compareSemver_eq (v w : Semver) : compareSemver v w =
    if v.core = w.core then comparePrereleases v.prerelease w.prerelease
    else comparison v.core w.core := by
  rw [compareSemver, Semver.core, Semver.core, comparison_toLex, comparison_toLex]
  simp only [compareInt_eq, comparePrereleases, ne_eq, ite_not, EmbeddingLike.apply_eq_iff_eq,
    Prod.mk.injEq, Int64.toInt_inj]
  by_cases hmajor : v.major = w.major <;> by_cases hminor : v.minor = w.minor <;>
    by_cases hpatch : v.patch = w.patch <;> simp [hmajor, hminor, hpatch]

theorem comparePrereleases_of_apart {a b : GoString} (h : Apart (identifiers a) (identifiers b)) :
    comparePrereleases a b =
      comparison (prereleaseRank readIdentifier a) (prereleaseRank readIdentifier b) := by
  rw [comparePrereleases, prereleaseRank, prereleaseRank]
  by_cases ha : a = [] <;> by_cases hb : b = []
  · simp [ha, hb]
  · simp [ha, hb, Ne.symm hb, comparison_top_coe]
  · simp [ha, hb, comparison_coe_top]
  · rw [if_neg ha, if_neg hb, if_neg ha, if_neg hb, comparison_coe, ← compareIdentifiers_of_apart h]
    split
    · rename_i heq
      rw [heq, compareIdentifiers_of_apart (heq ▸ h), comparison_self]
    · rfl

/-- Between versions whose identifiers stay apart, the tool compares ranks. -/
theorem compareSemver_of_apart {v w : Semver}
    (h : Apart (identifiers v.prerelease) (identifiers w.prerelease)) :
    compareSemver v w = comparison v.rank w.rank := by
  rw [compareSemver_eq, Semver.rank, Semver.rank, comparison_toLex, comparePrereleases_of_apart h]

/-! ### A total preorder -/

structure IsPreorderOn (S : Set Semver) : Prop where
  refl : ∀ a ∈ S, compareSemver a a = 0
  sign : ∀ a ∈ S, ∀ b ∈ S, compareSemver a b = -compareSemver b a
  trans : ∀ a ∈ S, ∀ b ∈ S, ∀ c ∈ S,
    compareSemver a b ≤ 0 → compareSemver b c ≤ 0 → compareSemver a c ≤ 0

/-- An identifier that is written as `%d` writes it, if it is read as a number. -/
def PlainIdentifier (s : GoString) : Prop := (atoi s).2 = true → formatInt (atoi s).1 = s

def Semver.Plain (v : Semver) : Prop := ∀ s ∈ identifiers v.prerelease, PlainIdentifier s

/-- The versions that are accepted and have plain identifiers. -/
def plainVersions (table : PrintTable) : Set Semver :=
  {v | (∃ raw, parseSemver table raw = .ok v) ∧ v.Plain}

theorem isPreorderOn_of_apart {S : Set Semver}
    (h : ∀ a ∈ S, ∀ b ∈ S, Apart (identifiers a.prerelease) (identifiers b.prerelease)) :
    IsPreorderOn S := by
  have hrank (a : Semver) (ha : a ∈ S) (b : Semver) (hb : b ∈ S) :
      compareSemver a b = comparison a.rank b.rank := compareSemver_of_apart (h a ha b hb)
  refine ⟨fun a ha => ?_, fun a ha b hb => ?_, fun a ha b hb c hc hab hbc => ?_⟩
  · rw [hrank a ha a ha, comparison_self]
  · rw [hrank a ha b hb, hrank b hb a ha, comparison_swap]
  · rw [hrank a ha b hb, comparison_le_zero] at hab
    rw [hrank b hb c hc, comparison_le_zero] at hbc
    rw [hrank a ha c hc, comparison_le_zero]
    exact hab.trans hbc

theorem eq_of_readIdentifier {a b : GoString} (ha : PlainIdentifier a) (hb : PlainIdentifier b)
    (h : readIdentifier a = readIdentifier b) : a = b := by
  rw [readIdentifier, readIdentifier] at h
  split at h <;> split at h
  · rename_i hra hrb
    have hnumber : (atoi a).1 = (atoi b).1 := by simpa using h
    rw [← ha hra, ← hb hrb, hnumber]
  · cases h
  · cases h
  · simpa using h

theorem Semver.Plain.apart {v w : Semver} (hv : v.Plain) (hw : w.Plain) :
    Apart (identifiers v.prerelease) (identifiers w.prerelease) :=
  fun a ha b hb => eq_of_readIdentifier (hv a ha) (hw b hb)

/-! ### Versions with other prereleases -/

theorem compareIdentifiers_append (p l l' : List GoString) :
    compareIdentifiers (p ++ l) (p ++ l') = compareIdentifiers l l' := by
  induction p with
  | nil => rfl
  | cons a p ih => rw [List.cons_append, List.cons_append, compareIdentifiers_cons, if_pos rfl, ih]

theorem compareIdentifiers_self (l : List GoString) : compareIdentifiers l l = 0 := by
  simpa [compareIdentifiers] using compareIdentifiers_append l [] []

theorem comparePrereleases_of_ne_nil {a b : GoString} (ha : a ≠ []) (hb : b ≠ []) :
    comparePrereleases a b = compareIdentifiers (identifiers a) (identifiers b) := by
  rw [comparePrereleases, if_neg ha, if_neg hb]
  split
  · rename_i heq
    rw [heq, compareIdentifiers_self]
  · rfl

section Replace

variable {ids : List GoString}

theorem dot_notMem {s : GoString} (h : isIdentifier s = true) : 46 ∉ s := by
  rw [isIdentifier, Bool.and_eq_true, List.all_eq_true] at h
  intro hmem
  exact absurd (h.2 46 hmem) (by decide)

theorem identifiers_join (hids : ∀ s ∈ ids, isIdentifier s = true) (hne : ids ≠ []) :
    identifiers (Strings.join ids [46]) = ids :=
  split_join_byte (fun s hs => dot_notMem (hids s hs)) hne

theorem join_ne_nil (hids : ∀ s ∈ ids, isIdentifier s = true) (hne : ids ≠ []) :
    Strings.join ids [46] ≠ [] := by
  intro hnil
  have hsplit := identifiers_join hids hne
  rw [hnil] at hsplit
  have hempty := hids [] (by rw [← hsplit]; exact List.mem_singleton.mpr rfl)
  cases hempty

/-- The version with the given identifiers as its prerelease. -/
def Groups.withIdentifiers (m : Groups) (ids : List GoString) : Groups :=
  { m with prerelease := Strings.join ids [46] }

theorem withIdentifiers_matches {s : GoString} {m : Groups} (hm : findStringSubmatch s = some m)
    (hids : ∀ s ∈ ids, isIdentifier s = true) (hne : ids ≠ []) :
    ∃ t, Matches t (m.withIdentifiers ids) (some (Strings.join ids [46])) none := by
  obtain ⟨prerelease, build, h⟩ := findStringSubmatch_eq_some.mp hm
  refine ⟨_, h.numerals, ?_, by simp, rfl, rfl⟩
  rintro part ⟨rfl⟩
  rw [isIdentifiers, identifiers_join hids hne, List.all_eq_true]
  exact hids

/-- Versions with the same core are compared by their identifiers. -/
theorem compareSemver_withIdentifiers {m : Groups} (hm : m.prerelease ≠ [])
    (hids : ∀ s ∈ ids, isIdentifier s = true) (hne : ids ≠ []) :
    compareSemver m.semver (m.withIdentifiers ids).semver =
      compareIdentifiers (identifiers m.prerelease) ids := by
  have hcore : m.semver.core = (m.withIdentifiers ids).semver.core := rfl
  rw [compareSemver_eq, if_pos hcore]
  change comparePrereleases m.prerelease (Strings.join ids [46]) = _
  rw [comparePrereleases_of_ne_nil hm (join_ne_nil hids hne), identifiers_join hids hne]

theorem isIdentifier_of_mem {s : GoString} {m : Groups} (hm : findStringSubmatch s = some m)
    (hne : m.prerelease ≠ []) {part : GoString} (hpart : part ∈ identifiers m.prerelease) :
    isIdentifier part = true := by
  obtain ⟨prerelease, build, h⟩ := findStringSubmatch_eq_some.mp hm
  cases prerelease with
  | none => exact absurd h.captured hne
  | some prerelease =>
      have hall := h.identifiers prerelease rfl
      rw [h.captured] at hpart
      exact List.all_eq_true.mp hall part hpart

/-- The first element without a property. -/
theorem exists_first {P : GoString → Prop} {l : List GoString} (h : ¬ ∀ s ∈ l, P s) :
    ∃ before x after, l = before ++ x :: after ∧ (∀ s ∈ before, P s) ∧ ¬ P x := by
  induction l with
  | nil => simp at h
  | cons a l ih =>
      by_cases ha : P a
      · have hrest : ¬ ∀ s ∈ l, P s := fun hl => h (by simpa using ⟨ha, hl⟩)
        obtain ⟨before, x, after, rfl, hbefore, hx⟩ := ih hrest
        exact ⟨a :: before, x, after, rfl, by simpa using ⟨ha, hbefore⟩, hx⟩
      · exact ⟨[], a, l, rfl, by simp, ha⟩

end Replace

/-! ### Plain versions and no others -/

theorem isIdentifier_formatNat (n : ℕ) : isIdentifier (formatNat n) = true := by
  obtain ⟨hne, hdigits⟩ := isDecimal_iff.mp (isDecimal_of_isNumeral (isNumeral_formatNat n))
  rw [isIdentifier, Bool.and_eq_true, List.all_eq_true]
  refine ⟨by simpa using hne, fun b hb => ?_⟩
  rw [isIdentifierByte, isDigit_iff.mpr (hdigits b hb)]
  rfl

theorem isIdentifier_formatInt (n : ℤ) : isIdentifier (formatInt n) = true := by
  have hnat := isIdentifier_formatNat n.natAbs
  rw [formatInt]
  split
  · rw [isIdentifier, Bool.and_eq_true] at hnat ⊢
    refine ⟨rfl, ?_⟩
    rw [List.all_cons, hnat.2]
    decide
  · exact hnat

/-- Beside a version whose identifier is not plain, two versions with the plain identifier stand for
the same number, but one is above the other. -/
theorem not_isPreorderOn {table : PrintTable} {raw : GoString} {v : Semver}
    (hraw : parseSemver table raw = .ok v) (hplain : ¬ v.Plain) :
    ¬ IsPreorderOn (insert v (plainVersions table)) := by
  obtain ⟨m, hm, rfl⟩ := parseSemver_eq_ok.mp hraw
  obtain ⟨before, x, after, hids, hbefore, hx⟩ := exists_first hplain
  obtain ⟨hread, hwritten⟩ : (atoi x).2 = true ∧ formatInt (atoi x).1 ≠ x := by
    simpa [PlainIdentifier] using hx
  have hne : m.prerelease ≠ [] := by
    intro hnil
    have hx' : x ∈ identifiers m.prerelease := by
      change x ∈ identifiers m.semver.prerelease
      simp [hids]
    rw [hnil] at hx'
    rw [List.mem_singleton.mp hx'] at hread
    cases hread
  obtain ⟨hlow, hhigh⟩ := atoi_bounds x
  generalize hn : (atoi x).1 = n at *
  have hy : atoi (formatInt n) = (n, true) :=
    atoi_of_integerValue (integerValue_formatInt n) hlow hhigh
  have hsame : comparison (readIdentifier x) (readIdentifier (formatInt n)) = 0 := by
    rw [comparison_eq_zero, readIdentifier, readIdentifier, if_pos hread, hy, hn]
    rfl
  have hidentifier : ∀ s ∈ before, isIdentifier s = true := fun s hs =>
    isIdentifier_of_mem hm hne (by
      change s ∈ identifiers m.semver.prerelease
      simp [hids, hs])
  -- the two plain versions
  have hall (more : List GoString) (hmore : ∀ s ∈ more, s = formatInt n) :
      ∀ s ∈ before ++ more, isIdentifier s = true := by
    intro s hs
    rcases List.mem_append.mp hs with hs | hs
    · exact hidentifier s hs
    · rw [hmore s hs]
      exact isIdentifier_formatInt n
  have hother (more : List GoString) (hmore : ∀ s ∈ more, s = formatInt n) (hmem : more ≠ []) :
      (m.withIdentifiers (before ++ more)).semver ∈ plainVersions table := by
    have hne' : before ++ more ≠ [] := List.append_ne_nil_of_right_ne_nil _ hmem
    obtain ⟨t, ht⟩ := withIdentifiers_matches hm (hall more hmore) hne'
    refine ⟨⟨t, parseSemver_of_matches table ht⟩, ?_⟩
    intro s hs
    change s ∈ identifiers (Strings.join (before ++ more) [46]) at hs
    rw [identifiers_join (hall more hmore) hne'] at hs
    rcases List.mem_append.mp hs with hs | hs
    · exact hbefore s hs
    · intro _
      rw [hmore s hs, hy]
  have hone : ∀ s ∈ [formatInt n], s = formatInt n := by simp
  have htwo : ∀ s ∈ [formatInt n, formatInt n], s = formatInt n := by simp
  have hequal (more : List GoString) (hmore : ∀ s ∈ formatInt n :: more, s = formatInt n) :
      compareSemver m.semver (m.withIdentifiers (before ++ formatInt n :: more)).semver = 0 := by
    rw [compareSemver_withIdentifiers hne (hall _ hmore) (by simp)]
    change compareIdentifiers (identifiers m.semver.prerelease) _ = 0
    rw [hids, compareIdentifiers_append, compareIdentifiers_cons, if_neg (Ne.symm hwritten), hsame]
  have hlonger : compareSemver (m.withIdentifiers (before ++ [formatInt n, formatInt n])).semver
      (m.withIdentifiers (before ++ [formatInt n])).semver = 1 := by
    have hcompare := @compareSemver_withIdentifiers (before ++ [formatInt n])
      (m.withIdentifiers (before ++ [formatInt n, formatInt n])) (join_ne_nil (hall _ htwo) (by simp))
      (hall _ hone) (by simp)
    refine hcompare.trans ?_
    change compareIdentifiers (identifiers (Strings.join (before ++ [formatInt n, formatInt n]) [46]))
      _ = 1
    rw [identifiers_join (hall _ htwo) (by simp), compareIdentifiers_append, compareIdentifiers_cons,
      if_pos rfl]
    rfl
  intro h
  have hv : m.semver ∈ insert m.semver (plainVersions table) := Set.mem_insert _ _
  have hlow' := Set.mem_insert_of_mem m.semver (hother _ hone (by simp))
  have hhigh' := Set.mem_insert_of_mem m.semver (hother _ htwo (by simp))
  have hsign := h.sign _ hhigh' _ hv
  rw [hequal _ htwo] at hsign
  have htrans := h.trans _ hhigh' _ hv _ hlow' (by omega) (hequal _ hone).le
  rw [hlonger] at htrans
  exact absurd htrans (by norm_num)

theorem isPreorderOn_insert_iff {table : PrintTable} {raw : GoString} {v : Semver}
    (hraw : parseSemver table raw = .ok v) :
    IsPreorderOn (insert v (plainVersions table)) ↔ v.Plain := by
  refine ⟨fun h => by_contra fun hplain => not_isPreorderOn hraw hplain h, fun hplain => ?_⟩
  have hall : ∀ a ∈ insert v (plainVersions table), a.Plain := by
    rintro a (rfl | ha)
    · exact hplain
    · exact ha.2
  exact isPreorderOn_of_apart fun a ha b hb => (hall a ha).apart (hall b hb)

end Higress.PluginRelease
