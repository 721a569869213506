import Mathlib
import Higress.Lib.ByteSplit
import Higress.Lib.Decimal
import Higress.Lib.Quote
import Higress.Lib.Trim

/-!
Semantic versions in the release tool of the plugins (`tools/plugin-release/semver.go`). A version is read
with a regular expression and `strconv.Atoi`, whose errors are dropped for the three numbers of the core,
and in the comparison of prereleases an identifier is a number if `Atoi` can read it.
-/

namespace Higress.PluginRelease

open Lib

/-! ### Reading a version -/

/-- What the groups of `semverPattern` capture, the fourth one empty if it takes no part. -/
structure Groups where
  major : GoString
  minor : GoString
  patch : GoString
  prerelease : GoString
deriving DecidableEq

/-- `[0-9A-Za-z-]` -/
def isIdentifierByte (b : UInt8) : Bool :=
  Json.isDigit b || (65 ≤ b && b ≤ 90) || (97 ≤ b && b ≤ 122) || b == 45

/-- `[0-9A-Za-z-]+` -/
def isIdentifier (s : GoString) : Bool := !s.isEmpty && s.all isIdentifierByte

/-- The dot-separated identifiers of a prerelease. -/
def identifiers (s : GoString) : List GoString := split s [46]

/-- `[0-9A-Za-z-]+(?:\.[0-9A-Za-z-]+)*` -/
def isIdentifiers (s : GoString) : Bool := (identifiers s).all isIdentifier

/-- `semverPattern.FindStringSubmatch`. No plus stands before the build part, and no hyphen in
the core. -/
def findStringSubmatch (s : GoString) : Option Groups :=
  let version := cutByte 43 s
  let core := cutByte 45 version.1
  match split core.1 [46] with
  | [major, minor, patch] =>
      if isNumeral major && isNumeral minor && isNumeral patch && core.2.all isIdentifiers &&
          version.2.all isIdentifiers then
        some ⟨major, minor, patch, core.2.getD []⟩
      else none
  | _ => none

structure Semver where
  major : Int64
  minor : Int64
  patch : Int64
  prerelease : GoString
deriving DecidableEq

/-- The version of some groups; the errors of `strconv.Atoi` are dropped. -/
def Groups.semver (m : Groups) : Semver :=
  ⟨.ofInt (atoi m.major).1, .ofInt (atoi m.minor).1, .ofInt (atoi m.patch).1, m.prerelease⟩

section Parse

variable (table : PrintTable)

def parseSemver (raw : GoString) : Except GoString Semver :=
  match findStringSubmatch (Strings.trimSpace raw) with
  | none => .error (bytes "invalid semantic version " ++ quote table raw)
  | some m => .ok m.semver

end Parse

def Semver.stableString (v : Semver) : GoString :=
  formatInt v.major.toInt ++ 46 :: (formatInt v.minor.toInt ++ 46 :: formatInt v.patch.toInt)

/-! ### Comparing versions -/

def compareInt (a b : Int64) : ℤ := if a < b then -1 else if b < a then 1 else 0

/-- The loop of `comparePrerelease`; behind equal beginnings the lengths compare as those of the whole
lists do. -/
def compareIdentifiers : List GoString → List GoString → ℤ
  | a :: aa, b :: bb =>
      if a = b then compareIdentifiers aa bb
      else
        match atoi a, atoi b with
        | (ai, true), (bi, true) => compareInt (.ofInt ai) (.ofInt bi)
        | (_, true), _ => -1
        | _, (_, true) => 1
        | _, _ => if a < b then -1 else 1
  | [], [] => 0
  | [], _ :: _ => -1
  | _ :: _, [] => 1

def comparePrerelease (a b : GoString) : ℤ := compareIdentifiers (identifiers a) (identifiers b)

def compareSemver (a b : Semver) : ℤ :=
  if a.major ≠ b.major then compareInt a.major b.major
  else if a.minor ≠ b.minor then compareInt a.minor b.minor
  else if a.patch ≠ b.patch then compareInt a.patch b.patch
  else if a.prerelease = b.prerelease then 0
  else if a.prerelease = [] then 1
  else if b.prerelease = [] then -1
  else comparePrerelease a.prerelease b.prerelease

/-! ### The next version -/

/-- The version without its prerelease. -/
def Semver.stable (v : Semver) : Semver := { v with prerelease := [] }

section Next

variable (table : PrintTable)

def nextVersion (previous current : GoString) : Except GoString GoString :=
  match parseSemver table previous with
  | .error err => .error (bytes "previous version: " ++ err)
  | .ok prev =>
      if prev.prerelease ≠ [] then
        .error (bytes "previous snapshot version " ++ quote table previous ++ bytes " is not stable")
      else
        match parseSemver table current with
        | .error err => .error (bytes "current VERSION: " ++ err)
        | .ok cur =>
            if cur.prerelease = [] ∧ 0 < compareSemver cur prev then .ok cur.stableString
            else if cur.prerelease ≠ [] ∧ 0 < compareSemver cur.stable prev then
              .ok cur.stable.stableString
            else .ok ({ prev with patch := prev.patch + 1 } : Semver).stableString

end Next

/-! ### The grammar of versions -/

/-- A text that the pattern matches: its groups, the prerelease and the build part. -/
structure Matches (s : GoString) (m : Groups) (prerelease build : Option GoString) : Prop where
  numerals : isNumeral m.major = true ∧ isNumeral m.minor = true ∧ isNumeral m.patch = true
  identifiers : ∀ part ∈ prerelease, isIdentifiers part = true
  buildIdentifiers : ∀ part ∈ build, isIdentifiers part = true
  captured : m.prerelease = prerelease.getD []
  text : s = Strings.join [m.major, m.minor, m.patch] [46] ++ afterByte 45 prerelease ++
    afterByte 43 build

theorem notMem_of_isNumeral {s : GoString} (h : isNumeral s = true) {b : UInt8}
    (hb : Json.isDigit b = false) : b ∉ s := by
  intro hmem
  have hdigit := (isDecimal_iff.mp (isDecimal_of_isNumeral h)).2 b hmem
  rw [isDigit_iff.mpr hdigit] at hb
  cases hb

theorem isIdentifierByte_of_mem {s : GoString} (h : isIdentifiers s = true) {b : UInt8} (hb : b ∈ s) :
    b = 46 ∨ isIdentifierByte b = true := by
  rw [← @join_split_byte 46 s, Strings.join] at hb
  rcases mem_intercalate hb with hb | ⟨part, hpart, hb⟩
  · exact .inl (by simpa using hb)
  · have hid := List.all_eq_true.mp h part hpart
    rw [isIdentifier, Bool.and_eq_true, List.all_eq_true] at hid
    exact .inr (hid.2 b hb)

theorem Matches.core_notMem {s : GoString} {m : Groups} {prerelease build : Option GoString}
    (h : Matches s m prerelease build) {b : UInt8} (hb : Json.isDigit b = false) (hdot : b ≠ 46) :
    b ∉ Strings.join [m.major, m.minor, m.patch] [46] := by
  intro hmem
  obtain ⟨hmajor, hminor, hpatch⟩ := h.numerals
  rw [Strings.join] at hmem
  rcases mem_intercalate hmem with hsep | ⟨part, hpart, hmem⟩
  · exact hdot (by simpa using hsep)
  · simp only [List.mem_cons, List.not_mem_nil, or_false] at hpart
    rcases hpart with rfl | rfl | rfl
    · exact notMem_of_isNumeral hmajor hb hmem
    · exact notMem_of_isNumeral hminor hb hmem
    · exact notMem_of_isNumeral hpatch hb hmem

/-- The pattern finds the groups of the texts of the grammar. -/
theorem findStringSubmatch_eq_some {s : GoString} {m : Groups} :
    findStringSubmatch s = some m ↔ ∃ prerelease build, Matches s m prerelease build := by
  constructor
  · intro h
    simp only [findStringSubmatch] at h
    split at h
    · rename_i major minor patch hcore
      split at h
      · rename_i hall
        obtain rfl := Option.some.inj h
        simp only [Bool.and_eq_true, Option.all_eq_true] at hall
        obtain ⟨⟨⟨⟨hmajor, hminor⟩, hpatch⟩, hpre⟩, hbuild⟩ := hall
        refine ⟨_, _, ⟨hmajor, hminor, hpatch⟩, hpre, hbuild, rfl, ?_⟩
        rw [← hcore, join_split_byte, ← eq_append_afterByte, ← eq_append_afterByte]
      · cases h
    · cases h
  · rintro ⟨prerelease, build, h⟩
    have hplus : 43 ∉ Strings.join [m.major, m.minor, m.patch] [46] ++ afterByte 45 prerelease := by
      rw [List.mem_append, not_or]
      refine ⟨h.core_notMem (by decide) (by decide), ?_⟩
      cases prerelease with
      | none => simp [afterByte]
      | some part =>
          intro hmem
          have hmem' : 43 ∈ part := by simpa [afterByte] using hmem
          rcases isIdentifierByte_of_mem (h.identifiers part rfl) hmem' with heq | hbyte
          · exact absurd heq (by decide)
          · exact absurd hbyte (by decide)
    have hhyphen : 45 ∉ Strings.join [m.major, m.minor, m.patch] [46] :=
      h.core_notMem (by decide) (by decide)
    have hdot : ∀ part ∈ [m.major, m.minor, m.patch], 46 ∉ part := by
      obtain ⟨hmajor, hminor, hpatch⟩ := h.numerals
      simp only [List.mem_cons, List.not_mem_nil, or_false, forall_eq_or_imp, forall_eq]
      exact ⟨notMem_of_isNumeral hmajor (by decide), notMem_of_isNumeral hminor (by decide),
        notMem_of_isNumeral hpatch (by decide)⟩
    have hpre : prerelease.all isIdentifiers = true := Option.all_eq_true _ _ |>.mpr h.identifiers
    have hbuild : build.all isIdentifiers = true := Option.all_eq_true _ _ |>.mpr h.buildIdentifiers
    obtain ⟨hmajor, hminor, hpatch⟩ := h.numerals
    simp only [findStringSubmatch, h.text, cutByte_append_afterByte hplus,
      cutByte_append_afterByte hhyphen, split_join_byte hdot (by simp), hmajor, hminor, hpatch, hpre,
      hbuild, Bool.and_self, if_true, ← h.captured]

/-- Bytes of a matched text can be seen, so none is trimmed. -/
theorem Matches.trimSpace_eq {s : GoString} {m : Groups} {prerelease build : Option GoString}
    (h : Matches s m prerelease build) : Strings.trimSpace s = s := by
  have hbyte (b : UInt8) (hb : isIdentifierByte b = true) : Strings.Visible b := by
    simp only [isIdentifierByte, Json.isDigit, Bool.or_eq_true, Bool.and_eq_true, decide_eq_true_eq,
      beq_iff_eq, UInt8.le_iff_toNat_le, ← UInt8.toNat_inj, UInt8.reduceToNat] at hb
    simp only [Strings.Visible, UInt8.le_iff_toNat_le, UInt8.reduceToNat]
    omega
  have hdigit (b : UInt8) (hb : Json.isDigit b = true) : Strings.Visible b :=
    hbyte b (by simp [isIdentifierByte, hb])
  have hpart {b : UInt8} {c : UInt8} {part : Option GoString} (hc : Strings.Visible c)
      (hids : ∀ p ∈ part, isIdentifiers p = true) (hb : b ∈ afterByte c part) : Strings.Visible b := by
    cases part with
    | none => simp [afterByte] at hb
    | some part =>
        rcases List.mem_cons.mp (show b ∈ c :: part from hb) with rfl | hb
        · exact hc
        · rcases isIdentifierByte_of_mem (hids part rfl) hb with rfl | hb
          · decide
          · exact hbyte b hb
  have hvisible : ∀ b ∈ s, Strings.Visible b := by
    intro b hb
    rw [h.text, List.mem_append, List.mem_append] at hb
    rcases hb with (hb | hb) | hb
    · by_contra hinvisible
      refine h.core_notMem ?_ ?_ hb
      · rw [← Bool.not_eq_true]
        exact fun hd => hinvisible (hdigit b hd)
      · rintro rfl
        exact hinvisible (by decide)
    · exact hpart (by decide) h.identifiers hb
    · exact hpart (by decide) h.buildIdentifiers hb
  cases hs : s with
  | nil => decide
  | cons c t =>
      obtain ⟨d, hlast⟩ := Option.ne_none_iff_exists'.mp
        (List.getLast?_eq_none_iff.not.mpr (List.cons_ne_nil c t))
      have hd : Strings.Visible d := hvisible d (hs ▸ List.mem_of_getLast? hlast)
      simpa using Strings.trimSpace_of_visible (hvisible c (by simp [hs])) hd rfl hlast 0

theorem parseSemver_of_matches (table : PrintTable) {s : GoString} {m : Groups}
    {prerelease build : Option GoString} (h : Matches s m prerelease build) :
    parseSemver table s = .ok m.semver := by
  rw [parseSemver, h.trimSpace_eq, findStringSubmatch_eq_some.mpr ⟨_, _, h⟩]

/-- A version that is accepted comes from some groups. -/
theorem parseSemver_eq_ok {table : PrintTable} {raw : GoString} {v : Semver} :
    parseSemver table raw = .ok v ↔
      ∃ m, findStringSubmatch (Strings.trimSpace raw) = some m ∧ m.semver = v := by
  rw [parseSemver]
  cases findStringSubmatch (Strings.trimSpace raw) with
  | none => simp
  | some m => simp

end Higress.PluginRelease
