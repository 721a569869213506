import Higress.Lib.Text
import Higress.Lib.Utf8

/-!
`strings.ToLower`. Letters of ASCII go by their bytes, other characters by a table. Two of
the others have a letter of ASCII as their lower case: the capital I with a dot above and
the Kelvin sign. A byte that belongs to no character is replaced by U+FFFD.
-/

namespace Higress.Lib

/-- U+0130, the capital I with a dot above. -/
def dottedCapitalI : GoString := [0xC4, 0xB0]

/-- U+212A. -/
def kelvinSign : GoString := [0xE2, 0x84, 0xAA]

def replacementChar : GoString := [0xEF, 0xBF, 0xBD]

/-- `unicode.ToLower` on the characters that are not ASCII. -/
structure CaseTable where
  toLower : GoString → GoString
  dottedCapitalI : toLower dottedCapitalI = [105]
  kelvinSign : toLower kelvinSign = [107]
  others : ∀ c, Utf8.IsChar c → 2 ≤ c.length → c ≠ Lib.dottedCapitalI → c ≠ Lib.kelvinSign →
    ∃ b ∈ toLower c, 0x80 ≤ b

/-- A table that changes the two characters only. -/
def plainCaseTable : CaseTable where
  toLower c := if c = dottedCapitalI then [105] else if c = kelvinSign then [107] else c
  dottedCapitalI := by decide
  kelvinSign := by decide
  others := by
    intro c hchar hlen hi hk
    rw [if_neg hi, if_neg hk]
    obtain ⟨b, t, rfl, -, htail⟩ := hchar.tail
    cases t with
    | nil => simp at hlen
    | cons x t =>
        have hx := htail x (by simp)
        simp only [Json.isTail, Bool.and_eq_true, decide_eq_true_eq] at hx
        exact ⟨x, by simp, hx.1⟩

def toLower (table : CaseTable) (s : GoString) : GoString :=
  match s with
  | [] => []
  | b :: t =>
      match Json.runeLen (b :: t) with
      | 0 => replacementChar ++ toLower table t
      | 1 => lowerByte b :: toLower table t
      | n + 2 => table.toLower (b :: t.take (n + 1)) ++ toLower table (t.drop (n + 1))
termination_by s.length
decreasing_by
  all_goals
    simp only [List.length_drop, List.length_cons]
    omega

theorem toLower_eq_lower (table : CaseTable) {s : GoString} (h : ∀ b ∈ s, b < 0x80) :
    toLower table s = lower s := by
  induction s with
  | nil =>
      rw [toLower]
      rfl
  | cons b t ih =>
      have hrune : Json.runeLen (b :: t) = 1 := by simp [Json.runeLen, h b (by simp)]
      rw [toLower, hrune]
      dsimp only
      rw [ih fun c hc => h c (by simp [hc]), lower, lower, List.map_cons]

/-- A text of ASCII without `i` and `k` is the lower case of no other letters than its
own. -/
theorem lower_eq_of_toLower (table : CaseTable) {s : GoString}
    (h : ∀ b ∈ toLower table s, b < 0x80 ∧ b ≠ 105 ∧ b ≠ 107) : lower s = toLower table s := by
  fun_induction toLower table s with
  | case1 => rfl
  | case2 b t hrune ih =>
      exact absurd (h 0xEF (by simp [replacementChar])).1 (by decide)
  | case3 b t hrune ih =>
      rw [lower, List.map_cons, ← lower, ih fun c hc => h c (by simp [hc])]
  | case4 b t n hrune ih =>
      exfalso
      have hchar : Utf8.IsChar (b :: t.take (n + 1)) := by
        have htake := Utf8.IsChar.take (s := b :: t) (by omega)
        rwa [hrune, List.take_succ_cons] at htake
      have hlen : 2 ≤ (b :: t.take (n + 1)).length := by
        have hle := Json.runeLen_le_length (b :: t)
        simp only [hrune, List.length_cons, List.length_take] at hle ⊢
        omega
      by_cases hi : b :: t.take (n + 1) = dottedCapitalI
      · exact (h 105 (by simp [hi, table.dottedCapitalI])).2.1 rfl
      · by_cases hk : b :: t.take (n + 1) = kelvinSign
        · exact (h 107 (by simp [hk, table.kelvinSign])).2.2 rfl
        · obtain ⟨c, hc, hhigh⟩ := table.others _ hchar hlen hi hk
          exact absurd (h c (by simp [hc])).1 (not_lt.mpr hhigh)

end Higress.Lib
