import Mathlib
import Higress.Lib.Atoi

/-!
Decimal integers as they are written, with `%d`, and how they are read back. A numeral is a text of digits
without leading zeros, which is the one way to write its number.
-/

namespace Higress.Lib

def formatNat (n : ℕ) : GoString := (Nat.toDigits 10 n).map fun d => d.toNat.toUInt8

/-- `fmt.Sprintf("%d", n)` -/
def formatInt (n : ℤ) : GoString :=
  if n < 0 then 45 :: formatNat n.natAbs else formatNat n.natAbs

/-- `0|[1-9][0-9]*` -/
def isNumeral (s : GoString) : Bool := isDecimal s && (s == [48] || s.head? != some 48)

/-! ### Texts of digits -/

theorem isDigit_iff {b : UInt8} : Json.isDigit b = true ↔ 48 ≤ b.toNat ∧ b.toNat < 58 := by
  simp only [Json.isDigit, Bool.and_eq_true, decide_eq_true_eq, UInt8.le_iff_toNat_le]
  have h48 : (48 : UInt8).toNat = 48 := rfl
  have h57 : (57 : UInt8).toNat = 57 := rfl
  omega

theorem isDecimal_iff {s : GoString} :
    isDecimal s = true ↔ s ≠ [] ∧ ∀ b ∈ s, 48 ≤ b.toNat ∧ b.toNat < 58 := by
  simp [isDecimal, isDigit_iff]

theorem decimalValue_concat (s : GoString) (b : UInt8) :
    decimalValue (s ++ [b]) = 10 * decimalValue s + (b.toNat - 48) := by
  simp [decimalValue, List.foldl_append]

theorem digitChar_toUInt8 {d : ℕ} (hd : d < 10) : d.digitChar.toNat.toUInt8 = UInt8.ofNat (48 + d) := by
  interval_cases d <;> rfl

theorem formatNat_eq (n : ℕ) : formatNat n =
    (if n < 10 then [UInt8.ofNat (48 + n)] else formatNat (n / 10) ++ [UInt8.ofNat (48 + n % 10)]) := by
  rw [formatNat, Nat.toDigits_eq_if (by norm_num)]
  split
  · rename_i hn
    rw [List.map_singleton, digitChar_toUInt8 hn]
  · rw [List.map_append, List.map_singleton, digitChar_toUInt8 (Nat.mod_lt _ (by norm_num))]
    rfl

theorem toNat_digit {d : ℕ} (hd : d < 10) : (UInt8.ofNat (48 + d)).toNat = 48 + d := by
  rw [UInt8.toNat_ofNat']
  omega

theorem decimalValue_formatNat (n : ℕ) : decimalValue (formatNat n) = n := by
  induction n using Nat.strongRecOn with
  | ind n ih =>
      rw [formatNat_eq]
      split
      · rename_i hn
        simp only [decimalValue, List.foldl_cons, List.foldl_nil, toNat_digit hn]
        omega
      · rw [decimalValue_concat, ih _ (by omega), toNat_digit (Nat.mod_lt _ (by norm_num))]
        omega

theorem isNumeral_formatNat (n : ℕ) : isNumeral (formatNat n) = true := by
  induction n using Nat.strongRecOn with
  | ind n ih =>
      rw [formatNat_eq]
      split
      · rename_i hn
        interval_cases n <;> rfl
      · rename_i hn
        have hrest := ih (n / 10) (by omega)
        have hpos : formatNat (n / 10) ≠ [48] := by
          intro hzero
          have hvalue := decimalValue_formatNat (n / 10)
          rw [hzero] at hvalue
          have hsmall : decimalValue [48] = 0 := by decide
          omega
        simp only [isNumeral, Bool.and_eq_true, Bool.or_eq_true, beq_iff_eq, hpos, false_or,
          bne_iff_ne, isDecimal_iff] at hrest ⊢
        obtain ⟨⟨hne, hdigits⟩, hhead⟩ := hrest
        have hlast := @toNat_digit (n % 10) (Nat.mod_lt _ (by norm_num))
        refine ⟨⟨by simp, ?_⟩, .inr ?_⟩
        · intro b hb
          rcases List.mem_append.mp hb with hb | hb
          · exact hdigits b hb
          · rw [List.mem_singleton.mp hb]
            omega
        · rwa [List.head?_append_of_ne_nil _ hne]

theorem isDecimal_of_isNumeral {s : GoString} (h : isNumeral s = true) : isDecimal s = true := by
  rw [isNumeral, Bool.and_eq_true] at h
  exact h.1

/-- A numeral is read back to itself. -/
theorem formatNat_decimalValue {s : GoString} (h : isNumeral s = true) :
    formatNat (decimalValue s) = s := by
  induction s using List.reverseRecOn with
  | nil => cases h
  | append_singleton s b ih =>
      have hdigits := (isDecimal_iff.mp (isDecimal_of_isNumeral h)).2
      have hb := hdigits b (by simp)
      have hlast : UInt8.ofNat (48 + (b.toNat - 48)) = b := by
        rw [Nat.add_sub_cancel' hb.1]
        exact UInt8.ofNat_toNat
      cases s with
      | nil =>
          have hvalue : decimalValue ([] ++ [b]) = b.toNat - 48 := by simp [decimalValue]
          rw [hvalue, formatNat_eq, if_pos (by omega), hlast]
          rfl
      | cons c s =>
          have hc : c ≠ 48 := by
            rintro rfl
            simp [isNumeral] at h
          have hnumeral : isNumeral (c :: s) = true := by
            simp only [isNumeral, Bool.and_eq_true, isDecimal_iff]
            refine ⟨⟨by simp, fun d hd => hdigits d (List.mem_append_left _ hd)⟩, by simp [hc]⟩
          have hback := ih hnumeral
          have hpos : 0 < decimalValue (c :: s) := by
            rw [Nat.pos_iff_ne_zero]
            intro hzero
            rw [hzero] at hback
            have hhead := congrArg List.head? hback
            simp [formatNat_eq] at hhead
            exact hc (by rw [← hhead])
          rw [decimalValue_concat, formatNat_eq, if_neg (by omega)]
          have hdiv : (10 * decimalValue (c :: s) + (b.toNat - 48)) / 10 = decimalValue (c :: s) := by
            omega
          have hmod : (10 * decimalValue (c :: s) + (b.toNat - 48)) % 10 = b.toNat - 48 := by omega
          rw [hdiv, hmod, hback, hlast]

/-! ### Integers -/

theorem integerValue_of_isDecimal {s : GoString} (h : isDecimal s = true) :
    integerValue s = some (decimalValue s : ℤ) := by
  obtain ⟨hne, hdigits⟩ := isDecimal_iff.mp h
  obtain ⟨b, t, rfl⟩ := List.exists_cons_of_ne_nil hne
  have hb := hdigits b (by simp)
  rw [integerValue.eq_3 _ (fun _ heq => ?_) (fun _ heq => ?_), if_pos h]
  · rw [(List.cons.inj heq).1] at hb
    exact absurd hb.1 (by decide)
  · rw [(List.cons.inj heq).1] at hb
    exact absurd hb.1 (by decide)

theorem integerValue_formatInt (n : ℤ) : integerValue (formatInt n) = some n := by
  have hdecimal := isDecimal_of_isNumeral (isNumeral_formatNat n.natAbs)
  rw [formatInt]
  split
  · rename_i hn
    rw [integerValue, if_pos hdecimal, decimalValue_formatNat]
    congr 1
    omega
  · rename_i hn
    rw [integerValue_of_isDecimal hdecimal, decimalValue_formatNat]
    congr 1
    omega

theorem atoi_of_integerValue {s : GoString} {n : ℤ} (h : integerValue s = some n) (hlow : -2 ^ 63 ≤ n)
    (hhigh : n < 2 ^ 63) : atoi s = (n, true) := by
  simp only [atoi, h]
  rw [if_neg (by omega), if_neg (by omega)]

/-- What is read of an integer that is not negative. -/
theorem atoi_of_isDecimal {s : GoString} (h : isDecimal s = true) :
    (atoi s).1 = min (decimalValue s : ℤ) (2 ^ 63 - 1) ∧
      ((atoi s).2 = true ↔ decimalValue s < 2 ^ 63) := by
  simp only [atoi, integerValue_of_isDecimal h]
  rw [if_neg (by omega)]
  split
  · rename_i hlarge
    refine ⟨by omega, ?_⟩
    simp only [Bool.false_eq_true, false_iff, not_lt]
    omega
  · rename_i hsmall
    refine ⟨by omega, ?_⟩
    simp only [true_iff]
    omega

end Higress.Lib
