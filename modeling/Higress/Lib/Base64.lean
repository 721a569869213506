import Higress.Lib.GoString

/-!
Base64 with the standard alphabet and padding. Three bytes are written as four digits of
six bits; one or two bytes at the end are written as two or three digits and padding. The
decoder passes over line breaks. A strict decoder wants the unused bits of the last digit
to be zero.
-/

namespace Higress.Lib.Base64

def alphabet : GoString := bytes "ABCDEFGHIJKLMNOPQRSTUVWXYZabcdefghijklmnopqrstuvwxyz0123456789+/"

def digit (n : ℕ) : UInt8 := alphabet.getD n 0

def digitValue (b : UInt8) : Option ℕ := alphabet.idxOf? b

/-- The padding, `=`. -/
def pad : UInt8 := 61

/-- `base64.StdEncoding.EncodeToString`. -/
def encodeToString : GoString → GoString
  | [] => []
  | [a] => [digit (a.toNat / 4), digit (a.toNat % 4 * 16), pad, pad]
  | [a, b] =>
      [digit (a.toNat / 4), digit (a.toNat % 4 * 16 + b.toNat / 16), digit (b.toNat % 16 * 4), pad]
  | a :: b :: c :: rest =>
      digit (a.toNat / 4) :: digit (a.toNat % 4 * 16 + b.toNat / 16) ::
        digit (b.toNat % 16 * 4 + c.toNat / 64) :: digit (c.toNat % 64) :: encodeToString rest

/-- Groups of four digits, of which the last may be padded. -/
def decodeQuanta (strict : Bool) : GoString → Option GoString
  | [] => some []
  | p :: q :: r :: s :: rest =>
      (digitValue p).bind fun x => (digitValue q).bind fun y =>
        if r = pad then
          if s = pad && rest.isEmpty && (!strict || y % 16 == 0) then
            some [UInt8.ofNat (x * 4 + y / 16)]
          else none
        else (digitValue r).bind fun z =>
          if s = pad then
            if rest.isEmpty && (!strict || z % 4 == 0) then
              some [UInt8.ofNat (x * 4 + y / 16), UInt8.ofNat (y % 16 * 16 + z / 4)]
            else none
          else (digitValue s).bind fun w =>
            (decodeQuanta strict rest).map fun bs =>
              UInt8.ofNat (x * 4 + y / 16) :: UInt8.ofNat (y % 16 * 16 + z / 4) ::
                UInt8.ofNat (z % 4 * 64 + w) :: bs
  | _ => none

/-- `DecodeString`, of `base64.StdEncoding` or of `base64.StdEncoding.Strict()`. -/
def decodeString (strict : Bool) (s : GoString) : Option GoString :=
  decodeQuanta strict (s.filter fun b => b != 10 && b != 13)

theorem digitValue_digit {n : ℕ} (h : n < 64) : digitValue (digit n) = some n := by
  have hall : ∀ n < 64, digitValue (digit n) = some n := by decide
  exact hall n h

/-- A digit is not a line break and not the padding. -/
theorem digit_plain {n : ℕ} (h : n < 64) : digit n ≠ 10 ∧ digit n ≠ 13 ∧ digit n ≠ pad := by
  have hall : ∀ n < 64, digit n ≠ 10 ∧ digit n ≠ 13 ∧ digit n ≠ pad := by decide
  exact hall n h

theorem ofNat_eq {b : UInt8} {n : ℕ} (h : n = b.toNat) : UInt8.ofNat n = b := by
  rw [h, UInt8.ofNat_toNat]

/-- What has been written can be read, by a strict decoder too. -/
theorem decodeQuanta_encodeToString (strict : Bool) (s : GoString) :
    decodeQuanta strict (encodeToString s) = some s := by
  fun_induction encodeToString s with
  | case1 => rfl
  | case2 a =>
      have ha := a.toNat_lt
      rw [decodeQuanta, digitValue_digit (by omega), digitValue_digit (by omega)]
      have hbyte : UInt8.ofNat (a.toNat / 4 * 4 + a.toNat % 4 * 16 / 16) = a := ofNat_eq (by omega)
      simp only [Option.bind_some, hbyte]
      simp
  | case3 a b =>
      have ha := a.toNat_lt
      have hb := b.toNat_lt
      rw [decodeQuanta, digitValue_digit (by omega), digitValue_digit (by omega),
        digitValue_digit (by omega)]
      have hfirst : UInt8.ofNat (a.toNat / 4 * 4 + (a.toNat % 4 * 16 + b.toNat / 16) / 16) = a :=
        ofNat_eq (by omega)
      have hsecond : UInt8.ofNat ((a.toNat % 4 * 16 + b.toNat / 16) % 16 * 16 +
          b.toNat % 16 * 4 / 4) = b := ofNat_eq (by omega)
      have hplain := (digit_plain (n := b.toNat % 16 * 4) (by omega)).2.2
      have hzero : b.toNat % 16 * 4 % 4 = 0 := by omega
      simp only [Option.bind_some, hfirst, hsecond]
      simp [hplain, hzero]
  | case4 a b c rest ih =>
      have ha := a.toNat_lt
      have hb := b.toNat_lt
      have hc := c.toNat_lt
      rw [decodeQuanta, digitValue_digit (by omega), digitValue_digit (by omega),
        digitValue_digit (by omega), digitValue_digit (by omega), ih]
      have hfirst : UInt8.ofNat (a.toNat / 4 * 4 + (a.toNat % 4 * 16 + b.toNat / 16) / 16) = a :=
        ofNat_eq (by omega)
      have hsecond : UInt8.ofNat ((a.toNat % 4 * 16 + b.toNat / 16) % 16 * 16 +
          (b.toNat % 16 * 4 + c.toNat / 64) / 4) = b := ofNat_eq (by omega)
      have hthird : UInt8.ofNat ((b.toNat % 16 * 4 + c.toNat / 64) % 4 * 64 + c.toNat % 64) = c :=
        ofNat_eq (by omega)
      have hplain := (digit_plain (n := b.toNat % 16 * 4 + c.toNat / 64) (by omega)).2.2
      have hplain' := (digit_plain (n := c.toNat % 64) (by omega)).2.2
      simp only [Option.bind_some, Option.map_some, hfirst, hsecond, hthird]
      simp [hplain, hplain']

/-- There are no line breaks in what is written. -/
theorem encodeToString_plain (s : GoString) : ∀ b ∈ encodeToString s, b ≠ 10 ∧ b ≠ 13 := by
  have hpad : pad ≠ 10 ∧ pad ≠ 13 := by decide
  have hdigit {n : ℕ} (h : n < 64) : digit n ≠ 10 ∧ digit n ≠ 13 :=
    ⟨(digit_plain h).1, (digit_plain h).2.1⟩
  fun_induction encodeToString s with
  | case1 => simp
  | case2 a =>
      have ha := a.toNat_lt
      simp only [List.mem_cons, List.not_mem_nil, or_false, forall_eq_or_imp, forall_eq]
      exact ⟨hdigit (by omega), hdigit (by omega), hpad, hpad⟩
  | case3 a b =>
      have ha := a.toNat_lt
      have hb := b.toNat_lt
      simp only [List.mem_cons, List.not_mem_nil, or_false, forall_eq_or_imp, forall_eq]
      exact ⟨hdigit (by omega), hdigit (by omega), hdigit (by omega), hpad⟩
  | case4 a b c rest ih =>
      have ha := a.toNat_lt
      have hb := b.toNat_lt
      have hc := c.toNat_lt
      simp only [List.mem_cons, forall_eq_or_imp]
      exact ⟨hdigit (by omega), hdigit (by omega), hdigit (by omega), hdigit (by omega), ih⟩

theorem decodeString_encodeToString (strict : Bool) (s : GoString) :
    decodeString strict (encodeToString s) = some s := by
  have hplain : (encodeToString s).filter (fun b => b != 10 && b != 13) = encodeToString s := by
    rw [List.filter_eq_self]
    intro b hb
    simpa using encodeToString_plain s b hb
  rw [decodeString, hplain, decodeQuanta_encodeToString]

end Higress.Lib.Base64
