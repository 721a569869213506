import Mathlib.Data.Int.Notation
import Higress.Lib.Json

/-!
Decimal integers as `strconv.Atoi` reads them.
-/

namespace Higress.Lib

/-- The number that a text of digits stands for. -/
def decimalValue (digits : GoString) : ℕ := digits.foldl (fun n b => 10 * n + (b.toNat - 48)) 0

/-- A text of decimal digits. -/
def isDecimal (s : GoString) : Bool := !s.isEmpty && s.all Json.isDigit

/-- The integer that a text with or without a sign stands for. -/
def integerValue : GoString → Option ℤ
  | 43 :: digits => if isDecimal digits then some (decimalValue digits) else none
  | 45 :: digits => if isDecimal digits then some (-decimalValue digits) else none
  | digits => if isDecimal digits then some (decimalValue digits) else none

/-- `strconv.Atoi` with whether there was no error. Of an integer out of range the nearest one in
range is returned beside the error. -/
def atoi (s : GoString) : ℤ × Bool :=
  match integerValue s with
  | none => (0, false)
  | some n =>
      if n < -2 ^ 63 then (-2 ^ 63, false)
      else if 2 ^ 63 ≤ n then (2 ^ 63 - 1, false)
      else (n, true)

theorem atoi_bounds (s : GoString) : -2 ^ 63 ≤ (atoi s).1 ∧ (atoi s).1 < 2 ^ 63 := by
  rw [atoi]
  split
  · norm_num
  · split_ifs <;> norm_num <;> omega

end Higress.Lib
