import SystemProgramming.Lib.CString
import SystemProgramming.Lib.CInt
import Mathlib.Order.Lattice

/-!
# `strtol` and `atoi`

A decimal number behind white space and a sign; `long` has 64 bits, and a number that does not fit is
replaced by the nearest one that does.  `atoi` is the conversion of the result to `int`.
-/

namespace SystemProgramming

/-- `isspace` in the C locale. -/
def isspace (c : CChar) : Bool := c.1 = 32 || (9 ≤ c.1 && c.1 ≤ 13)

/-- `isdigit` -/
def isdigit (c : CChar) : Bool := 48 ≤ c.1 && c.1 ≤ 57

/-- The number that the digits at the start of a string are, `n` having been read. -/
def digits : ℕ → Str → ℕ
  | n, [] => n
  | n, c :: s => if isdigit c then digits (10 * n + (c.1.toNat - 48)) s else n

/-- A value in the range of `long`. -/
def clampLong (n : ℤ) : ℤ := max (-2 ^ 63) (min n (2 ^ 63 - 1))

/-- `strtol(s, NULL, 10)` -/
def strtol (s : Str) : ℤ :=
  match s.dropWhile isspace with
  | [] => 0
  | c :: t =>
    if c.1 = 45 then clampLong (-(digits 0 t : ℤ))
    else if c.1 = 43 then clampLong (digits 0 t)
    else clampLong (digits 0 (c :: t))

/-- `atoi(s)` -/
def atoi (s : Str) : ℤ := CInt.toInt (strtol s)

end SystemProgramming
