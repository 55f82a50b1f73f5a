import Mathlib.Tactic.Common
import Mathlib.Algebra.Group.Int.Defs
import Mathlib.Algebra.Group.Nat.Defs

/-!
# The C integers `int`, `unsigned` and `size_t`

A 32-bit `int` is an integer in `[-2^31, 2^31)`, an `unsigned` a natural number below `2^32` and a
`size_t` one below `2^64`.  `toInt`, `toUnsigned` and `toSize` are the conversions; on values that
already fit they change nothing, which is what the `_of_` lemmas say.
-/

namespace SystemProgramming.CInt

/-- The `int` that a value is converted to. -/
def toInt (n : ℤ) : ℤ := (n + 2 ^ 31) % 2 ^ 32 - 2 ^ 31

/-- The `unsigned` that a value is converted to. -/
def toUnsigned (n : ℤ) : ℕ := (n % 2 ^ 32).toNat

/-- The `size_t` that a value is converted to. -/
def toSize (n : ℤ) : ℕ := (n % 2 ^ 64).toNat

theorem toInt_of_bounds {n : ℤ} (h₁ : -2 ^ 31 ≤ n) (h₂ : n < 2 ^ 31) : toInt n = n := by
  unfold toInt
  omega

theorem toInt_bounds (n : ℤ) : -2 ^ 31 ≤ toInt n ∧ toInt n < 2 ^ 31 := by
  unfold toInt
  omega

theorem toInt_of_lt {n : ℕ} (h : n < 2 ^ 31) : toInt (n : ℤ) = n :=
  toInt_of_bounds (by omega) (by omega)

/-- Converting early makes no difference to a sum. -/
theorem toInt_add (a b : ℤ) : toInt (toInt a + b) = toInt (a + b) := by
  unfold toInt
  omega

theorem toUnsigned_of_lt {n : ℕ} (h : n < 2 ^ 32) : toUnsigned (n : ℤ) = n := by
  unfold toUnsigned
  omega

theorem toSize_of_lt {n : ℕ} (h : n < 2 ^ 64) : toSize (n : ℤ) = n := by
  unfold toSize
  omega

theorem toSize_of_wrap {n : ℤ} (h₁ : 2 ^ 64 ≤ n) (h₂ : n < 2 ^ 65) :
    toSize n = (n - 2 ^ 64).toNat := by
  unfold toSize
  omega

theorem toSize_lt (n : ℤ) : toSize n < 2 ^ 64 := by
  unfold toSize
  omega

-- the conversions are only ever used through the lemmas above
attribute [irreducible] toInt toUnsigned toSize

/-- `a + b` in `size_t`. -/
def addSize (a b : ℕ) : ℕ := toSize (a + b)

/-- `a - b` in `size_t`. -/
def subSize (a b : ℕ) : ℕ := toSize (a - b)

/-- `a + b` in `unsigned`. -/
def addUnsigned (a b : ℕ) : ℕ := toUnsigned (a + b)

/-- `a - b` in `unsigned`. -/
def subUnsigned (a b : ℕ) : ℕ := toUnsigned (a - b)

/-- `a + b` in `int`. -/
def addInt (a b : ℤ) : ℤ := toInt (a + b)

/-- `a - b` in `int`. -/
def subInt (a b : ℤ) : ℤ := toInt (a - b)

theorem addSize_of_lt {a b : ℕ} (h : a + b < 2 ^ 64) : addSize a b = a + b := by
  unfold addSize
  exact_mod_cast toSize_of_lt h

theorem subSize_of_le {a b : ℕ} (hb : b ≤ a) (ha : a < 2 ^ 64) : subSize a b = a - b := by
  unfold subSize
  have hcast : (a : ℤ) - b = (a - b : ℕ) := by omega
  rw [hcast, toSize_of_lt (by omega)]

theorem addUnsigned_of_lt {a b : ℕ} (h : a + b < 2 ^ 32) : addUnsigned a b = a + b := by
  unfold addUnsigned
  exact_mod_cast toUnsigned_of_lt h

theorem subUnsigned_of_le {a b : ℕ} (hb : b ≤ a) (ha : a < 2 ^ 32) : subUnsigned a b = a - b := by
  unfold subUnsigned
  have hcast : (a : ℤ) - b = (a - b : ℕ) := by omega
  rw [hcast, toUnsigned_of_lt (by omega)]

theorem addInt_of_lt {a b : ℕ} (h : a + b < 2 ^ 31) : addInt a b = (a + b : ℕ) := by
  unfold addInt
  exact_mod_cast toInt_of_lt h

theorem subInt_of_le {a b : ℕ} (hb : b ≤ a) (ha : a < 2 ^ 31) : subInt a b = (a - b : ℕ) := by
  unfold subInt
  rw [toInt_of_bounds (by omega) (by omega)]
  omega

end SystemProgramming.CInt
