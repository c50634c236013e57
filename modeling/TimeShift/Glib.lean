import Mathlib.Algebra.Group.Int.Defs
import Mathlib.Algebra.Group.Nat.Defs
import Mathlib.Data.Int.Notation
import Mathlib.Data.Nat.Notation

/-!
# The integers of GLib

Conversions between the integer types of the source, and the arithmetic on them
where it can wrap around. Quantities that stay far from the limits of their type
(sizes, positions in the stream) are natural numbers.
-/

namespace TimeShift

/-- The low 32 bits, a conversion to `guint`. -/
def guint (x : ℕ) : ℕ := x % 2 ^ 32

/-- Conversion of a `gint` to `guint`. -/
def guintOfGint (x : ℤ) : ℕ := (x % 2 ^ 32).toNat

/-- Subtraction of two `gsize` values, with its wrap-around. -/
def gsizeSub (x y : ℕ) : ℕ := if y ≤ x then x - y else 2 ^ 64 - (y - x)

/-- `g_bit_storage`: the number of bits used to hold `x`. -/
def gBitStorage (x : ℕ) : ℕ := if x = 0 then 1 else Nat.log2 x + 1

/-- Conversion to `gint16`. -/
def gint16 (x : ℤ) : ℤ := x.bmod (2 ^ 16)

/-- Conversion to `guint16`. -/
def guint16 (x : ℤ) : ℕ := (x % 2 ^ 16).toNat

/-- Conversion to `gint64`, and the wrap-around of its arithmetic. -/
def gint64 (x : ℤ) : ℤ := x.bmod (2 ^ 64)

/-- Conversion to `guint64`. -/
def guint64 (x : ℤ) : ℕ := (x % 2 ^ 64).toNat

theorem gint64_of_lt {x : ℤ} (h : -2 ^ 63 ≤ x) (h' : x < 2 ^ 63) : gint64 x = x :=
  Int.bmod_eq_of_le_mul_two (by omega) (by omega)

theorem guint64_of_lt {x : ℤ} (h : 0 ≤ x) (h' : x < 2 ^ 64) : guint64 x = x.toNat := by
  rw [guint64, Int.emod_eq_of_lt h h']

/-- `GST_CLOCK_TIME_NONE`. -/
def clockTimeNone : ℕ := 2 ^ 64 - 1

end TimeShift
