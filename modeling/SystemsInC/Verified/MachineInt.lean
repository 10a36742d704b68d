import Mathlib.Algebra.Order.Ring.Int

/-!
# The integer types of C

`int` has 32 bits and `size_t` has 64.  An operation on `int`s whose value is not an
`int` has no result, `int` of it is `none`; a conversion always has one and wraps.
-/

namespace SystemsInC.Verified.MachineInt

/-- The values of an `int`. -/
def IsInt (n : Int) : Prop := -2147483648 ≤ n ∧ n ≤ 2147483647

instance (n : Int) : Decidable (IsInt n) := by
  unfold IsInt
  infer_instance

/-- The result of an operation on `int`s with the value `n`. -/
def int (n : Int) : Option Int := if IsInt n then some n else none

theorem int_eq_some {n : Int} (h : IsInt n) : int n = some n := if_pos h

/-- Conversion to `int`. -/
def toInt (n : Int) : Int := Int.bmod n (2 ^ 32)

/-- Conversion to `size_t`. -/
def toSize (n : Int) : Nat := (n % 2 ^ 64).toNat

theorem toInt_def (n : Int) :
    toInt n = if n % 4294967296 < 2147483648 then n % 4294967296
      else n % 4294967296 - 4294967296 := rfl

theorem toInt_isInt (n : Int) : IsInt (toInt n) := by
  rw [toInt_def]
  unfold IsInt
  omega

theorem toInt_eq {n : Int} (h : IsInt n) : toInt n = n := by
  unfold IsInt at h
  rw [toInt_def]
  omega

/-- A conversion to a positive `int` has at most taken something away. -/
theorem toInt_le {n : Nat} (h : 0 < toInt n) : toInt n ≤ n := by
  rw [toInt_def] at h ⊢
  omega

theorem toSize_of_nonneg {n : Int} (h : IsInt n) (hn : 0 ≤ n) : (toSize n : Int) = n := by
  unfold IsInt at h
  unfold toSize
  omega

theorem toSize_of_neg {n : Int} (h : IsInt n) (hn : n < 0) : (toSize n : Int) = 2 ^ 64 + n := by
  unfold IsInt at h
  unfold toSize
  omega

end SystemsInC.Verified.MachineInt
