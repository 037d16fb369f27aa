import Mathlib.Data.Int.Order.Basic
import Mathlib.Tactic.Ring

/-!
# C integers on a two's complement machine

A C integer is the mathematical integer it denotes; arithmetic that may leave the range of its
type goes through `wrapInt` (32-bit `int`), `toUInt32` or `toUInt64`.
-/

namespace Kit

/-- The largest `int`. -/
def intMax : ℤ := 2147483647

/-- Conversion to a 32-bit `int`. -/
def wrapInt (z : ℤ) : ℤ := z.bmod 4294967296

/-- Conversion to `uint32_t`. -/
def toUInt32 (z : ℤ) : ℕ := (z % 4294967296).toNat

/-- Conversion to `uint64_t`. -/
def toUInt64 (z : ℤ) : ℕ := (z % 18446744073709551616).toNat

/-- Conversion to a 64-bit signed integer. -/
def wrapInt64 (z : ℤ) : ℤ := z.bmod 18446744073709551616

/-- `z` is a value of type `int`. -/
def IsInt (z : ℤ) : Prop := -2147483648 ≤ z ∧ z ≤ intMax

instance (z : ℤ) : Decidable (IsInt z) := by unfold IsInt; infer_instance

theorem isInt_wrapInt (z : ℤ) : IsInt (wrapInt z) := by
  unfold IsInt wrapInt intMax
  have h₁ := Int.le_bmod (x := z) (m := 4294967296) (by norm_num)
  have h₂ := Int.bmod_lt (x := z) (m := 4294967296) (by norm_num)
  omega

theorem wrapInt_of_isInt {z : ℤ} (h : IsInt z) : wrapInt z = z := by
  unfold IsInt intMax at h
  unfold wrapInt
  apply Int.bmod_eq_of_le <;> omega

/-- Conversion makes nothing larger. -/
theorem wrapInt_le {z : ℤ} (h : 0 ≤ z) : wrapInt z ≤ z := by
  unfold wrapInt Int.bmod
  dsimp only
  split_ifs <;> omega

/-- A sum of two `int`s that is too large comes out negative. -/
theorem wrapInt_of_gt {z : ℤ} (h : intMax < z) (hz : z ≤ 2 * intMax) :
    wrapInt z = z - 4294967296 := by
  unfold intMax at h hz
  unfold wrapInt Int.bmod
  dsimp only
  split_ifs <;> omega

/-- A sum that does not fit comes out smaller. -/
theorem le_intMax_of_le_wrapInt {p n : ℤ} (hp : p ≤ intMax) (hn : n ≤ intMax)
    (h : p ≤ wrapInt (p + n)) : p + n ≤ intMax := by
  by_contra hlt
  rw [wrapInt_of_gt (by omega) (by omega)] at h
  unfold intMax at hn
  omega

theorem wrapInt_zero : wrapInt 0 = 0 := rfl

theorem wrapInt_natCast {n : ℕ} (h : n ≤ 2147483647) : wrapInt n = n :=
  wrapInt_of_isInt ⟨by omega, by unfold intMax; omega⟩

theorem toUInt32_lt (z : ℤ) : toUInt32 z < 2 ^ 32 := by
  unfold toUInt32
  omega

theorem wrapInt64_of_lt {z : ℤ} (h : 0 ≤ z) (hz : z < 2 ^ 63) : wrapInt64 z = z := by
  unfold wrapInt64
  apply Int.bmod_eq_of_le <;> omega

theorem toUInt64_of_lt {z : ℤ} (h : 0 ≤ z) (hz : z < 2 ^ 64) : (toUInt64 z : ℤ) = z := by
  unfold toUInt64
  omega

/-- An `int` survives the trip through `uint32_t`. -/
theorem wrapInt_toUInt32 {z : ℤ} (h : IsInt z) : wrapInt (toUInt32 z) = z := by
  have hz : ((toUInt32 z : ℕ) : ℤ) = z % 4294967296 := by unfold toUInt32; omega
  rw [hz]
  conv_rhs => rw [← wrapInt_of_isInt h]
  unfold wrapInt
  exact Int.emod_bmod z 4294967296

end Kit
