/-
# Multiplying decimals and rounding up

The two `cosmwasm_std::Decimal` operations that the reward dispatcher adds to
those of `Common.Math`: the product of two decimals, which is formed in 256 bits
and read back into 128, and `to_uint_ceil`.  The first rounds down, the second
up; what they compute is compared with the rational they stand for, which is the
only place where the development leaves the integers.
-/

import BabyLst.Common.Math
import Mathlib.Data.Rat.Floor
import Mathlib.Tactic.FieldSimp
import Mathlib.Tactic.Linarith

namespace BabyLst

open Lib

/-- `Decimal * Decimal`: rounded down to 18 digits; it panics when the atomics do
not fit. -/
def Decimal.mul (a b : Decimal) : Exec Decimal :=
  if a.atomics * b.atomics / DECIMAL_FRACTIONAL < 2 ^ 128 then
    .ok ⟨a.atomics * b.atomics / DECIMAL_FRACTIONAL⟩
  else .error (.panic .mulOverflow)

/-- `Decimal::to_uint_ceil`. -/
def Decimal.toUintCeil (d : Decimal) : ℕ :=
  if d.atomics = 0 then 0 else 1 + (d.atomics - 1) / DECIMAL_FRACTIONAL

/-- The rational a decimal stands for. -/
def Decimal.value (d : Decimal) : ℚ := d.atomics / DECIMAL_FRACTIONAL

@[simp] theorem Decimal.mul_eq_ok {a b c : Decimal} :
    a.mul b = .ok c ↔ a.atomics * b.atomics / DECIMAL_FRACTIONAL < 2 ^ 128 ∧
      c = ⟨a.atomics * b.atomics / DECIMAL_FRACTIONAL⟩ := by
  unfold Decimal.mul
  split_ifs with hlt
  · rw [Except.ok.injEq, eq_comm]
    exact ⟨fun hc => ⟨hlt, hc⟩, And.right⟩
  · exact ⟨fun h => (by cases h), fun h => absurd h.1 hlt⟩

/-- `to_uint_ceil` is the least amount whose atomics reach the decimal's. -/
theorem Decimal.toUintCeil_le_iff {d : Decimal} {n : ℕ} :
    d.toUintCeil ≤ n ↔ d.atomics ≤ n * DECIMAL_FRACTIONAL := by
  unfold Decimal.toUintCeil
  split_ifs with hzero
  · simp [hzero]
  · rw [Nat.add_comm, Nat.add_one_le_iff, Nat.div_lt_iff_lt_mul DECIMAL_FRACTIONAL_pos]
    omega

/-- **`to_uint_ceil` is the ceiling** of the rational the decimal stands for. -/
theorem Decimal.toUintCeil_eq (d : Decimal) : d.toUintCeil = ⌈d.value⌉₊ := by
  have hpos : (0 : ℚ) < DECIMAL_FRACTIONAL := by exact_mod_cast DECIMAL_FRACTIONAL_pos
  refine le_antisymm ?_ ?_
  · have hle : d.value ≤ (⌈d.value⌉₊ : ℚ) := Nat.le_ceil _
    rw [Decimal.value, div_le_iff₀ hpos] at hle
    exact Decimal.toUintCeil_le_iff.2 (by exact_mod_cast hle)
  · refine Nat.ceil_le.2 ?_
    rw [Decimal.value, div_le_iff₀ hpos]
    exact_mod_cast Decimal.toUintCeil_le_iff.1 le_rfl

/-- The product of a whole amount and a decimal needs no rounding. -/
theorem Decimal.mul_whole {a : ℕ} {r : Decimal} :
    a * DECIMAL_FRACTIONAL * r.atomics / DECIMAL_FRACTIONAL = a * r.atomics := by
  rw [Nat.mul_right_comm, Nat.mul_div_cancel _ DECIMAL_FRACTIONAL_pos]

/-- The atomics of an amount times a decimal stand for their exact product. -/
theorem Decimal.value_mul (a : ℕ) (r : Decimal) :
    (Decimal.mk (a * r.atomics)).value = a * r.value := by
  rw [Decimal.value, Decimal.value, Nat.cast_mul, mul_div_assoc]

end BabyLst
