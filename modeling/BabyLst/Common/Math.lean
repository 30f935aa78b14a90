/-
# Fixed-point decimals

`cosmwasm_std::Decimal` is a `Uint128` of atomics, 18 digits after the point;
`contracts/lst_staking_hub/src/math.rs` multiplies and divides coin amounts by
it in 256 bits and reads the result back into 128.  All three operations round
down.
-/

import BabyLst.Common.Errors
import BabyLst.Lib.SharePool

namespace BabyLst

open Lib

/-- `Decimal`: a number of `10⁻¹⁸`. -/
structure Decimal where
  atomics : ℕ
  deriving DecidableEq, Repr

/-- `DECIMAL_FRACTIONAL` (`math.rs`): the atomics of one. -/
def DECIMAL_FRACTIONAL : ℕ := 1000000000000000000

theorem DECIMAL_FRACTIONAL_pos : 0 < DECIMAL_FRACTIONAL := by decide

/-- `Decimal::one()`. -/
def Decimal.one : Decimal := ⟨DECIMAL_FRACTIONAL⟩

/-- `Decimal::zero()`. -/
def Decimal.zero : Decimal := ⟨0⟩

/-- `Decimal::from_ratio`: the atomics of `numerator / denominator`, rounded
down; it panics on a zero denominator and when the atomics do not fit. -/
def Decimal.fromRatio (numerator denominator : ℕ) : Exec Decimal := do
  let atomics ← strictDiv (numerator * DECIMAL_FRACTIONAL) denominator
  let atomics ← narrow128 atomics
  return ⟨atomics⟩

/-- `decimal_division` (`math.rs`). -/
def decimalDivision (numerator : ℕ) (denominator : Decimal) : Exec ℕ := do
  let quotient ← strictDiv (numerator * DECIMAL_FRACTIONAL) denominator.atomics
  narrow128 quotient

/-- `decimal_multiplication` (`math.rs`). -/
def decimalMultiplication (a : ℕ) (b : Decimal) : Exec ℕ :=
  narrow128 (a * b.atomics / DECIMAL_FRACTIONAL)

/-- The value of `decimal_multiplication` where it fits. -/
def Decimal.mulFloor (b : Decimal) (a : ℕ) : ℕ := a * b.atomics / DECIMAL_FRACTIONAL

@[simp] theorem decimalMultiplication_eq_ok {a c : ℕ} {b : Decimal} :
    decimalMultiplication a b = .ok c ↔ b.mulFloor a < 2 ^ 128 ∧ b.mulFloor a = c := by
  simp [decimalMultiplication, Decimal.mulFloor]

@[simp] theorem decimalDivision_eq_ok {a c : ℕ} {b : Decimal} :
    decimalDivision a b = .ok c ↔ b.atomics ≠ 0 ∧
      a * DECIMAL_FRACTIONAL / b.atomics < 2 ^ 128 ∧ a * DECIMAL_FRACTIONAL / b.atomics = c := by
  simp only [decimalDivision, bind_eq_ok, strictDiv_eq_ok, narrow128_eq_ok]
  constructor
  · rintro ⟨_, ⟨hb, rfl⟩, hlt, rfl⟩
    exact ⟨hb, hlt, rfl⟩
  · rintro ⟨hb, hlt, rfl⟩
    exact ⟨_, ⟨hb, rfl⟩, hlt, rfl⟩

@[simp] theorem Decimal.fromRatio_eq_ok {n d : ℕ} {r : Decimal} :
    Decimal.fromRatio n d = .ok r ↔
      d ≠ 0 ∧ n * DECIMAL_FRACTIONAL / d < 2 ^ 128 ∧ r = ⟨n * DECIMAL_FRACTIONAL / d⟩ := by
  simp only [Decimal.fromRatio, bind_eq_ok, strictDiv_eq_ok, narrow128_eq_ok, pure_eq_ok]
  constructor
  · rintro ⟨_, ⟨hd, rfl⟩, _, ⟨hlt, rfl⟩, rfl⟩
    exact ⟨hd, hlt, rfl⟩
  · rintro ⟨hd, hlt, rfl⟩
    exact ⟨_, ⟨hd, rfl⟩, _, ⟨hlt, rfl⟩, rfl⟩

end BabyLst
