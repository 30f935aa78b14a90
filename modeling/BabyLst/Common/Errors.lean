/-
# Errors, panics and checked integers

`packages/lst_common/src/errors.rs`, and the integer arithmetic of a contract
built with `overflow-checks = true` (`Cargo.toml`, `[profile.release]`).

A contract call ends in one of three ways: a value, a `ContractError`, or a
panic.  Both failures undo the whole transaction, but several entry points are
about which of the two happens, so `Fault` keeps them apart.  A third kind of
fault is a refusal by code that is not in this repository (`cw20-base`, the
staking module, an address nobody answers at).

Integers are natural numbers; the operators the contracts use on `u64`, `u128`
and `Uint128` check the width where Rust does.
-/

import BabyLst.Lib.Except
import Mathlib.Algebra.Order.Ring.Nat
import Mathlib.Algebra.Order.Group.Nat
import Mathlib.Algebra.BigOperators.Group.List.Lemmas
import Mathlib.Tactic.Common

namespace BabyLst

/-- `ValidatorError`. -/
inductive ValidatorError
  | lastValidatorRemovalNotAllowed
  | emptyValidatorSet
  | distributionFailed
  | exceedUndelegation
  | redelegationCooldownNotMet
  | validatorNotFound
  | invalidKey
  | pendingRedelegationNotFound
  deriving DecidableEq, Repr

/-- `HubError`. -/
inductive HubError
  | invalidHookMsg
  | paused
  | invalidAmount
  | rewardDispatcherNotSet
  | validatorRegistryNotSet
  | lstTokenNotSet
  | onlyOneCoinAllowed
  | unstakeHistoryNotFound
  | noWithdrawableAssets
  | invalidEpochLength
  | invalidUnstakingPeriod
  | invalidPeriods
  | insufficientFunds
  | insufficientAllowance
  | lstTokenAlreadySet
  deriving DecidableEq, Repr

/-- `ContractError`, with the variants the modelled functions return.  `std` is a
`StdError`, by the name of its kind; the text carried by `Overflow` is the
`OverflowError` of the subtraction or addition that failed. -/
inductive ContractError
  | std (kind : String)
  | unauthorized
  | invalidAddress
  | overflow (operation : String)
  | hubPaused
  | validator (e : ValidatorError)
  | hub (e : HubError)
  | invalidFeeRate
  deriving DecidableEq, Repr

/-- Why a contract panicked: an integer operator out of range, a division by
zero, a conversion to a narrower integer, an `unwrap` or `expect` of an error. -/
inductive Panic
  | addOverflow
  | subOverflow
  | mulOverflow
  | divideByZero
  | conversion
  | unwrap
  deriving DecidableEq, Repr

/-- A failed call: an error of the contract, a panic, a refusal by code outside
the repository, or a loop that did not end within its bound. -/
inductive Fault
  | err (e : ContractError)
  | panic (p : Panic)
  | external (what : String)
  | diverges
  deriving DecidableEq, Repr

/-- What a call computes. -/
abbrev Exec := Except Fault

/-- An error of the hub. -/
def HubError.fault (e : HubError) : Fault := .err (.hub e)

/-- An error about the validators. -/
def ValidatorError.fault (e : ValidatorError) : Fault := .err (.validator e)

open Lib

/-- `a + b` on integers of `width` bits, panicking on overflow. -/
def strictAdd (width a b : ℕ) : Exec ℕ :=
  if a + b < 2 ^ width then .ok (a + b) else .error (.panic .addOverflow)

/-- `a - b`, panicking below zero. -/
def strictSub (a b : ℕ) : Exec ℕ :=
  if b ≤ a then .ok (a - b) else .error (.panic .subOverflow)

/-- `a * b` on integers of `width` bits, panicking on overflow. -/
def strictMul (width a b : ℕ) : Exec ℕ :=
  if a * b < 2 ^ width then .ok (a * b) else .error (.panic .mulOverflow)

/-- `a / b`, panicking on a zero divisor. -/
def strictDiv (a b : ℕ) : Exec ℕ :=
  if b = 0 then .error (.panic .divideByZero) else .ok (a / b)

/-- `checked_sub` with its error mapped to `ContractError::Overflow`. -/
def checkedSub (a b : ℕ) : Exec ℕ :=
  if b ≤ a then .ok (a - b) else .error (.err (.overflow "Cannot Sub with given operands"))

/-- `checked_add` of two `Uint128` with its error mapped to
`ContractError::Overflow`. -/
def checkedAdd (a b : ℕ) : Exec ℕ :=
  if a + b < 2 ^ 128 then .ok (a + b)
  else .error (.err (.overflow "Cannot Add with given operands"))

/-- A `Uint256` read back as a `Uint128`: `try_into().unwrap()`. -/
def narrow128 (a : ℕ) : Exec ℕ :=
  if a < 2 ^ 128 then .ok a else .error (.panic .conversion)

/-- `unwrap` of a result: every failure becomes a panic. -/
def unwrap {α : Type} (x : Exec α) : Exec α :=
  match x with
  | .ok a => .ok a
  | .error _ => .error (.panic .unwrap)

/-- `iter().sum()` over `u128`: each partial sum is checked. -/
def sumU128 (l : List ℕ) : Exec ℕ := l.foldlM (strictAdd 128) 0

variable {a b c width : ℕ}

@[simp] theorem strictAdd_eq_ok : strictAdd width a b = .ok c ↔ a + b < 2 ^ width ∧ a + b = c := by
  unfold strictAdd; split_ifs <;> simp_all

@[simp] theorem strictSub_eq_ok : strictSub a b = .ok c ↔ b ≤ a ∧ a - b = c := by
  unfold strictSub; split_ifs <;> simp_all

@[simp] theorem strictMul_eq_ok : strictMul width a b = .ok c ↔ a * b < 2 ^ width ∧ a * b = c := by
  unfold strictMul; split_ifs <;> simp_all

@[simp] theorem strictDiv_eq_ok : strictDiv a b = .ok c ↔ b ≠ 0 ∧ a / b = c := by
  unfold strictDiv; split_ifs <;> simp_all

@[simp] theorem checkedSub_eq_ok : checkedSub a b = .ok c ↔ b ≤ a ∧ a - b = c := by
  unfold checkedSub; split_ifs <;> simp_all

@[simp] theorem checkedAdd_eq_ok : checkedAdd a b = .ok c ↔ a + b < 2 ^ 128 ∧ a + b = c := by
  unfold checkedAdd; split_ifs <;> simp_all

@[simp] theorem narrow128_eq_ok : narrow128 a = .ok c ↔ a < 2 ^ 128 ∧ a = c := by
  unfold narrow128; split_ifs <;> simp_all

@[simp] theorem unwrap_eq_ok {α : Type} {x : Exec α} {y : α} : unwrap x = .ok y ↔ x = .ok y := by
  cases x <;> simp [unwrap]

/-- Checking every partial sum is checking the sum. -/
@[simp] theorem sumU128_eq_ok {l : List ℕ} {s : ℕ} :
    sumU128 l = .ok s ↔ l.sum = s ∧ s < 2 ^ 128 := by
  have hloop : l.foldlM (strictAdd 128) 0 = .ok s ↔
      0 + (l.map id).sum < 2 ^ 128 ∧ l.foldl (· + ·) 0 = s :=
    foldlM_eq_ok_of_bounded (v := id) (w := id) (fun _ _ _ _ => strictAdd_eq_ok)
      (fun _ _ => rfl) l (Nat.two_pow_pos 128)
  rw [sumU128, hloop, List.map_id, Nat.zero_add, ← List.sum_eq_foldl]
  constructor
  · rintro ⟨hlt, rfl⟩
    exact ⟨rfl, hlt⟩
  · rintro ⟨rfl, hlt⟩
    exact ⟨hlt, rfl⟩

/-! ### Failures of an operation -/

/-- The failure of a checked addition or subtraction. -/
def Fault.IsOverflow (f : Fault) : Prop := ∃ operation, f = .err (.overflow operation)

@[simp] theorem Fault.not_isOverflow_panic (p : Panic) : ¬(Fault.panic p).IsOverflow := by
  simp [Fault.IsOverflow]

@[simp] theorem Fault.not_isOverflow_external (what : String) :
    ¬(Fault.external what).IsOverflow := by
  simp [Fault.IsOverflow]

@[simp] theorem Fault.not_isOverflow_hub (e : HubError) : ¬e.fault.IsOverflow := by
  simp [HubError.fault, Fault.IsOverflow]

variable {bad : Fault → Prop}

theorem avoids_strictSub (h : ¬bad (.panic .subOverflow)) : Avoids bad (strictSub a b) := by
  unfold strictSub
  split_ifs
  · exact avoids_ok _
  · exact avoids_error h

theorem avoids_strictAdd (h : ¬bad (.panic .addOverflow)) : Avoids bad (strictAdd width a b) := by
  unfold strictAdd
  split_ifs
  · exact avoids_ok _
  · exact avoids_error h

theorem avoids_strictDiv (h : ¬bad (.panic .divideByZero)) : Avoids bad (strictDiv a b) := by
  unfold strictDiv
  split_ifs
  · exact avoids_error h
  · exact avoids_ok _

theorem avoids_narrow128 (h : ¬bad (.panic .conversion)) : Avoids bad (narrow128 a) := by
  unfold narrow128
  split_ifs
  · exact avoids_ok _
  · exact avoids_error h

/-- A subtraction that stays above zero does not fail. -/
theorem avoids_strictSub_of_le (h : b ≤ a) : Avoids bad (strictSub a b) := by
  rw [strictSub, if_pos h]
  exact avoids_ok _

theorem avoids_checkedSub_of_le (h : b ≤ a) : Avoids bad (checkedSub a b) := by
  rw [checkedSub, if_pos h]
  exact avoids_ok _

theorem avoids_sumU128 (h : ¬bad (.panic .addOverflow)) (l : List ℕ) : Avoids bad (sumU128 l) := by
  unfold sumU128
  generalize 0 = init
  induction l generalizing init with
  | nil => exact avoids_ok _
  | cons n l ih =>
    rw [List.foldlM_cons]
    exact (avoids_strictAdd h).bind fun m _ => ih m

end BabyLst
