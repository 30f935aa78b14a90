/-
# Splitting an amount over the validators

`packages/lst_common/src/delegation.rs`.  Both routines aim at the same
delegation for everybody, the first validators of the list taking the
remainder; a delegation fills the validators below their target in the order of
the list until the amount is used up, an undelegation draws from the validators
above theirs.

Whatever the list, a plan that is returned spends the amount exactly
(`calculateDelegations_sum`, `calculateUndelegations_sum`), names one amount per
validator, and an undelegation takes from nobody more than is there
(`calculateUndelegations_le`).
-/

import BabyLst.Common.Types

namespace BabyLst

open Lib

/-- `distribute_coins`: the quotient and the remainder per validator. -/
def distributeCoins (coinsToDistribute validators : ℕ) : ℕ × ℕ :=
  (coinsToDistribute / validators, coinsToDistribute % validators)

/-- `target_coins_per_validator`. -/
def targetCoinsPerValidator (coinsPerVal remainingCoins : ℕ)
    (validators : List ValidatorResponse) : List ℕ :=
  validators.zipIdx.map fun entry =>
    coinsPerVal + if entry.2 + 1 ≤ remainingCoins then 1 else 0

/-- The loop of `calculate_delegations` over the validators and their targets:
the amounts from here to the end of the list. -/
def delegateLoop : ℕ → List (ValidatorResponse × ℕ) → Exec (List ℕ)
  | _, [] => .error ValidatorError.distributionFailed.fault
  | amt, (validator, target) :: rest =>
    if target < validator.totalDelegated then do
      let delegations ← delegateLoop amt rest
      return 0 :: delegations
    else do
      let toDelegate := min (target - validator.totalDelegated) amt
      let amt ← checkedSub amt toDelegate
      if amt = 0 then return toDelegate :: rest.map fun _ => 0
      else do
        let delegations ← delegateLoop amt rest
        return toDelegate :: delegations

/-- `calculate_delegations`. -/
def calculateDelegations (amtToDelegate : ℕ) (validators : List ValidatorResponse) :
    Exec (List ℕ) := do
  require (validators ≠ []) ValidatorError.emptyValidatorSet.fault
  let totalDelegated ← sumU128 (validators.map (·.totalDelegated))
  let totalCoins ← strictAdd 128 totalDelegated amtToDelegate
  let (coinsPerVal, remainingCoins) := distributeCoins totalCoins validators.length
  delegateLoop amtToDelegate
    (validators.zip (targetCoinsPerValidator coinsPerVal remainingCoins validators))

/-- A validator and what has been taken from it so far. -/
structure Drawn where
  totalDelegated : ℕ
  undelegated : ℕ
  deriving DecidableEq, Repr

/-- The inner loop of `calculate_undelegations`: the amount and the total left,
and the validators, after one pass over the targets.  The pass ends early when
the amount is used up. -/
def undelegatePass : ℕ → ℕ → List (Drawn × ℕ) → Exec (ℕ × ℕ × List Drawn)
  | amt, total, [] => return (amt, total, [])
  | amt, total, (validator, target) :: rest => do
    let above ← checkedSub validator.totalDelegated (min target validator.totalDelegated)
    let toUndelegate := min above amt
    let undelegated ← checkedAdd validator.undelegated toUndelegate
    let amt ← checkedSub amt toUndelegate
    let total ← checkedSub total toUndelegate
    let totalDelegated ← checkedSub validator.totalDelegated toUndelegate
    let drawn : Drawn := ⟨totalDelegated, undelegated⟩
    if amt = 0 then return (amt, total, drawn :: rest.map (·.1))
    else do
      let (amt, total, others) ← undelegatePass amt total rest
      return (amt, total, drawn :: others)

/-- The `while` loop of `calculate_undelegations`, for at most the given number
of passes.  A pass that uses up the amount returns from within. -/
def undelegateWhile : ℕ → ℕ → ℕ → List ValidatorResponse → List Drawn → Exec (List ℕ)
  | 0, _, _, _, _ => .error .diverges
  | passes + 1, amt, total, validators, drawn => do
    let totalAfter ← checkedSub total amt
    let (coinsPerVal, remainingCoins) := distributeCoins totalAfter drawn.length
    let targets := targetCoinsPerValidator coinsPerVal remainingCoins validators
    let (amt, total, drawn) ← undelegatePass amt total (drawn.zip targets)
    if amt = 0 then return drawn.map (·.undelegated)
    else undelegateWhile passes amt total validators drawn

/-- `calculate_undelegations`.  The loop takes at least one coin per pass that
does not run forever, so the amount bounds the passes. -/
def calculateUndelegations (amtToUndelegate : ℕ) (validators : List ValidatorResponse) :
    Exec (List ℕ) := do
  require (validators ≠ []) ValidatorError.emptyValidatorSet.fault
  let totalDelegated ← sumU128 (validators.map (·.totalDelegated))
  require (amtToUndelegate ≤ totalDelegated) ValidatorError.exceedUndelegation.fault
  let drawn := validators.map fun v => Drawn.mk v.totalDelegated 0
  if amtToUndelegate = 0 then .error ValidatorError.distributionFailed.fault
  else undelegateWhile amtToUndelegate amtToUndelegate totalDelegated validators drawn

/-! ### What a returned plan is -/

@[simp] theorem length_targetCoinsPerValidator (c r : ℕ) (vs : List ValidatorResponse) :
    (targetCoinsPerValidator c r vs).length = vs.length := by
  simp [targetCoinsPerValidator]

/-- **A delegation plan spends the amount**, one entry per validator. -/
theorem delegateLoop_sum {l : List (ValidatorResponse × ℕ)} :
    ∀ {amt : ℕ} {ds : List ℕ}, delegateLoop amt l = .ok ds →
      ds.sum = amt ∧ ds.length = l.length := by
  induction l with
  | nil =>
    intro amt ds h
    simp [delegateLoop] at h
  | cons entry rest ih =>
    obtain ⟨v, target⟩ := entry
    intro amt ds h
    unfold delegateLoop at h
    split_ifs at h with hlt
    · simp only [bind_eq_ok, pure_eq_ok] at h
      obtain ⟨ds', h', rfl⟩ := h
      obtain ⟨hsum, hlen⟩ := ih h'
      simp [hsum, hlen]
    · simp only [bind_eq_ok, checkedSub_eq_ok] at h
      obtain ⟨amt', ⟨hle, rfl⟩, h⟩ := h
      split_ifs at h with hz
      · rw [pure_eq_ok] at h
        subst h
        have hall : min (target - v.totalDelegated) amt = amt := by omega
        simp [hall]
      · simp only [bind_eq_ok, pure_eq_ok] at h
        obtain ⟨ds', h', rfl⟩ := h
        obtain ⟨hsum, hlen⟩ := ih h'
        simp only [List.sum_cons, List.length_cons, hsum, hlen, and_true]
        omega

/-- **`calculate_delegations` distributes the whole amount.** -/
theorem calculateDelegations_sum {amt : ℕ} {vs : List ValidatorResponse} {ds : List ℕ}
    (h : calculateDelegations amt vs = .ok ds) : ds.sum = amt ∧ ds.length = vs.length := by
  simp only [calculateDelegations, bind_eq_ok, require_eq_ok, sumU128_eq_ok, strictAdd_eq_ok] at h
  obtain ⟨_, -, total, -, _, -, h⟩ := h
  obtain ⟨hsum, hlen⟩ := delegateLoop_sum h
  refine ⟨hsum, hlen.trans ?_⟩
  rw [List.length_zip, length_targetCoinsPerValidator, Nat.min_self]

/-- **One pass moves coins from the delegations to the plan**: what it leaves of
the amount and what it took add up, validator by validator nothing is lost, and
no validator is touched but to draw from it. -/
theorem undelegatePass_spec {l : List (Drawn × ℕ)} :
    ∀ {amt total amt' total' : ℕ} {ds : List Drawn},
      undelegatePass amt total l = .ok (amt', total', ds) →
      ds.length = l.length ∧
      (ds.map (·.undelegated)).sum + amt' = (l.map (·.1.undelegated)).sum + amt ∧
      ds.map (fun d => d.totalDelegated + d.undelegated) =
        l.map (fun e => e.1.totalDelegated + e.1.undelegated) := by
  induction l with
  | nil =>
    intro amt total amt' total' ds h
    simp only [undelegatePass, pure_eq_ok, Prod.mk.injEq] at h
    obtain ⟨rfl, rfl, rfl⟩ := h
    simp
  | cons entry rest ih =>
    obtain ⟨v, target⟩ := entry
    intro amt total amt' total' ds h
    simp only [undelegatePass, bind_eq_ok, checkedSub_eq_ok, checkedAdd_eq_ok] at h
    obtain ⟨_, ⟨-, rfl⟩, _, ⟨-, rfl⟩, _, ⟨hamt, rfl⟩, _, ⟨-, rfl⟩, _, ⟨hv, rfl⟩, h⟩ := h
    split_ifs at h with hz
    · simp only [pure_eq_ok, Prod.mk.injEq] at h
      obtain ⟨rfl, rfl, rfl⟩ := h
      simp only [List.map_cons, List.length_cons, List.length_map, List.sum_cons, List.map_map,
        Function.comp_def, List.cons.injEq, and_true, true_and]
      omega
    · simp only [bind_eq_ok, pure_eq_ok, Prod.exists, Prod.mk.injEq] at h
      obtain ⟨a, t, others, h', rfl, rfl, rfl⟩ := h
      obtain ⟨hlen, hsum, hmap⟩ := ih h'
      simp only [List.map_cons, List.length_cons, List.sum_cons, List.cons.injEq, hlen, hmap,
        and_true, true_and]
      omega

/-- The loop hands on what its passes keep. -/
theorem undelegateWhile_spec (passes : ℕ) :
    ∀ {amt total : ℕ} {vs : List ValidatorResponse} {drawn : List Drawn} {us : List ℕ},
      drawn.length = vs.length → undelegateWhile passes amt total vs drawn = .ok us →
      us.length = vs.length ∧ us.sum = (drawn.map (·.undelegated)).sum + amt ∧
      List.Forall₂ (· ≤ ·) us (drawn.map fun d => d.totalDelegated + d.undelegated) := by
  induction passes with
  | zero =>
    intro amt total vs drawn us hlen h
    simp [undelegateWhile] at h
  | succ passes ih =>
    intro amt total vs drawn us hlen h
    simp only [undelegateWhile, bind_eq_ok, checkedSub_eq_ok, Prod.exists] at h
    obtain ⟨after, -, amt', total', drawn', hpass, h⟩ := h
    obtain ⟨hlen', hsum, hmap⟩ := undelegatePass_spec hpass
    have hzip : ∀ f : Drawn → ℕ, (drawn.zip (targetCoinsPerValidator
        (distributeCoins after drawn.length).1 (distributeCoins after drawn.length).2 vs)).map
          (fun e => f e.1) = drawn.map f := by
      intro f
      rw [← Function.comp_def f Prod.fst, ← List.map_map, List.map_fst_zip]
      simp [hlen]
    rw [hzip fun d => d.totalDelegated + d.undelegated] at hmap
    rw [hzip fun d => d.undelegated] at hsum
    have hdrawn : drawn'.length = vs.length := by
      rw [hlen', List.length_zip, length_targetCoinsPerValidator, hlen, Nat.min_self]
    split_ifs at h with hz
    · rw [pure_eq_ok] at h
      subst h
      refine ⟨by simp [hdrawn], by omega, ?_⟩
      rw [← hmap, List.forall₂_map_left_iff, List.forall₂_map_right_iff]
      exact List.forall₂_same.2 fun d _ => by omega
    · obtain ⟨hus, hsum', hle⟩ := ih hdrawn h
      exact ⟨hus, by omega, hmap ▸ hle⟩

/-- **`calculate_undelegations` takes the amount exactly**, one entry per
validator, and from no validator more than its delegation. -/
theorem calculateUndelegations_sum {amt : ℕ} {vs : List ValidatorResponse} {us : List ℕ}
    (h : calculateUndelegations amt vs = .ok us) :
    us.sum = amt ∧ us.length = vs.length ∧ 0 < amt ∧
      amt ≤ (vs.map (·.totalDelegated)).sum ∧
      List.Forall₂ (· ≤ ·) us (vs.map (·.totalDelegated)) := by
  simp only [calculateUndelegations, bind_eq_ok, require_eq_ok, sumU128_eq_ok] at h
  obtain ⟨_, -, _, ⟨rfl, -⟩, _, hle, h⟩ := h
  split_ifs at h with hz
  obtain ⟨hlen, hsum, hall⟩ := undelegateWhile_spec amt (by simp) h
  simp only [List.map_map, Function.comp_def, Nat.add_zero] at hsum hall
  refine ⟨?_, hlen, Nat.pos_of_ne_zero hz, hle, hall⟩
  rw [hsum]
  simp

/-- The amounts of a plan that are sent are the plan. -/
theorem sum_zip_filter {V : Type*} (vs : List V) (plan : List ℕ) (h : plan.length = vs.length) :
    (((vs.zip plan).filter fun e => e.2 ≠ 0).map Prod.snd).sum = plan.sum := by
  induction plan generalizing vs with
  | nil => cases vs <;> simp
  | cons n plan ih =>
    cases vs with
    | nil => simp at h
    | cons v vs =>
      rw [List.length_cons, List.length_cons, Nat.add_right_cancel_iff] at h
      have ih := ih vs h
      by_cases hn : n = 0
      · simpa [hn] using ih
      · simpa [hn] using ih

end BabyLst
