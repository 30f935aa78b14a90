/-
# When a due batch can be closed

Closing a batch undelegates its claim, the requested amount at the rate that the
check for slashing finds.  Where the validators can pay the claim and the recorded
stake covers it, one thing is left that `calculate_undelegations` asks for: that
the claim is not zero.  Its loop returns from within, and an amount of zero never
enters it and falls through to `DistributionFailed`
(`calculateUndelegations_succeeds_iff`); `calculate_delegations` spreads an amount of
zero like any other.

So a due batch closes exactly when the check goes through, its claim is at least
one, and the sums fit in their types (`executeProcessUndelegations_succeeds_iff`).
-/

import BabyLst.Common.Balance
import BabyLst.Hub.EpochRecord
import Mathlib.Tactic.MkIffOfInductiveProp

namespace BabyLst

open Lib

/-- **An undelegation of what is there is planned if and only if it is more than
nothing**, and what is there fits. -/
theorem calculateUndelegations_succeeds_iff {vs : List ValidatorResponse} {amt : ℕ} (hne : vs ≠ [])
    (le : amt ≤ (delegationsOf vs).sum) :
    (∃ plan, calculateUndelegations amt vs = .ok plan) ↔
      0 < amt ∧ (delegationsOf vs).sum < 2 ^ 128 := by
  constructor
  · rintro ⟨plan, h⟩
    refine ⟨(calculateUndelegations_sum h).2.2.1, ?_⟩
    simp only [calculateUndelegations, bind_eq_ok, sumU128_eq_ok] at h
    obtain ⟨_, -, _, ⟨rfl, fits⟩, -⟩ := h
    exact fits
  · rintro ⟨pos, fits⟩
    exact ⟨_, calculateUndelegations_fill hne fits pos le⟩

namespace Hub

/-- What closing the batch at a rate undelegates. -/
def CurrentBatch.claim (batch : CurrentBatch) (rate : Decimal) : ℕ :=
  rate.mulFloor batch.requestedLstTokenAmount

/-- **An update by an unstaking amount succeeds if and only if** the pending
amounts of the epoch fit with it. -/
theorem updatePendingDelegationAmount_succeeds_iff {st : Storage} {env : Env} {amount : ℕ}
    (sound : st.pendingDelegation.Sound env.block.height) (height : env.block.height < 2 ^ 64)
    (amount_lt : amount < 2 ^ 128) :
    (∃ st', updatePendingDelegationAmount st env none (some amount) = .ok st') ↔
      (st.pendingDelegation.current env.block.height).1 < 2 ^ 128 ∧
        (st.pendingDelegation.current env.block.height).2 + amount < 2 ^ 128 := by
  constructor
  · rintro ⟨st', h⟩
    simp only [updatePendingDelegationAmount, bind_eq_ok, strictSub_eq_ok] at h
    obtain ⟨_, ⟨-, rfl⟩, h⟩ := h
    unfold PendingDelegation.current
    split_ifs at h ⊢ with hin
    · simp only [bind_eq_ok, strictAdd_eq_ok, Option.getD_none, Option.getD_some,
        Nat.add_zero] at h
      obtain ⟨_, ⟨hstaking, -⟩, _, ⟨hunstaking, -⟩, -⟩ := h
      exact ⟨hstaking, hunstaking⟩
    · exact ⟨Nat.two_pow_pos _, by omega⟩
  · rintro ⟨hstaking, hunstaking⟩
    exact updatePendingDelegationAmount_fits env sound.start_le sound.length_pos height
      hstaking hunstaking

/-- **What closing the batch needs**, once the validators can pay it and the
recorded stake covers it. -/
@[mk_iff] structure Closable (p : PendingDelegation) (height : ℕ) (batch : CurrentBatch)
    (rate : Decimal) (vs : List ValidatorResponse) : Prop where
  /-- The batch is worth something. -/
  worth : 0 < batch.claim rate
  listed_lt : (delegationsOf vs).sum < 2 ^ 128
  staking_lt : (p.current height).1 < 2 ^ 128
  unstaking_lt : (p.current height).2 + batch.claim rate < 2 ^ 128
  id_lt : batch.id + 1 < 2 ^ 64

instance (p : PendingDelegation) (height : ℕ) (batch : CurrentBatch) (rate : Decimal)
    (vs : List ValidatorResponse) : Decidable (Closable p height batch rate vs) :=
  decidable_of_iff' _ (closable_iff p height batch rate vs)

/-- **A batch that can be paid is closed if and only if** it is worth something
and the sums fit. -/
theorem processUndelegationsForBatch_succeeds_iff {q : Querier} {st : Storage} {env : Env}
    {batch : CurrentBatch} {state : State} {registry : Addr} {vs : List ValidatorResponse}
    (registry_eq : st.config.validatorsRegistryContract = some registry)
    (answer : q.validatorsDelegation registry = .ok vs) (hne : vs ≠ [])
    (le : batch.claim state.lstExchangeRate ≤ (delegationsOf vs).sum)
    (enough : batch.claim state.lstExchangeRate ≤ state.totalStakedAmount)
    (sound : st.pendingDelegation.Sound env.block.height) (height : env.block.height < 2 ^ 64) :
    (∃ r, processUndelegationsForBatch q st env batch state = .ok r) ↔
      Closable st.pendingDelegation env.block.height batch state.lstExchangeRate vs := by
  have hupdate := fun fits : (delegationsOf vs).sum < 2 ^ 128 =>
    updatePendingDelegationAmount_succeeds_iff sound height (le.trans_lt fits)
  have hplan := calculateUndelegations_succeeds_iff hne le
  constructor
  · rintro ⟨r, h⟩
    simp only [processUndelegationsForBatch, pickValidatorForUndelegation, bind_eq_ok,
      decimalMultiplication_eq_ok, okOr_eq_ok, checkedSub_eq_ok, strictAdd_eq_ok] at h
    obtain ⟨_, ⟨-, rfl⟩, _, ⟨reg, hreg, vs', hvs, plan, hok, -⟩, _, -, st₁, hst₁, _, ⟨hid, -⟩,
      -⟩ := h
    obtain rfl := Option.some.inj (registry_eq.symm.trans hreg)
    obtain rfl := Except.ok.inj (answer.symm.trans hvs)
    obtain ⟨hworth, hfits⟩ := hplan.1 ⟨plan, hok⟩
    obtain ⟨hstaking, hunstaking⟩ := (hupdate hfits).1 ⟨st₁, hst₁⟩
    exact ⟨hworth, hfits, hstaking, hunstaking, hid⟩
  · rintro ⟨hworth, hfits, hstaking, hunstaking, hid⟩
    have hlt : batch.claim state.lstExchangeRate < 2 ^ 128 := le.trans_lt hfits
    obtain ⟨plan, hok⟩ := hplan.2 ⟨hworth, hfits⟩
    obtain ⟨st₁, hst₁⟩ := (hupdate hfits).2 ⟨hstaking, hunstaking⟩
    have hclaim : decimalMultiplication batch.requestedLstTokenAmount state.lstExchangeRate =
      .ok (batch.claim state.lstExchangeRate) := decimalMultiplication_eq_ok.2 ⟨hlt, rfl⟩
    have hmessages : pickValidatorForUndelegation q st env (batch.claim state.lstExchangeRate) =
        .ok (undelegateMsgs st.parameters.stakingCoinDenom env.contract vs plan) := by
      unfold pickValidatorForUndelegation
      rw [bind_ok (okOr_eq_ok.2 registry_eq), bind_ok answer, bind_ok hok]
      rfl
    have hstaked : checkedSub state.totalStakedAmount (batch.claim state.lstExchangeRate) =
      .ok _ := checkedSub_eq_ok.2 ⟨enough, rfl⟩
    have hnext : strictAdd 64 batch.id 1 = .ok _ := strictAdd_eq_ok.2 ⟨hid, rfl⟩
    unfold processUndelegationsForBatch
    rw [bind_ok hclaim, bind_ok hmessages, bind_ok hstaked, bind_ok hst₁, bind_ok hnext]
    exact ⟨_, rfl⟩

/-- The check for slashing keeps all but the state. -/
theorem checkSlashing_of_ok {q : Querier} {st : Storage} {env : Env} {state : State}
    (h : queryActualState q st env st.state = .ok state) :
    checkSlashing q st env st.state = .ok ({ st with state := state },
      [.lstExchangeRateUpdated st.state.lstExchangeRate state.lstExchangeRate,
       .totalStakedAmountUpdated st.state.totalStakedAmount state.totalStakedAmount], state) := by
  unfold checkSlashing
  rw [bind_ok h]
  rfl

/-- **A due batch is closed if and only if** the check for slashing goes through,
the batch is worth something at the rate it finds, and the sums fit. -/
theorem executeProcessUndelegations_succeeds_iff {q : Querier} {st : Storage} {env : Env}
    {registry : Addr} {vs : List ValidatorResponse}
    (requested : st.currentBatch.requestedLstTokenAmount ≠ 0)
    (due : st.parameters.epochLength < env.block.time - st.state.lastUnbondedTime)
    (registry_eq : st.config.validatorsRegistryContract = some registry)
    (answer : q.validatorsDelegation registry = .ok vs) (hne : vs ≠ [])
    (le : ∀ state, queryActualState q st env st.state = .ok state →
      st.currentBatch.claim state.lstExchangeRate ≤ (delegationsOf vs).sum)
    (enough : ∀ state, queryActualState q st env st.state = .ok state →
      st.currentBatch.claim state.lstExchangeRate ≤ state.totalStakedAmount)
    (sound : st.pendingDelegation.Sound env.block.height) (height : env.block.height < 2 ^ 64) :
    (∃ r, executeProcessUndelegations q st env = .ok r) ↔
      ∃ state, queryActualState q st env st.state = .ok state ∧
        Closable st.pendingDelegation env.block.height st.currentBatch
          state.lstExchangeRate vs := by
  -- once the check has found a state, the batch is looked at and is due
  have hclose : ∀ state, queryActualState q st env st.state = .ok state →
      closeIfDue q { st with state := state } env st.currentBatch state =
        processUndelegationsForBatch q { st with state := state } env st.currentBatch state := by
    intro state hstate
    have hlast := (queryActualState_ok hstate).frame.2.2.1
    have hpassed : strictSub env.block.time state.lastUnbondedTime =
        .ok (env.block.time - st.state.lastUnbondedTime) :=
      strictSub_eq_ok.2 ⟨by omega, by rw [hlast]⟩
    unfold closeIfDue
    rw [bind_ok hpassed, if_pos due]
  have hiff : ∀ state, queryActualState q st env st.state = .ok state →
      ((∃ r, processUndelegationsForBatch q { st with state := state } env st.currentBatch state =
        .ok r) ↔
        Closable st.pendingDelegation env.block.height st.currentBatch
          state.lstExchangeRate vs) :=
    fun state hstate => processUndelegationsForBatch_succeeds_iff registry_eq answer hne
      (le state hstate) (enough state hstate) sound height
  unfold executeProcessUndelegations
  rw [if_neg requested]
  constructor
  · rintro ⟨r, h⟩
    simp only [checkForUnstakeBatchEpochCompletion, checkSlashing, updateState, bind_eq_ok,
      Prod.exists, pure_eq_ok, Prod.mk.injEq] at h
    obtain ⟨_, _, _, _, ⟨_, _, _, ⟨state, hstate, rfl, rfl, rfl⟩, st₂, b₂, s₂, ms, hclosed, -⟩,
      -⟩ := h
    rw [hclose state hstate] at hclosed
    exact ⟨state, hstate, (hiff state hstate).1 ⟨_, hclosed⟩⟩
  · rintro ⟨state, hstate, hclosable⟩
    obtain ⟨⟨st₂, b₂, s₂, ms⟩, hclosed⟩ := (hiff state hstate).2 hclosable
    unfold checkForUnstakeBatchEpochCompletion
    rw [bind_ok (checkSlashing_of_ok hstate)]
    dsimp only
    rw [bind_ok ((hclose state hstate).trans hclosed)]
    exact ⟨_, rfl⟩

end Hub
end BabyLst
