/-
# When the check for slashing goes through

`query_actual_state` subtracts the pending stake from the recorded one and, where
the chain reports less than it should, the pending unstake from what it reports.
Neither subtraction is checked, and the sums between them panic where they do not
fit.  `Checkable` is what it takes, and `queryActualState_succeeds_iff` that it is
all: where the chain reports no delegation the check looks at nothing, and where
nothing recorded is delegated it looks no further.  `Storage.checked` is what it
then finds (`queryActualState_eq_ok_iff`).
-/

import BabyLst.Hub.Slashing
import Mathlib.Tactic.MkIffOfInductiveProp

namespace BabyLst
namespace Hub

open Lib

/-- The stake to record, of what is recorded and what the chain reports. -/
def reconciled (recorded actual ps pu : ℕ) : ℕ :=
  if actual < recorded - ps + pu then actual + ps - pu else recorded

/-- **What the check for slashing needs** where the chain reports a delegation:
`actual` is what it reports, `supply` what is issued and requested, `ps` and `pu`
are the pending staking and unstaking amounts. -/
@[mk_iff] structure Checkable (recorded actual ps pu supply : ℕ) : Prop where
  actual_lt : actual < 2 ^ 128
  staked : ps ≤ recorded
  recorded_lt : recorded - ps + pu < 2 ^ 128
  /-- What is less than recorded still covers what is to be undelegated. -/
  slashed : actual < recorded - ps + pu → actual + ps < 2 ^ 128 ∧ pu ≤ actual + ps
  supply_lt : recorded - ps + pu ≠ 0 → supply < 2 ^ 128
  rate_lt : recorded - ps + pu ≠ 0 →
    (rateOf (reconciled recorded actual ps pu) supply).atomics < 2 ^ 128

instance (recorded actual ps pu supply : ℕ) : Decidable (Checkable recorded actual ps pu supply) :=
  decidable_of_iff' _ (checkable_iff recorded actual ps pu supply)

theorem reconciledStake_eq_ok_iff {recorded actual ps pu staked : ℕ} :
    reconciledStake recorded (recorded - ps + pu) actual ps pu = .ok staked ↔
      (actual < recorded - ps + pu → actual + ps < 2 ^ 128 ∧ pu ≤ actual + ps) ∧
        reconciled recorded actual ps pu = staked := by
  unfold reconciledStake reconciled
  split_ifs with hlt
  · simp only [bind_eq_ok, strictAdd_eq_ok, strictSub_eq_ok]
    constructor
    · rintro ⟨_, ⟨hfits, rfl⟩, hle, rfl⟩
      exact ⟨fun _ => ⟨hfits, hle⟩, rfl⟩
    · rintro ⟨hslashed, rfl⟩
      exact ⟨_, ⟨(hslashed hlt).1, rfl⟩, (hslashed hlt).2, rfl⟩
  · rw [pure_eq_ok]
    exact ⟨fun h => ⟨fun hless => absurd hless hlt, h⟩, fun h => h.2⟩

/-- The new rate is stored if and only if it and the supply fit. -/
theorem State.updateLstExchangeRate_succeeds_iff {state : State} {issued requested : ℕ} :
    (∃ state', state.updateLstExchangeRate issued requested = .ok state') ↔
      issued + requested < 2 ^ 128 ∧
        (rateOf state.totalStakedAmount (issued + requested)).atomics < 2 ^ 128 := by
  constructor
  · rintro ⟨state', h⟩
    simp only [State.updateLstExchangeRate, bind_eq_ok, strictAdd_eq_ok] at h
    obtain ⟨_, ⟨hsum, rfl⟩, h⟩ := h
    refine ⟨hsum, ?_⟩
    unfold rateOf SharePool.ratio
    split_ifs at h ⊢ with hz
    · decide
    · simp only [bind_eq_ok, Decimal.fromRatio_eq_ok] at h
      obtain ⟨_, ⟨-, hlt, -⟩, -⟩ := h
      exact hlt
  · rintro ⟨hsum, hlt⟩
    unfold State.updateLstExchangeRate
    rw [bind_ok (strictAdd_eq_ok.2 ⟨hsum, rfl⟩)]
    split_ifs with hz
    · exact ⟨_, rfl⟩
    · unfold rateOf SharePool.ratio at hlt
      rw [if_neg hz] at hlt
      have hratio := Decimal.fromRatio_eq_ok.2 ⟨fun h => hz (.inr h), hlt, rfl⟩
      rw [bind_ok hratio]
      exact ⟨_, rfl⟩

/-- **The check for slashing goes through if and only if** the chain reports no
delegation, or the hub is checkable. -/
theorem queryActualState_succeeds_iff {q : Querier} {st : Storage} {env : Env} {state : State}
    {issued : ℕ} (issued_eq : queryTotalLstTokenIssued q st = .ok issued)
    (start_le : st.pendingDelegation.stakingEpochStartBlockHeight ≤ env.block.height) :
    (∃ state', queryActualState q st env state = .ok state') ↔
      q.allDelegations env.contract = [] ∨
        Checkable state.totalStakedAmount (delegatedTotal st (q.allDelegations env.contract))
          (st.pendingDelegation.current env.block.height).1
          (st.pendingDelegation.current env.block.height).2
          (issued + st.currentBatch.requestedLstTokenAmount) := by
  have hpending : getPendingDelegationAmount st env =
      .ok ((st.pendingDelegation.current env.block.height).1,
        (st.pendingDelegation.current env.block.height).2) :=
    getPendingDelegationAmount_eq_ok.2 ⟨start_le, rfl⟩
  have hactual : ∀ n, actualTotalStaked st.parameters.stakingCoinDenom
      (q.allDelegations env.contract) = .ok n ↔
        delegatedTotal st (q.allDelegations env.contract) = n ∧ n < 2 ^ 128 :=
    fun _ => sumU128_eq_ok
  generalize (st.pendingDelegation.current env.block.height).1 = ps at hpending ⊢
  generalize (st.pendingDelegation.current env.block.height).2 = pu at hpending ⊢
  generalize delegatedTotal st (q.allDelegations env.contract) = actual at hactual ⊢
  unfold queryActualState
  by_cases hnil : q.allDelegations env.contract = []
  · simp only [hnil, if_true, true_or, iff_true]
    exact ⟨state, rfl⟩
  simp only [hnil, if_false, false_or]
  constructor
  · rintro ⟨state', h⟩
    simp only [bind_eq_ok, hactual, hpending, Except.ok.injEq, strictSub_eq_ok, strictAdd_eq_ok,
      Prod.exists, Prod.mk.injEq] at h
    obtain ⟨_, ⟨rfl, hsum⟩, _, _, ⟨rfl, rfl⟩, _, ⟨hle, rfl⟩, _, ⟨hlt, rfl⟩, h⟩ := h
    split_ifs at h with hz
    · exact ⟨hsum, hle, hlt, fun hless => by omega, fun hne => absurd hz hne,
        fun hne => absurd hz hne⟩
    · simp only [bind_eq_ok, reconciledStake_eq_ok_iff, issued_eq, Except.ok.injEq] at h
      obtain ⟨_, ⟨hslashed, rfl⟩, _, rfl, h⟩ := h
      obtain ⟨hissued, hrate⟩ := State.updateLstExchangeRate_succeeds_iff.1 ⟨state', h⟩
      exact ⟨hsum, hle, hlt, hslashed, fun _ => hissued, fun _ => hrate⟩
  · rintro ⟨hsum, hle, hlt, hslashed, hsupply, hrate⟩
    rw [bind_ok ((hactual _).2 ⟨rfl, hsum⟩), bind_ok hpending]
    dsimp only
    rw [bind_ok (strictSub_eq_ok.2 ⟨hle, rfl⟩), bind_ok (strictAdd_eq_ok.2 ⟨hlt, rfl⟩)]
    split_ifs with hz
    · exact ⟨_, rfl⟩
    · rw [bind_ok (reconciledStake_eq_ok_iff.2 ⟨hslashed, rfl⟩), bind_ok issued_eq]
      exact State.updateLstExchangeRate_succeeds_iff.2 ⟨hsupply hz, hrate hz⟩

/-- The check for slashing goes through, over the delegations that the chain
reports and what is issued. -/
def Storage.Checks (st : Storage) (delegations : List Delegation) (height issued : ℕ) : Prop :=
  delegations = [] ∨
    Checkable st.state.totalStakedAmount (delegatedTotal st delegations)
      (st.pendingDelegation.current height).1 (st.pendingDelegation.current height).2
      (issued + st.currentBatch.requestedLstTokenAmount)

instance (st : Storage) (delegations : List Delegation) (height issued : ℕ) :
    Decidable (st.Checks delegations height issued) :=
  inferInstanceAs (Decidable (_ ∨ _))

/-- What the check for slashing finds where it goes through. -/
def Storage.checked (st : Storage) (delegations : List Delegation) (height issued : ℕ) : State :=
  let ps := (st.pendingDelegation.current height).1
  let pu := (st.pendingDelegation.current height).2
  let staked := reconciled st.state.totalStakedAmount (delegatedTotal st delegations) ps pu
  if delegations = [] ∨ st.state.totalStakedAmount - ps + pu = 0 then st.state
  else
    { st.state with
      totalStakedAmount := staked
      lstExchangeRate := rateOf staked (issued + st.currentBatch.requestedLstTokenAmount) }

/-- What the check finds. -/
theorem ActualState.eq_checked {q : Querier} {st : Storage} {env : Env} {state : State}
    {issued : ℕ} (h : ActualState q st env st.state state)
    (issued_eq : queryTotalLstTokenIssued q st = .ok issued) :
    state = st.checked (q.allDelegations env.contract) env.block.height issued := by
  unfold Storage.checked reconciled
  cases h with
  | noDelegations hnil => rw [if_pos (.inl hnil)]
  | nothingStaked hne pending le zero =>
    obtain ⟨-, hcurrent⟩ := getPendingDelegationAmount_eq_ok.1 pending
    rw [hcurrent]
    exact (if_pos (.inr zero)).symm
  | full hne pending le pos staked_eq issued' =>
    obtain ⟨-, hcurrent⟩ := getPendingDelegationAmount_eq_ok.1 pending
    obtain rfl := Except.ok.inj (issued_eq.symm.trans issued')
    rw [hcurrent]
    dsimp only
    rw [if_neg (not_or.2 ⟨hne, pos⟩)]
    split_ifs at staked_eq ⊢ with hlt
    · rw [staked_eq.2]
    · rw [staked_eq]

/-- **The check for slashing finds a state if and only if** it goes through and
this is what there is to find. -/
theorem queryActualState_eq_ok_iff {q : Querier} {st : Storage} {env : Env} {state : State}
    {issued : ℕ} (issued_eq : queryTotalLstTokenIssued q st = .ok issued)
    (start_le : st.pendingDelegation.stakingEpochStartBlockHeight ≤ env.block.height) :
    queryActualState q st env st.state = .ok state ↔
      st.Checks (q.allDelegations env.contract) env.block.height issued ∧
        state = st.checked (q.allDelegations env.contract) env.block.height issued := by
  have hsucceeds : (∃ state, queryActualState q st env st.state = .ok state) ↔
      st.Checks (q.allDelegations env.contract) env.block.height issued :=
    queryActualState_succeeds_iff issued_eq start_le
  constructor
  · exact fun h => ⟨hsucceeds.1 ⟨state, h⟩, (queryActualState_ok h).eq_checked issued_eq⟩
  · rintro ⟨hchecks, rfl⟩
    obtain ⟨state, h⟩ := hsucceeds.2 hchecks
    rw [h, (queryActualState_ok h).eq_checked issued_eq]

end Hub
end BabyLst
