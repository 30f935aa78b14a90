/-
# Reconciling the recorded stake with the chain

`check_slashing` and `query_actual_state` of
`contracts/lst_staking_hub/src/contract.rs`, and `State::update_lst_exchange_rate`
of `packages/lst_common/src/hub.rs`.

The hub records the stake it believes it has, counting at once what it only
queued for the end of the staking epoch; the chain reports the delegations as
they are.  `query_actual_state` brings the two together: the recorded stake less
the pending stake plus the pending unstake should be what the chain reports, and
where it is more, the difference was slashed.  It leaves early, with the stored
rate, when the chain reports no delegation at all or when nothing recorded is
delegated.

`ActualState` is its graph: one constructor per way out.
-/

import BabyLst.Hub.State

namespace BabyLst
namespace Hub

open Lib

/-- `State::update_lst_exchange_rate`. -/
def State.updateLstExchangeRate (state : State) (totalIssued requested : ℕ) : Exec State := do
  let totalTokenSupply ← strictAdd 128 totalIssued requested
  if state.totalStakedAmount = 0 ∨ totalTokenSupply = 0 then
    return { state with lstExchangeRate := Decimal.one }
  else do
    let rate ← Decimal.fromRatio state.totalStakedAmount totalTokenSupply
    return { state with lstExchangeRate := rate }

/-- `query_total_lst_token_issued`. -/
def queryTotalLstTokenIssued (q : Querier) (st : Storage) : Exec ℕ := do
  let tokenAddress ← okOr st.config.lstToken HubError.lstTokenNotSet.fault
  q.totalSupply tokenAddress

/-- The delegations in the staking denom, added up: `actual_total_staked`. -/
def actualTotalStaked (denom : String) (delegations : List Delegation) : Exec ℕ :=
  sumU128 ((delegations.filter fun d => d.amount.denom = denom).map fun d => d.amount.amount)

/-- The stake to record: what the chain reports corrected by the pending amounts
where that is less than recorded, and what is recorded otherwise.  The addition
and the subtraction panic. -/
def reconciledStake (recorded stateTotalStaked actual pendingStaked pendingUnstaked : ℕ) :
    Exec ℕ :=
  if stateTotalStaked > actual then do
    let withPending ← strictAdd 128 actual pendingStaked
    strictSub withPending pendingUnstaked
  else return recorded

/-- `query_actual_state`. -/
def queryActualState (q : Querier) (st : Storage) (env : Env) (state : State) : Exec State := do
  let delegations := q.allDelegations env.contract
  if delegations = [] then return state
  else do
    let actual ← actualTotalStaked st.parameters.stakingCoinDenom delegations
    let (pendingStaked, pendingUnstaked) ← getPendingDelegationAmount st env
    let stakedLessPending ← strictSub state.totalStakedAmount pendingStaked
    let stateTotalStaked ← strictAdd 128 stakedLessPending pendingUnstaked
    if stateTotalStaked = 0 then return state
    else do
      let totalStaked ← reconciledStake state.totalStakedAmount stateTotalStaked actual
        pendingStaked pendingUnstaked
      let lstTotalIssued ← queryTotalLstTokenIssued q st
      State.updateLstExchangeRate { state with totalStakedAmount := totalStaked } lstTotalIssued
        st.currentBatch.requestedLstTokenAmount

/-- `check_slashing`. -/
def checkSlashing (q : Querier) (st : Storage) (env : Env) (state : State) :
    Exec (Storage × List Event × State) := do
  let oldState := state
  let state ← queryActualState q st env state
  let (st, events) := updateState st oldState state
  return (st, events, state)

/-- `execute_slashing`. -/
def executeSlashing (q : Querier) (st : Storage) (env : Env) : Exec (Storage × Response) := do
  let (st, events, state) ← checkSlashing q st env st.state
  return (st,
    { events := events
      attributes := [("action", .text "check_slashing"),
        ("new_lst_exchange_rate", .rate state.lstExchangeRate)] })

/-! ### The rate -/

/-- The exchange rate of a stake over a supply, where it fits: one if either is
zero, their ratio otherwise. -/
def rateOf (staked supply : ℕ) : Decimal := ⟨SharePool.ratio DECIMAL_FRACTIONAL staked supply⟩

/-- **`update_lst_exchange_rate` stores `rateOf`.** -/
theorem State.updateLstExchangeRate_ok {state state' : State} {issued requested : ℕ}
    (h : state.updateLstExchangeRate issued requested = .ok state') :
    state' =
      { state with lstExchangeRate := rateOf state.totalStakedAmount (issued + requested) } := by
  simp only [updateLstExchangeRate, bind_eq_ok, strictAdd_eq_ok] at h
  obtain ⟨_, ⟨-, rfl⟩, h⟩ := h
  split_ifs at h with hz
  · rw [pure_eq_ok] at h
    rw [← h, rateOf, SharePool.ratio, if_pos hz]
    rfl
  · simp only [bind_eq_ok, Decimal.fromRatio_eq_ok, pure_eq_ok] at h
    obtain ⟨_, ⟨-, -, rfl⟩, rfl⟩ := h
    rw [rateOf, SharePool.ratio, if_neg hz]

/-! ### The ways out of `query_actual_state` -/

/-- What the hub's delegations add up to, as it reads them. -/
def delegatedTotal (st : Storage) (delegations : List Delegation) : ℕ :=
  ((delegations.filter fun d => d.amount.denom = st.parameters.stakingCoinDenom).map
    fun d => d.amount.amount).sum

/-- **The graph of `query_actual_state`.**  `actual` is what the chain reports,
`ps` and `pu` the pending staking and unstaking amounts. -/
inductive ActualState (q : Querier) (st : Storage) (env : Env) (state : State) : State → Prop
  | noDelegations (h : q.allDelegations env.contract = []) : ActualState q st env state state
  | nothingStaked (ne : q.allDelegations env.contract ≠ []) {ps pu : ℕ}
      (pending : getPendingDelegationAmount st env = .ok (ps, pu))
      (le : ps ≤ state.totalStakedAmount) (zero : state.totalStakedAmount - ps + pu = 0) :
      ActualState q st env state state
  | full (ne : q.allDelegations env.contract ≠ []) {ps pu supply staked : ℕ}
      (pending : getPendingDelegationAmount st env = .ok (ps, pu))
      (le : ps ≤ state.totalStakedAmount) (pos : state.totalStakedAmount - ps + pu ≠ 0)
      (staked_eq :
        if delegatedTotal st (q.allDelegations env.contract) <
            state.totalStakedAmount - ps + pu then
          pu ≤ delegatedTotal st (q.allDelegations env.contract) + ps ∧
            staked = delegatedTotal st (q.allDelegations env.contract) + ps - pu
        else staked = state.totalStakedAmount)
      (issued : queryTotalLstTokenIssued q st = .ok supply) :
      ActualState q st env state
        { state with
          totalStakedAmount := staked
          lstExchangeRate := rateOf staked (supply + st.currentBatch.requestedLstTokenAmount) }

theorem reconciledStake_eq_ok {recorded t actual ps pu staked : ℕ}
    (h : reconciledStake recorded t actual ps pu = .ok staked) :
    if actual < t then pu ≤ actual + ps ∧ staked = actual + ps - pu else staked = recorded := by
  unfold reconciledStake at h
  split_ifs at h with hlt
  · simp only [bind_eq_ok, strictAdd_eq_ok, strictSub_eq_ok] at h
    obtain ⟨_, ⟨-, rfl⟩, hpu, rfl⟩ := h
    rw [if_pos hlt]
    exact ⟨hpu, rfl⟩
  · rw [if_neg hlt]
    exact (pure_eq_ok.1 h).symm

theorem queryActualState_ok {q : Querier} {st : Storage} {env : Env} {state state' : State}
    (h : queryActualState q st env state = .ok state') : ActualState q st env state state' := by
  unfold queryActualState at h
  by_cases hne : q.allDelegations env.contract = []
  · simp only [hne, if_true, pure_eq_ok] at h
    exact h ▸ .noDelegations hne
  · simp only [hne, if_false, bind_eq_ok, actualTotalStaked, sumU128_eq_ok, strictSub_eq_ok,
      strictAdd_eq_ok, Prod.exists] at h
    obtain ⟨_, ⟨rfl, -⟩, ps, pu, hp, _, ⟨hle, rfl⟩, _, ⟨-, rfl⟩, h⟩ := h
    split_ifs at h with hz
    · rw [pure_eq_ok] at h
      exact h ▸ .nothingStaked hne hp hle hz
    · simp only [bind_eq_ok] at h
      obtain ⟨staked, hstaked, supply, hs, h⟩ := h
      rw [State.updateLstExchangeRate_ok h]
      exact .full hne hp hle hz (reconciledStake_eq_ok hstaked) hs

/-- `check_slashing` stores what `query_actual_state` finds, and nothing else. -/
theorem checkSlashing_ok {q : Querier} {st st' : Storage} {env : Env} {state state' : State}
    {events : List Event} (h : checkSlashing q st env state = .ok (st', events, state')) :
    ActualState q st env state state' ∧ st' = { st with state := state' } := by
  simp only [checkSlashing, bind_eq_ok, updateState, pure_eq_ok, Prod.mk.injEq] at h
  obtain ⟨_, h, rfl, -, rfl⟩ := h
  exact ⟨queryActualState_ok h, rfl⟩

theorem executeSlashing_ok {q : Querier} {st st' : Storage} {env : Env} {res : Response}
    (h : executeSlashing q st env = .ok (st', res)) :
    ActualState q st env st.state st'.state ∧ st' = { st with state := st'.state } ∧
      res.messages = [] := by
  simp only [executeSlashing, bind_eq_ok, Prod.exists, pure_eq_ok, Prod.mk.injEq] at h
  obtain ⟨_, _, _, h, rfl, rfl⟩ := h
  obtain ⟨hact, rfl⟩ := checkSlashing_ok h
  exact ⟨hact, rfl, rfl⟩

/-- `query_actual_state` changes the rate and the recorded stake only. -/
theorem ActualState.frame {q : Querier} {st : Storage} {env : Env} {s s' : State}
    (h : ActualState q st env s s') :
    s'.lastIndexModification = s.lastIndexModification ∧
      s'.unclaimedUnstakedBalance = s.unclaimedUnstakedBalance ∧
      s'.lastUnbondedTime = s.lastUnbondedTime ∧ s'.lastProcessedBatch = s.lastProcessedBatch := by
  cases h <;> exact ⟨rfl, rfl, rfl, rfl⟩

end Hub
end BabyLst
