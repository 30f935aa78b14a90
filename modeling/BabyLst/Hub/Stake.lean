/-
# Staking

`execute_stake` of `contracts/lst_staking_hub/src/stake.rs`, for a user's stake
and for the rewards the dispatcher sends.  The payment is recorded as staked and
as pending at once, the LST is minted at the rate just reconciled, and one
wrapped delegation per validator is sent to wait for the end of the epoch.
-/

import BabyLst.Common.Delegation
import BabyLst.Hub.Slashing

namespace BabyLst
namespace Hub

open Lib

/-- The wrapped delegations of a plan; validators with nothing to delegate are
skipped. -/
def delegateMsgs (denom : String) (delegator : Addr) (validators : List ValidatorResponse)
    (delegations : List ℕ) : List CosmosMsg :=
  ((validators.zip delegations).filter fun e => e.2 ≠ 0).map fun e =>
    .wrappedDelegate delegator e.1.address ⟨denom, e.2⟩

/-- The LST minted for a payment. -/
def mintAmountOf (stakeType : StakeType) (payment : ℕ) (rate : Decimal) : Exec ℕ :=
  match stakeType with
  | .lstMint => decimalDivision payment rate
  | .stakeRewards => return 0

/-- `execute_stake`. -/
def executeStake (q : Querier) (st : Storage) (env : Env) (info : MessageInfo)
    (stakeType : StakeType) : Exec (Storage × Response) := do
  let denom := st.parameters.stakingCoinDenom
  let config := st.config
  let oldState := st.state
  let rewardDispatcher ← okOr config.rewardDispatcherContract HubError.rewardDispatcherNotSet.fault
  require (stakeType = .stakeRewards → info.sender = rewardDispatcher) (.err .unauthorized)
  let requestedWithdrawal := st.currentBatch.requestedLstTokenAmount
  require (info.funds.length ≤ 1) HubError.onlyOneCoinAllowed.fault
  let payment ← okOr (info.funds.find? fun coin => coin.denom = denom ∧ 0 < coin.amount)
    HubError.invalidAmount.fault
  let (st, slashingEvents, state) ← checkSlashing q st env st.state
  let totalSupply ← unwrap (queryTotalLstTokenIssued q st)
  let mintAmount ← mintAmountOf stakeType payment.amount state.lstExchangeRate
  let totalSupply ← strictAdd 128 totalSupply mintAmount
  let totalStaked ← strictAdd 128 state.totalStakedAmount payment.amount
  let state ← State.updateLstExchangeRate { state with totalStakedAmount := totalStaked }
    totalSupply requestedWithdrawal
  let st ← updatePendingDelegationAmount st env (some payment.amount) none
  let (st, stateEvents) := updateState st oldState state
  let events := slashingEvents ++ stateEvents
  let registry ← okOr config.validatorsRegistryContract HubError.validatorRegistryNotSet.fault
  let validators ← q.validatorsDelegation registry
  require (validators ≠ []) ValidatorError.emptyValidatorSet.fault
  let delegations ← calculateDelegations payment.amount validators
  let messages := delegateMsgs payment.denom env.contract validators delegations
  match stakeType with
  | .stakeRewards =>
    return (st,
      { messages := messages
        events := events
        attributes := [("action", .text "stake_rewards"), ("from", .text info.sender),
          ("amount", .number payment.amount)] })
  | .lstMint => do
    let tokenAddress ← okOr config.lstToken HubError.lstTokenNotSet.fault
    let mintMsg : CosmosMsg :=
      .wasmExecute tokenAddress (.token (.mint info.sender mintAmount)) []
    return (st,
      { messages := messages ++ [mintMsg]
        events := events
        attributes := [("action", .text "mint"), ("from", .text info.sender),
          ("staked", .number payment.amount), ("minted", .number mintAmount)] })

/-- The mint message of a stake; rewards mint nothing. -/
def mintMsgs (stakeType : StakeType) (token : Option Addr) (recipient : Addr) (amount : ℕ) :
    List CosmosMsg :=
  match stakeType, token with
  | .lstMint, some tokenAddress => [.wasmExecute tokenAddress (.token (.mint recipient amount)) []]
  | _, _ => []

/-- **What a successful `execute_stake` does.** -/
inductive Staked (q : Querier) (st : Storage) (env : Env) (info : MessageInfo) (t : StakeType) :
    Storage → Response → Prop
  | intro {payment supply mint : ℕ} {state : State} {pending : PendingDelegation}
      {validators : List ValidatorResponse} {plan : List ℕ} {registry token : Addr} {res : Response}
      (dispatcher : t = .stakeRewards → some info.sender = st.config.rewardDispatcherContract)
      (funds : info.funds = [⟨st.parameters.stakingCoinDenom, payment⟩]) (pos : 0 < payment)
      (actual : ActualState q st env st.state state)
      (issued : queryTotalLstTokenIssued q st = .ok supply)
      (minted : mintAmountOf t payment state.lstExchangeRate = .ok mint)
      (token_eq : st.config.lstToken = some token)
      (fits : state.totalStakedAmount + payment < 2 ^ 128)
      (written : st.pendingDelegation.Written pending env.block.height payment 0)
      (registry_eq : st.config.validatorsRegistryContract = some registry)
      (answer : q.validatorsDelegation registry = .ok validators)
      (plan_eq : calculateDelegations payment validators = .ok plan)
      (messages_eq : res.messages =
        delegateMsgs st.parameters.stakingCoinDenom env.contract validators plan ++
          mintMsgs t (some token) info.sender mint) :
      Staked q st env info t
        { st with
          state := { state with
            totalStakedAmount := state.totalStakedAmount + payment
            lstExchangeRate := rateOf (state.totalStakedAmount + payment)
              (supply + mint + st.currentBatch.requestedLstTokenAmount) }
          pendingDelegation := pending } res

/-- At most one coin, and one of the list in the denom: the list is that coin. -/
theorem funds_eq_singleton {funds : List Coin} {denom : String} {c : Coin}
    (hlen : funds.length ≤ 1)
    (hc : funds.find? (fun coin => coin.denom = denom ∧ 0 < coin.amount) = some c) :
    funds = [⟨denom, c.amount⟩] ∧ 0 < c.amount ∧ c.denom = denom := by
  have hp := List.find?_some hc
  have hm := List.mem_of_find?_eq_some hc
  rw [decide_eq_true_eq] at hp
  match funds, hlen, hm with
  | [d], _, hm =>
    obtain rfl := List.mem_singleton.1 hm
    exact ⟨by rw [← hp.1], hp.2, hp.1⟩

theorem executeStake_ok {q : Querier} {st st' : Storage} {env : Env} {info : MessageInfo}
    {t : StakeType} {res : Response} (h : executeStake q st env info t = .ok (st', res)) :
    Staked q st env info t st' res := by
  simp only [executeStake, bind_eq_ok, okOr_eq_ok, require_eq_ok, unwrap_eq_ok, strictAdd_eq_ok,
    Prod.exists, updateState] at h
  obtain ⟨disp, hdisp, _, hauth, _, hlen, pay, hpay, st₁, ev, s₁, hcheck, supply, hsupply, mint,
    hmint, _, ⟨-, rfl⟩, _, ⟨hfit, rfl⟩, s₂, hs₂, st₂, hpend, reg, hreg, vs, hvs, _, -, plan, hplan,
    h⟩ := h
  obtain ⟨hact, rfl⟩ := checkSlashing_ok hcheck
  obtain ⟨hfunds, hpos, hdenom⟩ := funds_eq_singleton hlen hpay
  have hs₂' := State.updateLstExchangeRate_ok hs₂
  obtain ⟨pending, rfl, hw⟩ := updatePendingDelegationAmount_ok hpend
  subst hs₂'
  have hsup : ∃ token, st.config.lstToken = some token := by
    simp only [queryTotalLstTokenIssued, bind_eq_ok, okOr_eq_ok] at hsupply
    exact ⟨_, hsupply.choose_spec.1⟩
  obtain ⟨token, htoken⟩ := hsup
  cases t with
  | stakeRewards =>
    simp only [pure_eq_ok, Prod.mk.injEq] at h
    obtain ⟨rfl, rfl⟩ := h
    refine .intro (fun _ => ?_) hfunds hpos hact hsupply hmint htoken hfit hw hreg hvs hplan ?_
    · rw [hdisp, hauth rfl]
    · simp [mintMsgs, hdenom]
  | lstMint =>
    simp only [bind_eq_ok, okOr_eq_ok, pure_eq_ok, Prod.mk.injEq] at h
    obtain ⟨token', htoken', rfl, rfl⟩ := h
    obtain rfl := Option.some.inj (htoken.symm.trans htoken')
    refine .intro (fun h => by cases h) hfunds hpos hact hsupply hmint htoken hfit hw hreg hvs
      hplan ?_
    simp [mintMsgs, hdenom]

end Hub
end BabyLst
