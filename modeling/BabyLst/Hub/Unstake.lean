/-
# Unstaking and closing a batch

`execute_unstake`, `execute_process_undelegations` and their helpers of
`contracts/lst_staking_hub/src/unstake.rs`.

A request is added to the current batch, in memory and in the wait list; once
more than `epoch_length` seconds have passed since the last closing, the batch
is closed: its worth at the reconciled rate is undelegated, and its history is
written.  The current batch is stored only at the end, so the reconciliation in
between still reads the requested amount as it was.

`Completion` is the graph of `check_for_unstake_batch_epoch_completion`: the
batch stays open, or it is closed.
-/

import BabyLst.Common.Delegation
import BabyLst.Hub.Slashing

namespace BabyLst
namespace Hub

open Lib

/-- The amount to store for a user in a batch, given the one stored already. -/
def newAmountOf (existing : Option ℕ) (amount : ℕ) : Exec ℕ :=
  match existing with
  | some currentAmount => strictAdd 128 currentAmount amount
  | none => return amount

theorem newAmountOf_ok {existing : Option ℕ} {amount n : ℕ}
    (h : newAmountOf existing amount = .ok n) : n = existing.getD 0 + amount := by
  cases existing with
  | none =>
    rw [newAmountOf, pure_eq_ok] at h
    simp [h]
  | some current =>
    simp only [newAmountOf, strictAdd_eq_ok] at h
    simp [h.2]

/-- `update_unstake_batch_wait_list`. -/
def updateUnstakeBatchWaitList (q : Querier) (st : Storage) (batch : CurrentBatch)
    (senderAddress : String) (amount : ℕ) : Exec (Storage × CurrentBatch) := do
  let requested ← strictAdd 128 batch.requestedLstTokenAmount amount
  let checkedSender ← toCheckedAddress q senderAddress
  let newAmount ← newAmountOf st.unstakeWaitList[(checkedSender, batch.id)]? amount
  let waitList := st.unstakeWaitList.insert (checkedSender, batch.id) newAmount
  return ({ st with unstakeWaitList := waitList },
    { batch with requestedLstTokenAmount := requested })

/-- The wrapped undelegations of a plan; validators with nothing to undelegate
are skipped. -/
def undelegateMsgs (denom : String) (delegator : Addr) (validators : List ValidatorResponse)
    (undelegations : List ℕ) : List CosmosMsg :=
  ((validators.zip undelegations).filter fun e => e.2 ≠ 0).map fun e =>
    .wrappedUndelegate delegator e.1.address ⟨denom, e.2⟩

/-- `pick_validator_for_undelegation`. -/
def pickValidatorForUndelegation (q : Querier) (st : Storage) (env : Env) (claim : ℕ) :
    Exec (List CosmosMsg) := do
  let registry ← okOr st.config.validatorsRegistryContract HubError.validatorRegistryNotSet.fault
  let validators ← q.validatorsDelegation registry
  let undelegations ← calculateUndelegations claim validators
  return undelegateMsgs st.parameters.stakingCoinDenom env.contract validators undelegations

/-- `process_undelegations_for_batch`. -/
def processUndelegationsForBatch (q : Querier) (st : Storage) (env : Env) (batch : CurrentBatch)
    (state : State) : Exec (Storage × CurrentBatch × State × List CosmosMsg) := do
  let unstakedAmount ← decimalMultiplication batch.requestedLstTokenAmount state.lstExchangeRate
  let messages ← pickValidatorForUndelegation q st env unstakedAmount
  let totalStaked ← checkedSub state.totalStakedAmount unstakedAmount
  let st ← updatePendingDelegationAmount st env none (some unstakedAmount)
  let history : UnstakeHistory :=
    { batchId := batch.id
      time := env.block.time
      lstTokenAmount := batch.requestedLstTokenAmount
      lstAppliedExchangeRate := state.lstExchangeRate
      lstWithdrawRate := state.lstExchangeRate
      released := false }
  let nextId ← strictAdd 64 batch.id 1
  return ({ st with unstakeHistory := st.unstakeHistory.insert batch.id history },
    { id := nextId, requestedLstTokenAmount := 0 },
    { state with totalStakedAmount := totalStaked, lastUnbondedTime := env.block.time },
    messages)

/-- The part of `check_for_unstake_batch_epoch_completion` after the
reconciliation: the batch is closed if the epoch period has passed. -/
def closeIfDue (q : Querier) (st : Storage) (env : Env) (batch : CurrentBatch) (state : State) :
    Exec (Storage × CurrentBatch × State × List CosmosMsg) := do
  let passedTime ← strictSub env.block.time state.lastUnbondedTime
  if passedTime > st.parameters.epochLength then processUndelegationsForBatch q st env batch state
  else return (st, batch, state, [])

/-- `check_for_unstake_batch_epoch_completion`. -/
def checkForUnstakeBatchEpochCompletion (q : Querier) (st : Storage) (env : Env)
    (batch : CurrentBatch) : Exec (Storage × CurrentBatch × List CosmosMsg × List Event) := do
  let oldState := st.state
  let (st, slashingEvents, state) ← checkSlashing q st env st.state
  let (st, batch, state, messages) ← closeIfDue q st env batch state
  let st := { st with currentBatch := batch }
  let (st, undelegateEvents) := updateState st oldState state
  return (st, batch, messages, slashingEvents ++ undelegateEvents)

/-- The burn message of a request: the hub burns what it was sent, or burns from
the sender, whose balance and allowance it checks first. -/
def burnMsgOf (q : Querier) (env : Env) (token : Addr) (amount : ℕ) (sender : String)
    (flow : UnstakeType) : Exec Cw20Msg :=
  match flow with
  | .burnFlow => return .burn amount
  | .burnFromFlow => do
    let balance ← q.tokenBalance token sender
    require (amount ≤ balance) HubError.insufficientFunds.fault
    let allowance ← q.tokenAllowance token sender env.contract
    require (amount ≤ allowance) HubError.insufficientAllowance.fault
    return .burnFrom sender amount

/-- `execute_unstake`. -/
def executeUnstake (q : Querier) (st : Storage) (env : Env) (amount : ℕ) (sender : String)
    (flow : UnstakeType) : Exec (Storage × Response) := do
  let (st, batch) ← updateUnstakeBatchWaitList q st st.currentBatch sender amount
  let (st, _, messages, events) ← checkForUnstakeBatchEpochCompletion q st env batch
  let token ← okOr st.config.lstToken HubError.lstTokenNotSet.fault
  let burnMsg ← burnMsgOf q env token amount sender flow
  return (st,
    { messages := messages ++ [.wasmExecute token (.token burnMsg) []]
      events := events
      attributes := [("action", .text "burn"), ("from", .text sender),
        ("burnt_amount", .number amount), ("unstaked_amount", .number amount)] })

/-- `execute_process_undelegations`. -/
def executeProcessUndelegations (q : Querier) (st : Storage) (env : Env) :
    Exec (Storage × Response) :=
  if st.currentBatch.requestedLstTokenAmount = 0 then return (st, {})
  else do
    let (st, batch, messages, events) ← checkForUnstakeBatchEpochCompletion q st env st.currentBatch
    return (st,
      { messages := messages
        events := events
        attributes := [("process undelegations", .number batch.id)] })

/-! ### What they do -/

/-- The history written when a batch is closed. -/
def CurrentBatch.history (batch : CurrentBatch) (time : ℕ) (rate : Decimal) : UnstakeHistory :=
  { batchId := batch.id
    time := time
    lstTokenAmount := batch.requestedLstTokenAmount
    lstAppliedExchangeRate := rate
    lstWithdrawRate := rate
    released := false }

/-- **The graph of `check_for_unstake_batch_epoch_completion`.** -/
inductive Completion (q : Querier) (st : Storage) (env : Env) (batch : CurrentBatch) :
    Storage → CurrentBatch → List CosmosMsg → Prop
  | stillOpen {state : State} (actual : ActualState q st env st.state state)
      (le : st.state.lastUnbondedTime ≤ env.block.time)
      (early : env.block.time - st.state.lastUnbondedTime ≤ st.parameters.epochLength) :
      Completion q st env batch { st with state := state, currentBatch := batch } batch []
  | closed {state : State} {pending : PendingDelegation} {registry : Addr}
      {validators : List ValidatorResponse} {plan : List ℕ}
      (actual : ActualState q st env st.state state)
      (le : st.state.lastUnbondedTime ≤ env.block.time)
      (due : st.parameters.epochLength < env.block.time - st.state.lastUnbondedTime)
      (registry_eq : st.config.validatorsRegistryContract = some registry)
      (answer : q.validatorsDelegation registry = .ok validators)
      (plan_eq : calculateUndelegations
        (state.lstExchangeRate.mulFloor batch.requestedLstTokenAmount) validators = .ok plan)
      (enough : state.lstExchangeRate.mulFloor batch.requestedLstTokenAmount ≤
        state.totalStakedAmount)
      (written : st.pendingDelegation.Written pending env.block.height 0
        (state.lstExchangeRate.mulFloor batch.requestedLstTokenAmount)) :
      Completion q st env batch
        { st with
          state := { state with
            totalStakedAmount := state.totalStakedAmount -
              state.lstExchangeRate.mulFloor batch.requestedLstTokenAmount
            lastUnbondedTime := env.block.time }
          currentBatch := ⟨batch.id + 1, 0⟩
          unstakeHistory := st.unstakeHistory.insert batch.id
            (batch.history env.block.time state.lstExchangeRate)
          pendingDelegation := pending }
        ⟨batch.id + 1, 0⟩
        (undelegateMsgs st.parameters.stakingCoinDenom env.contract validators plan)

theorem checkForUnstakeBatchEpochCompletion_ok {q : Querier} {st st' : Storage} {env : Env}
    {batch batch' : CurrentBatch} {messages : List CosmosMsg} {events : List Event}
    (h : checkForUnstakeBatchEpochCompletion q st env batch = .ok (st', batch', messages, events)) :
    Completion q st env batch st' batch' messages := by
  simp only [checkForUnstakeBatchEpochCompletion, closeIfDue, bind_eq_ok, strictSub_eq_ok,
    Prod.exists, updateState, pure_eq_ok, Prod.mk.injEq] at h
  obtain ⟨st₁, ev, s₁, hcheck, st₂, b₂, s₂, ms, ⟨_, ⟨hle, rfl⟩, hclose⟩, rfl, rfl, rfl, -⟩ := h
  obtain ⟨hact, rfl⟩ := checkSlashing_ok hcheck
  obtain ⟨-, -, hlast, -⟩ := hact.frame
  simp only [hlast] at hle hclose
  split_ifs at hclose with hdue
  · simp only [processUndelegationsForBatch, pickValidatorForUndelegation, bind_eq_ok,
      decimalMultiplication_eq_ok, okOr_eq_ok, checkedSub_eq_ok, strictAdd_eq_ok, pure_eq_ok,
      Prod.mk.injEq] at hclose
    obtain ⟨_, ⟨-, rfl⟩, _, ⟨reg, hreg, vs, hvs, plan, hplan, rfl⟩, _, ⟨hen, rfl⟩, _, hpend, _,
      ⟨-, rfl⟩, rfl, rfl, rfl, rfl⟩ := hclose
    obtain ⟨pending, rfl, hw⟩ := updatePendingDelegationAmount_ok hpend
    exact .closed hact hle hdue hreg hvs hplan hen hw
  · rw [pure_eq_ok] at hclose
    simp only [Prod.mk.injEq] at hclose
    obtain ⟨rfl, rfl, rfl, rfl⟩ := hclose
    exact .stillOpen hact hle (Nat.not_lt.1 hdue)

/-- The storage after the request of `amount` by `sender` is noted, and before
the batch is looked at. -/
def Storage.noted (st : Storage) (sender : Addr) (amount : ℕ) : Storage :=
  { st with
    unstakeWaitList := st.unstakeWaitList.insert (sender, st.currentBatch.id)
      ((st.unstakeWaitList[(sender, st.currentBatch.id)]?).getD 0 + amount) }

/-- The current batch with `amount` more requested. -/
def CurrentBatch.plus (batch : CurrentBatch) (amount : ℕ) : CurrentBatch :=
  { batch with requestedLstTokenAmount := batch.requestedLstTokenAmount + amount }

/-- The burn message of a flow. -/
def burnMsg (sender : Addr) (amount : ℕ) : UnstakeType → Cw20Msg
  | .burnFlow => .burn amount
  | .burnFromFlow => .burnFrom sender amount

/-- **What a successful `execute_unstake` does**: it notes the request, closes
the batch if it is due, and asks the token to burn. -/
theorem executeUnstake_ok {q : Querier} {st st' : Storage} {env : Env} {amount : ℕ}
    {sender : String} {flow : UnstakeType} {res : Response}
    (h : executeUnstake q st env amount sender flow = .ok (st', res)) :
    ∃ batch messages token,
      Completion q (st.noted sender amount) env (st.currentBatch.plus amount) st' batch messages ∧
      st.config.lstToken = some token ∧
      res.messages = messages ++
        [.wasmExecute token (.token (burnMsg sender amount flow)) []] ∧
      (flow = .burnFromFlow → ∃ balance, q.tokenBalance token sender = .ok balance ∧
        amount ≤ balance) := by
  simp only [executeUnstake, updateUnstakeBatchWaitList, bind_eq_ok, strictAdd_eq_ok,
    toCheckedAddress_eq_ok, pure_eq_ok, Prod.exists, okOr_eq_ok, Prod.mk.injEq] at h
  obtain ⟨_, _, ⟨_, ⟨-, rfl⟩, _, ⟨-, rfl⟩, n, hn, rfl, rfl⟩, st₂, b₂, ms, ev, hcomp, token,
    htoken, msg, hmsg, rfl, rfl⟩ := h
  obtain rfl := newAmountOf_ok hn
  have hc := checkForUnstakeBatchEpochCompletion_ok hcomp
  have hconfig : st₂.config = st.config := by cases hc <;> rfl
  refine ⟨b₂, ms, token, hc, hconfig ▸ htoken, ?_, ?_⟩
  · cases flow with
    | burnFlow =>
      simp only [burnMsgOf, pure_eq_ok] at hmsg
      rw [← hmsg]
      rfl
    | burnFromFlow =>
      simp only [burnMsgOf, bind_eq_ok, pure_eq_ok] at hmsg
      obtain ⟨_, -, _, -, _, -, _, -, rfl⟩ := hmsg
      rfl
  · rintro rfl
    simp only [burnMsgOf, bind_eq_ok, require_eq_ok] at hmsg
    obtain ⟨balance, hb, _, hle, -⟩ := hmsg
    exact ⟨balance, hb, hle⟩

theorem executeProcessUndelegations_ok {q : Querier} {st st' : Storage} {env : Env}
    {res : Response} (h : executeProcessUndelegations q st env = .ok (st', res)) :
    (st.currentBatch.requestedLstTokenAmount = 0 ∧ st' = st ∧ res = {}) ∨
      (st.currentBatch.requestedLstTokenAmount ≠ 0 ∧
        ∃ batch, Completion q st env st.currentBatch st' batch res.messages) := by
  unfold executeProcessUndelegations at h
  split_ifs at h with hz
  · rw [pure_eq_ok, Prod.mk.injEq] at h
    exact .inl ⟨hz, h.1.symm, h.2.symm⟩
  · simp only [bind_eq_ok, Prod.exists, pure_eq_ok, Prod.mk.injEq] at h
    obtain ⟨st₂, b₂, ms, ev, hcomp, rfl, rfl⟩ := h
    exact .inr ⟨hz, b₂, checkForUnstakeBatchEpochCompletion_ok hcomp⟩

end Hub
end BabyLst
