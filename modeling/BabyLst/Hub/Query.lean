/-
# Reading the hub

Queries of `contracts/lst_staking_hub/src/query.rs`, and `query` of `contract.rs`.
Some of them recompute what an operation would find, and so can disagree with it:
`query_pending_delegation` writes the roll-over of the pending amounts a third
time, and `query_get_finished_amount` the maturity test a second time.  The
requests of a user and the histories are read in pages: from a batch on, so many
at most.
-/

import BabyLst.Hub.Slashing

namespace BabyLst
namespace Hub

open Lib

/-- `query_pending_delegation`. -/
def queryPendingDelegation (st : Storage) (env : Env) : Exec PendingDelegation := do
  let pending := st.pendingDelegation
  let passedBlocks ← strictSub env.block.height pending.stakingEpochStartBlockHeight
  if pending.stakingEpochLengthBlocks ≤ passedBlocks then do
    let epochsPassed ← strictDiv passedBlocks pending.stakingEpochLengthBlocks
    let advance ← strictMul 64 epochsPassed pending.stakingEpochLengthBlocks
    let start ← strictAdd 64 pending.stakingEpochStartBlockHeight advance
    return { pending with
      pendingStakingAmount := 0
      pendingUnstakingAmount := 0
      stakingEpochStartBlockHeight := start }
  else return pending

/-- `query_state`. -/
def queryState (q : Querier) (st : Storage) (env : Env) : Exec State :=
  queryActualState q st env st.state

/-- `query_get_finished_amount`: what the user's entries in the batches closed
before the cutoff are worth, released or not. -/
def queryGetFinishedAmount (st : Storage) (address : Addr) (unstakeCutoffTime : ℕ) : Exec ℕ :=
  (userEntries st.unstakeWaitList address).foldlM (fun acc entry =>
    match readUnstakeHistory st entry.1 with
    | .ok history =>
      if history.time < unstakeCutoffTime then do
        let amount ← decimalMultiplication entry.2 history.lstAppliedExchangeRate
        strictAdd 128 acc amount
      else return acc
    | .error _ => return acc) 0

/-- `query_withdrawable_unstaked`. -/
def queryWithdrawableUnstaked (q : Querier) (st : Storage) (env : Env) (address : String) :
    Exec ℕ := do
  let unstakeCutoffTime ← strictSub env.block.time st.parameters.unstakingPeriod
  let checkedAddr ← toCheckedAddress q address
  queryGetFinishedAmount st checkedAddr unstakeCutoffTime

/-! ### Requests and histories, in pages -/

/-- `UserUnstakeRequestsResponse`. -/
structure UserUnstakeRequestsResponse where
  batchId : ℕ
  lstAmount : ℕ
  withdrawExchangeRate : Decimal
  appliedExchangeRate : Decimal
  time : ℕ
  released : Bool
  deriving DecidableEq, Repr

/-- `UnstakeRequestsResponses`. -/
structure UnstakeRequestsResponses where
  address : String
  requests : List UserUnstakeRequestsResponse
  deriving DecidableEq, Repr

/-- `AllHistoryResponse`. -/
structure AllHistoryResponse where
  history : List UnstakeHistory
  deriving DecidableEq, Repr

/-- `u32::MAX`. -/
def U32_MAX : ℕ := 2 ^ 32 - 1

/-- The entries in ascending order, from an inclusive bound on: `range(start, None)`. -/
def rangeFrom {α : Type} (start : Option ℕ) (entries : List (ℕ × α)) : List (ℕ × α) :=
  match start with
  | some start => entries.filter fun e => start ≤ e.1
  | none => entries

/-- What `get_unstake_requests` shows of an entry; it passes over an entry of a
batch without a history. -/
def unstakeRequest (st : Storage) (entry : ℕ × ℕ) : Option UserUnstakeRequestsResponse :=
  match readUnstakeHistory st entry.1 with
  | .ok history => some
    { batchId := entry.1
      lstAmount := entry.2
      withdrawExchangeRate := history.lstWithdrawRate
      appliedExchangeRate := history.lstAppliedExchangeRate
      time := history.time
      released := history.released }
  | .error _ => none

/-- `get_unstake_requests`: so many entries are taken before any is passed over. -/
def getUnstakeRequests (st : Storage) (address : Addr) (startFrom limit : Option ℕ) :
    List UserUnstakeRequestsResponse :=
  ((rangeFrom startFrom (userEntries st.unstakeWaitList address)).take
    (limit.getD U32_MAX)).filterMap (unstakeRequest st)

/-- `all_unstake_history`. -/
def allUnstakeHistory (st : Storage) (start limit : Option ℕ) : List UnstakeHistory :=
  ((rangeFrom start st.unstakeHistory.toList).take (limit.getD U32_MAX)).map Prod.snd

/-- `query_unstake_requests`. -/
def queryUnstakeRequests (q : Querier) (st : Storage) (address : String) :
    Exec UnstakeRequestsResponses := do
  let checkedAddr ← toCheckedAddress q address
  return ⟨address, getUnstakeRequests st checkedAddr none none⟩

/-- `query_unstake_requests_limit`. -/
def queryUnstakeRequestsLimit (q : Querier) (st : Storage) (address : String)
    (startFrom limit : Option ℕ) : Exec UnstakeRequestsResponses := do
  let checkedAddr ← toCheckedAddress q address
  return ⟨address, getUnstakeRequests st checkedAddr startFrom limit⟩

/-- `query_unstake_requests_limitation`. -/
def queryUnstakeRequestsLimitation (st : Storage) (start limit : Option ℕ) : AllHistoryResponse :=
  let requests := allUnstakeHistory st start limit
  ⟨requests.map fun request =>
    { batchId := request.batchId
      time := request.time
      lstTokenAmount := request.lstTokenAmount
      lstAppliedExchangeRate := request.lstAppliedExchangeRate
      lstWithdrawRate := request.lstWithdrawRate
      released := request.released }⟩

/-! ### `query` -/

/-- `QueryMsg`. -/
inductive QueryMsg
  | config
  | state
  | currentBatch
  | parameters
  | exchangeRate
  | withdrawableUnstaked (address : String)
  | unstakeRequests (address : String)
  | unstakeRequestsLimit (address : String) (startFrom limit : Option ℕ)
  | allHistory (startFrom limit : Option ℕ)
  | pendingDelegation
  deriving DecidableEq, Repr

/-- What `query` answers with; a `ConfigResponse` is the configuration with its
addresses written out. -/
inductive QueryAnswer
  | config (response : Config)
  | state (response : State)
  | currentBatch (response : CurrentBatch)
  | parameters (response : Parameters)
  | exchangeRate (response : Decimal)
  | withdrawableUnstaked (withdrawable : ℕ)
  | unstakeRequests (response : UnstakeRequestsResponses)
  | allHistory (response : AllHistoryResponse)
  | pendingDelegation (response : PendingDelegation)
  deriving DecidableEq, Repr

/-- `query`: a paused hub answers too. -/
def query (q : Querier) (st : Storage) (env : Env) : QueryMsg → Exec QueryAnswer
  | .config => return .config st.config
  | .exchangeRate => do
    let state ← queryState q st env
    return .exchangeRate state.lstExchangeRate
  | .parameters => return .parameters st.parameters
  | .state => do
    let state ← queryState q st env
    return .state state
  | .currentBatch => return .currentBatch st.currentBatch
  | .withdrawableUnstaked address => do
    let withdrawable ← queryWithdrawableUnstaked q st env address
    return .withdrawableUnstaked withdrawable
  | .unstakeRequests address => do
    let response ← queryUnstakeRequests q st address
    return .unstakeRequests response
  | .unstakeRequestsLimit address startFrom limit => do
    let response ← queryUnstakeRequestsLimit q st address startFrom limit
    return .unstakeRequests response
  | .allHistory startFrom limit =>
    return .allHistory (queryUnstakeRequestsLimitation st startFrom limit)
  | .pendingDelegation => do
    let response ← queryPendingDelegation st env
    return .pendingDelegation response

end Hub
end BabyLst
