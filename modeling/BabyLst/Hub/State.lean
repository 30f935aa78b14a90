/-
# The storage of the hub

`contracts/lst_staking_hub/src/state.rs` and the stored types of
`packages/lst_common/src/hub.rs`.

The two maps of the unstaking ledger are ordered maps: `UNSTAKE_WAIT_LIST` by
user and batch, `UNSTAKE_HISTORY` by batch.  The items are written once by
`instantiate` and are there ever after, so loading one does not fail.

The pending amounts belong to a staking epoch of the chain: reading them in a
later epoch gives zero (`getPendingDelegationAmount`), writing them in a later
epoch starts them afresh at the start of the epoch it is written in
(`updatePendingDelegationAmount`).
-/

import BabyLst.Common.Types
import BabyLst.Lib.MapSum
import BabyLst.Lib.EpochWindow

namespace BabyLst
namespace Hub

open Lib Std

/-- `Config`. -/
structure Config where
  owner : Addr
  rewardDispatcherContract : Option Addr
  validatorsRegistryContract : Option Addr
  lstToken : Option Addr
  deriving DecidableEq, Repr

/-- `Parameters`. -/
structure Parameters where
  epochLength : ℕ
  stakingCoinDenom : String
  unstakingPeriod : ℕ
  paused : Bool
  deriving DecidableEq, Repr

/-- `State`. -/
structure State where
  lstExchangeRate : Decimal
  totalStakedAmount : ℕ
  lastIndexModification : ℕ
  unclaimedUnstakedBalance : ℕ
  lastUnbondedTime : ℕ
  lastProcessedBatch : ℕ
  deriving DecidableEq, Repr

/-- `CurrentBatch`. -/
structure CurrentBatch where
  id : ℕ
  requestedLstTokenAmount : ℕ
  deriving DecidableEq, Repr

/-- `UnstakeHistory`. -/
structure UnstakeHistory where
  batchId : ℕ
  time : ℕ
  lstTokenAmount : ℕ
  lstAppliedExchangeRate : Decimal
  lstWithdrawRate : Decimal
  released : Bool
  deriving DecidableEq, Repr

/-- `PendingDelegation`. -/
structure PendingDelegation where
  stakingEpochLengthBlocks : ℕ
  stakingEpochStartBlockHeight : ℕ
  pendingStakingAmount : ℕ
  pendingUnstakingAmount : ℕ
  deriving DecidableEq, Repr

/-- `UNSTAKE_WAIT_LIST`: the amount a user asked to unstake in a batch. -/
abbrev WaitList := ExtTreeMap (Addr × ℕ) ℕ pairCmp

/-- The users and batches of the wait list are ordered. -/
instance waitListOrdered : TransCmp (pairCmp (X := Addr) (Y := ℕ)) := inferInstance

/-- The hub's storage. -/
structure Storage where
  config : Config
  parameters : Parameters
  currentBatch : CurrentBatch
  state : State
  unstakeWaitList : WaitList
  unstakeHistory : ExtTreeMap ℕ UnstakeHistory
  pendingDelegation : PendingDelegation

/-- `StakeType`. -/
inductive StakeType
  | lstMint
  | stakeRewards
  deriving DecidableEq, Repr

/-- `UnstakeType`. -/
inductive UnstakeType
  | burnFlow
  | burnFromFlow
  deriving DecidableEq, Repr

/-- `read_unstake_history`. -/
def readUnstakeHistory (st : Storage) (epochId : ℕ) : Exec UnstakeHistory :=
  okOr st.unstakeHistory[epochId]? HubError.unstakeHistoryNotFound.fault

/-- `process_finished_amount`: what the listed entries are worth, and the
batches they are in; batches that are not released, or unknown, are passed over. -/
def processFinishedAmount (st : Storage) (waitList : List (ℕ × ℕ)) : Exec (ℕ × List ℕ) :=
  waitList.foldlM (fun (acc : ℕ × List ℕ) (entry : ℕ × ℕ) =>
    match readUnstakeHistory st entry.1 with
    | .ok history =>
      if history.released then do
        let amount ← decimalMultiplication entry.2 history.lstAppliedExchangeRate
        let withdrawableAmount ← strictAdd 128 acc.1 amount
        return (withdrawableAmount, acc.2 ++ [entry.1])
      else return acc
    | .error _ => return acc) (0, [])

/-- The entries of one user, by batch: `prefix(sender).range(Ascending)`. -/
def userEntries (waitList : WaitList) (sender : Addr) : List (ℕ × ℕ) :=
  (waitList.toList.filter fun e => e.1.1 = sender).map fun e => (e.1.2, e.2)

/-- The entries of one user at the listed batches, in the order of the list. -/
def listedEntries (waitList : WaitList) (sender : Addr) (batchIds : List ℕ) : List (ℕ × ℕ) :=
  batchIds.filterMap fun batchId => waitList[(sender, batchId)]?.map fun amount => (batchId, amount)

/-- `get_finished_amount`. -/
def getFinishedAmount (st : Storage) (sender : Addr) : Exec (ℕ × List ℕ) :=
  processFinishedAmount st (userEntries st.unstakeWaitList sender)

/-- `get_finished_amount_for_batches`. -/
def getFinishedAmountForBatches (st : Storage) (sender : Addr) (batchIds : List ℕ) :
    Exec (ℕ × List ℕ) :=
  processFinishedAmount st (listedEntries st.unstakeWaitList sender batchIds)

/-- `remove_unstake_wait_list`. -/
def removeUnstakeWaitList (st : Storage) (batchIds : List ℕ) (sender : Addr) : Storage :=
  { st with
    unstakeWaitList :=
      batchIds.foldl (fun m batchId => m.erase (sender, batchId)) st.unstakeWaitList }

/-- `update_state`. -/
def updateState (st : Storage) (oldState newState : State) : Storage × List Event :=
  ({ st with state := newState },
    [.lstExchangeRateUpdated oldState.lstExchangeRate newState.lstExchangeRate,
     .totalStakedAmountUpdated oldState.totalStakedAmount newState.totalStakedAmount])

/-- `get_pending_delegation_amount`: the pending staking and unstaking amounts. -/
def getPendingDelegationAmount (st : Storage) (env : Env) : Exec (ℕ × ℕ) := do
  let pending := st.pendingDelegation
  let passedBlocks ← strictSub env.block.height pending.stakingEpochStartBlockHeight
  if passedBlocks < pending.stakingEpochLengthBlocks then
    return (pending.pendingStakingAmount, pending.pendingUnstakingAmount)
  else return (0, 0)

/-- `update_pending_delegation_amount`. -/
def updatePendingDelegationAmount (st : Storage) (env : Env)
    (stakingAmount unstakingAmount : Option ℕ) : Exec Storage := do
  let pending := st.pendingDelegation
  let passedBlocks ← strictSub env.block.height pending.stakingEpochStartBlockHeight
  if passedBlocks < pending.stakingEpochLengthBlocks then do
    let staking ← strictAdd 128 pending.pendingStakingAmount (stakingAmount.getD 0)
    let unstaking ← strictAdd 128 pending.pendingUnstakingAmount (unstakingAmount.getD 0)
    return { st with pendingDelegation :=
      { pending with pendingStakingAmount := staking, pendingUnstakingAmount := unstaking } }
  else do
    let epochsPassed ← strictDiv passedBlocks pending.stakingEpochLengthBlocks
    let advance ← strictMul 64 epochsPassed pending.stakingEpochLengthBlocks
    let start ← strictAdd 64 pending.stakingEpochStartBlockHeight advance
    return { st with pendingDelegation :=
      { pending with
        pendingStakingAmount := stakingAmount.getD 0
        pendingUnstakingAmount := unstakingAmount.getD 0
        stakingEpochStartBlockHeight := start } }

/-! ### What an entry pays -/

/-- The batch is closed and released. -/
def Storage.released (st : Storage) (batchId : ℕ) : Bool :=
  match st.unstakeHistory[batchId]? with
  | some history => history.released
  | none => false

/-- What an entry of `amount` in the batch pays now: its worth at the applied
rate once the batch is released, nothing before. -/
def Storage.payout (st : Storage) (batchId amount : ℕ) : ℕ :=
  match st.unstakeHistory[batchId]? with
  | some history => if history.released then history.lstAppliedExchangeRate.mulFloor amount else 0
  | none => 0

theorem Storage.payout_of_not_released {st : Storage} {b w : ℕ} (h : st.released b = false) :
    st.payout b w = 0 := by
  unfold Storage.released at h
  unfold Storage.payout
  cases hb : st.unstakeHistory[b]? with
  | none => rfl
  | some history =>
    rw [hb] at h
    simp only at h
    simp [h]

/-- **What `process_finished_amount` returns**: the sum of the payouts of the
listed entries, each as often as it is listed, and the released batches of the
list; it panics where the sum does not fit. -/
theorem processFinishedAmount_eq_ok {st : Storage} {l : List (ℕ × ℕ)} {r : ℕ × List ℕ} :
    processFinishedAmount st l = .ok r ↔
      (l.map fun e => st.payout e.1 e.2).sum < 2 ^ 128 ∧
      ((l.map fun e => st.payout e.1 e.2).sum, (l.filter fun e => st.released e.1).map (·.1)) =
        r := by
  let next (acc : ℕ × List ℕ) (e : ℕ × ℕ) : ℕ × List ℕ :=
    (acc.1 + st.payout e.1 e.2, if st.released e.1 then acc.2 ++ [e.1] else acc.2)
  have hfold : ∀ (l : List (ℕ × ℕ)) (acc : ℕ × List ℕ), l.foldl next acc =
      (acc.1 + (l.map fun e => st.payout e.1 e.2).sum,
        acc.2 ++ (l.filter fun e => st.released e.1).map (·.1)) := by
    intro l
    induction l with
    | nil => simp
    | cons e l ih =>
      intro acc
      rw [List.foldl_cons, ih]
      by_cases hr : st.released e.1 = true
      · simp [next, hr, Nat.add_assoc]
      · simp [next, hr, Nat.add_assoc]
  unfold processFinishedAmount
  rw [foldlM_eq_ok_of_bounded (v := Prod.fst) (w := fun e => st.payout e.1 e.2) (g := next)
    (b := 2 ^ 128) ?_ (fun _ _ => rfl) l (by simp), hfold]
  · simp
  · intro acc e t hacc
    unfold readUnstakeHistory
    cases hb : st.unstakeHistory[e.1]? with
    | none =>
      simp only [okOr, next, Storage.payout, Storage.released, hb, pure_eq_ok, Nat.add_zero,
        Bool.false_eq_true, if_false, hacc, true_and]
    | some history =>
      cases hr : history.released with
      | false =>
        simp only [okOr, next, Storage.payout, Storage.released, hb, hr, pure_eq_ok, Nat.add_zero,
          Bool.false_eq_true, if_false, hacc, true_and]
      | true =>
        simp only [okOr, next, Storage.payout, Storage.released, hb, hr, if_true, bind_eq_ok,
          decimalMultiplication_eq_ok, strictAdd_eq_ok, pure_eq_ok]
        constructor
        · rintro ⟨_, ⟨-, rfl⟩, _, ⟨hlt, rfl⟩, rfl⟩
          exact ⟨hlt, rfl⟩
        · rintro ⟨hlt, rfl⟩
          exact ⟨_, ⟨by omega, rfl⟩, _, ⟨hlt, rfl⟩, rfl⟩

/-! ### The pending amounts -/

/-- The pending amounts of the epoch that `height` lies in. -/
def PendingDelegation.current (p : PendingDelegation) (height : ℕ) : ℕ × ℕ :=
  if height - p.stakingEpochStartBlockHeight < p.stakingEpochLengthBlocks then
    (p.pendingStakingAmount, p.pendingUnstakingAmount)
  else (0, 0)

@[simp] theorem getPendingDelegationAmount_eq_ok {st : Storage} {env : Env} {r : ℕ × ℕ} :
    getPendingDelegationAmount st env = .ok r ↔
      st.pendingDelegation.stakingEpochStartBlockHeight ≤ env.block.height ∧
        st.pendingDelegation.current env.block.height = r := by
  simp only [getPendingDelegationAmount, PendingDelegation.current, bind_eq_ok, strictSub_eq_ok]
  constructor
  · rintro ⟨_, ⟨hle, rfl⟩, h⟩
    refine ⟨hle, ?_⟩
    split_ifs at h ⊢ <;> exact pure_eq_ok.1 h
  · rintro ⟨hle, rfl⟩
    refine ⟨_, ⟨hle, rfl⟩, ?_⟩
    split_ifs <;> rfl

/-- The start of the record after a write at `height`. -/
def PendingDelegation.rolledStart (p : PendingDelegation) (height : ℕ) : ℕ :=
  p.stakingEpochStartBlockHeight +
    (height - p.stakingEpochStartBlockHeight) / p.stakingEpochLengthBlocks *
      p.stakingEpochLengthBlocks

/-- **One write of the pending amounts**, from the record `p` to the record `p'`:
it adds `s` and `u` to those of the current epoch, and moves the start of the
record into it. -/
structure PendingDelegation.Written (p p' : PendingDelegation) (height s u : ℕ) : Prop where
  start_le : p.stakingEpochStartBlockHeight ≤ height
  length_pos : 0 < p.stakingEpochLengthBlocks
  length_eq : p'.stakingEpochLengthBlocks = p.stakingEpochLengthBlocks
  start_eq : p'.stakingEpochStartBlockHeight = p.rolledStart height
  staking_eq : p'.pendingStakingAmount = (p.current height).1 + s
  unstaking_eq : p'.pendingUnstakingAmount = (p.current height).2 + u

theorem updatePendingDelegationAmount_ok {st st' : Storage} {env : Env} {s u : Option ℕ}
    (h : updatePendingDelegationAmount st env s u = .ok st') :
    ∃ p, st' = { st with pendingDelegation := p } ∧
      st.pendingDelegation.Written p env.block.height (s.getD 0) (u.getD 0) := by
  simp only [updatePendingDelegationAmount, bind_eq_ok, strictSub_eq_ok] at h
  obtain ⟨_, ⟨hle, rfl⟩, h⟩ := h
  split_ifs at h with hin
  · simp only [bind_eq_ok, strictAdd_eq_ok, pure_eq_ok] at h
    obtain ⟨_, ⟨-, rfl⟩, _, ⟨-, rfl⟩, rfl⟩ := h
    refine ⟨_, rfl, hle, by omega, rfl, ?_, ?_, ?_⟩
    · simp [PendingDelegation.rolledStart, Nat.div_eq_of_lt hin]
    · simp [PendingDelegation.current, hin]
    · simp [PendingDelegation.current, hin]
  · simp only [bind_eq_ok, strictDiv_eq_ok, strictMul_eq_ok, strictAdd_eq_ok, pure_eq_ok] at h
    obtain ⟨_, ⟨hlen, rfl⟩, _, ⟨-, rfl⟩, _, ⟨-, rfl⟩, rfl⟩ := h
    refine ⟨_, rfl, hle, Nat.pos_of_ne_zero hlen, rfl, rfl, ?_, ?_⟩
    · simp [PendingDelegation.current, hin]
    · simp [PendingDelegation.current, hin]

/-- The record written starts in the current epoch. -/
theorem PendingDelegation.Written.inside {p p' : PendingDelegation} {height s u : ℕ}
    (h : p.Written p' height s u) :
    p'.stakingEpochStartBlockHeight ≤ height ∧
      height - p'.stakingEpochStartBlockHeight < p'.stakingEpochLengthBlocks := by
  have hroll := aligned_roll h.length_pos (aligned_origin _ _) h.start_le
  rw [h.start_eq, h.length_eq]
  exact ⟨hroll.2.1, hroll.2.2⟩

/-- What a write leaves to be read at the same height. -/
theorem PendingDelegation.Written.current_eq {p p' : PendingDelegation} {height s u : ℕ}
    (h : p.Written p' height s u) :
    p'.current height = ((p.current height).1 + s, (p.current height).2 + u) := by
  rw [PendingDelegation.current, if_pos h.inside.2, h.staking_eq, h.unstaking_eq]

end Hub
end BabyLst
