/-
# Withdrawals after one another

Every withdrawal first does what `execute_process_withdraw_requests` does, and
then pays.  Once the hub is `Settled`, the release has nothing left to do: the
free balance is the unclaimed one and what the release left, which is too little
for the next batch, or the next batch is too young.  A payment takes the same
amount from the free and from the unclaimed balance, so it leaves the hub
settled with the same rest; what two users are paid does not depend on who comes
first.
-/

import BabyLst.Hub.Claims
import BabyLst.Hub.Release

namespace BabyLst
namespace Hub

open Lib Std

/-- **The release has nothing left to do**, with `left` over. -/
structure Settled (q : Querier) (st : Storage) (env : Env) (left : ℕ) : Prop where
  late : st.parameters.unstakingPeriod ≤ env.block.time
  free_eq : actualFreeBalance q st env = .ok (st.state.unclaimedUnstakedBalance + left)
  last_lt : st.state.lastProcessedBatch + 1 < 2 ^ 64
  stops : StopsAt (env.block.time - st.parameters.unstakingPeriod) left
    st.unstakeHistory[st.state.lastProcessedBatch + 1]?

/-- **A release that stops at the first batch** changes nothing, and leaves all
it could spend. -/
theorem processWithdrawRate_of_stopsAt {st : Storage} {cutoff left : ℕ}
    (last_lt : st.state.lastProcessedBatch + 1 < 2 ^ 64)
    (stops : StopsAt cutoff left st.unstakeHistory[st.state.lastProcessedBatch + 1]?) :
    processWithdrawRate st cutoff (st.state.unclaimedUnstakedBalance + left) =
      .ok (st, [], left) := by
  have hsub : checkedSub (st.state.unclaimedUnstakedBalance + left)
      st.state.unclaimedUnstakedBalance = .ok left := checkedSub_eq_ok.2 ⟨by omega, by omega⟩
  have hstart : strictAdd 64 st.state.lastProcessedBatch 1 =
    .ok (st.state.lastProcessedBatch + 1) := strictAdd_eq_ok.2 ⟨last_lt, rfl⟩
  unfold processWithdrawRate getUnprocessedHistories
  rw [bind_ok hsub, bind_ok hstart, bind_ok (unprocessedLoop_of_stopsAt stops _)]
  rfl

/-- A release of a settled hub changes nothing. -/
theorem Settled.rate {q : Querier} {st : Storage} {env : Env} {left : ℕ}
    (h : Settled q st env left) :
    processWithdrawRate st (env.block.time - st.parameters.unstakingPeriod)
      (st.state.unclaimedUnstakedBalance + left) = .ok (st, [], left) :=
  processWithdrawRate_of_stopsAt h.last_lt h.stops

/-- `execute_process_withdraw_requests` where the release goes through: what is not
left is unclaimed. -/
theorem executeProcessWithdrawRequests_eq {q : Querier} {st st₁ : Storage} {env : Env}
    {free left : ℕ} {events : List Event} (late : st.parameters.unstakingPeriod ≤ env.block.time)
    (free_eq : actualFreeBalance q st env = .ok free)
    (rate : processWithdrawRate st (env.block.time - st.parameters.unstakingPeriod) free =
      .ok (st₁, events, left)) (left_le : left ≤ free) :
    ∃ res, executeProcessWithdrawRequests q st env =
      .ok ({ st₁ with state := { st₁.state with unclaimedUnstakedBalance := free - left } }, res) ∧
      res.messages = [] := by
  have hcutoff : strictSub env.block.time st.parameters.unstakingPeriod =
    .ok (env.block.time - st.parameters.unstakingPeriod) := strictSub_eq_ok.2 ⟨late, rfl⟩
  have hsub : checkedSub free left = .ok (free - left) := checkedSub_eq_ok.2 ⟨left_le, rfl⟩
  unfold executeProcessWithdrawRequests
  rw [bind_ok hcutoff, bind_ok free_eq, bind_ok rate]
  dsimp only
  rw [bind_ok hsub]
  exact ⟨_, rfl, rfl⟩

/-- It changes nothing in a settled hub. -/
theorem Settled.process {q : Querier} {st : Storage} {env : Env} {left : ℕ}
    (h : Settled q st env left) :
    ∃ res, executeProcessWithdrawRequests q st env = .ok (st, res) ∧ res.messages = [] := by
  have hprocess := executeProcessWithdrawRequests_eq h.late h.free_eq h.rate (Nat.le_add_left ..)
  rw [Nat.add_sub_cancel] at hprocess
  exact hprocess

/-- Of the outside only the hub's balance matters. -/
theorem Settled.congr {q q' : Querier} {st : Storage} {env : Env} {left : ℕ}
    (h : Settled q st env left) (same : q'.balance env.contract st.parameters.stakingCoinDenom =
      q.balance env.contract st.parameters.stakingCoinDenom) : Settled q' st env left := by
  refine ⟨h.late, ?_, h.last_lt, h.stops⟩
  have hfree := h.free_eq
  rw [actualFreeBalance_eq_ok] at hfree ⊢
  rw [same]
  exact hfree

/-- Where a release stops: the next one stops there as well. -/
theorem processWithdrawRate_stops {st st' : Storage} {cutoff free left : ℕ} {events : List Event}
    (h : processWithdrawRate st cutoff free = .ok (st', events, left)) :
    st'.state.lastProcessedBatch + 1 < 2 ^ 64 ∧
      StopsAt cutoff left st'.unstakeHistory[st'.state.lastProcessedBatch + 1]? := by
  obtain ⟨-, hlast, released, hloop, rfl⟩ := processWithdrawRate_loop h
  obtain ⟨hlt, hstops⟩ := unprocessedLoop_stops _ hlast hloop
  have hnext : st.state.lastProcessedBatch + released.length + 1 =
    st.state.lastProcessedBatch + 1 + released.length := by omega
  show st.state.lastProcessedBatch + released.length + 1 < 2 ^ 64 ∧
    StopsAt cutoff left
      (st.afterRelease released).unstakeHistory[st.state.lastProcessedBatch + released.length + 1]?
  rw [(unprocessedLoop_ok _ hloop).getElem?, if_neg (by omega), hnext]
  exact ⟨hlt, hstops⟩

/-- **After `execute_process_withdraw_requests` the hub is settled.** -/
theorem executeProcessWithdrawRequests_settles {q : Querier} {st st' : Storage} {env : Env}
    {res : Response} (h : executeProcessWithdrawRequests q st env = .ok (st', res)) :
    ∃ st₁ events free left,
      actualFreeBalance q st env = .ok free ∧ st.parameters.unstakingPeriod ≤ env.block.time ∧
      processWithdrawRate st (env.block.time - st.parameters.unstakingPeriod) free =
        .ok (st₁, events, left) ∧ left ≤ free ∧
      st' = { st₁ with state := { st₁.state with unclaimedUnstakedBalance := free - left } } ∧
      res.messages = [] ∧ Settled q st' env left := by
  simp only [executeProcessWithdrawRequests, bind_eq_ok, strictSub_eq_ok, Prod.exists,
    checkedSub_eq_ok, pure_eq_ok, Prod.mk.injEq] at h
  obtain ⟨_, ⟨late, rfl⟩, free, hfree, st₁, events, left, hrate, _, ⟨hleft, rfl⟩, rfl, rfl⟩ := h
  obtain ⟨hlt, hstops⟩ := processWithdrawRate_stops hrate
  obtain ⟨-, released, rfl, -⟩ := processWithdrawRate_ok hrate
  refine ⟨_, events, free, left, hfree, late, hrate, hleft, rfl, rfl, late, ?_, hlt, hstops⟩
  dsimp only
  rw [Nat.sub_add_cancel hleft]
  rw [actualFreeBalance_eq_ok] at hfree ⊢
  exact hfree

/-! ### A payment of a settled hub -/

/-- The storage after a user is paid and the paid entries are deleted. -/
def Storage.afterPayout (st : Storage) (user : Addr) : Storage :=
  { removeUnstakeWaitList st (st.finishedBatches user none) user with
    state := { st.state with
      unclaimedUnstakedBalance := st.state.unclaimedUnstakedBalance - st.withdrawal user none } }

/-- The storage after a user is paid for a list of batches, or for all. -/
def Storage.afterPayoutFor (st : Storage) (user : Addr) (batchIds : Option (List ℕ)) : Storage :=
  { removeUnstakeWaitList st (st.finishedBatches user batchIds) user with
    state := { st.state with
      unclaimedUnstakedBalance :=
        st.state.unclaimedUnstakedBalance - st.withdrawal user batchIds } }

/-- **A withdrawal settles the hub and pays**: it succeeds if something is due to
the user and the unclaimed balance is enough for it. -/
theorem executeWithdrawUnstakedImpl_settled {q : Querier} {st st' : Storage} {env : Env}
    {res : Response} (h : executeProcessWithdrawRequests q st env = .ok (st', res))
    (info : MessageInfo) (batchIds : Option (List ℕ)) {r : Storage × List CosmosMsg} :
    (∃ res', executeWithdrawUnstakedImpl q st env info batchIds = .ok (r.1, res') ∧
      res'.messages = r.2) ↔
      st'.withdrawal info.sender batchIds ≠ 0 ∧ st'.withdrawal info.sender batchIds < 2 ^ 128 ∧
      st'.withdrawal info.sender batchIds ≤ st'.state.unclaimedUnstakedBalance ∧
      r = (st'.afterPayoutFor info.sender batchIds, [.bankSend info.sender
        ⟨st'.parameters.stakingCoinDenom, st'.withdrawal info.sender batchIds⟩]) := by
  obtain ⟨st₁, events, free, left, hfree, late, hrate, hleft, rfl, -, -⟩ :=
    executeProcessWithdrawRequests_settles h
  obtain ⟨-, released, rfl, -⟩ := processWithdrawRate_ok hrate
  set st₁ := st.afterRelease released with hst₁
  rw [executeWithdrawUnstakedImpl_eq late hfree hrate]
  simp only [bind_eq_ok, finishedAmount_eq_ok, require_eq_ok, checkedSub_eq_ok, pure_eq_ok,
    Prod.mk.injEq]
  have hcomm : free - left - st₁.withdrawal info.sender batchIds =
    free - st₁.withdrawal info.sender batchIds - left := Nat.sub_right_comm ..
  constructor
  · rintro ⟨_, ⟨_, ⟨hfits, rfl⟩, _, hpos, _, ⟨hle, rfl⟩, _, ⟨hle', rfl⟩, hst, rfl⟩, hmessages⟩
    refine ⟨hpos, hfits, ?_, Prod.ext (hst.symm.trans ?_) hmessages.symm⟩
    · show st₁.withdrawal info.sender batchIds ≤ free - left
      dsimp only at hle hle'
      omega
    · rw [← hcomm]
      rfl
  · rintro ⟨hpos, hfits, hle, rfl⟩
    change st₁.withdrawal info.sender batchIds ≤ free - left at hle
    refine ⟨_, ⟨_, ⟨hfits, rfl⟩, (), hpos, _, ⟨?_, rfl⟩, _, ⟨?_, rfl⟩, ?_, rfl⟩, rfl⟩
    · dsimp only
      omega
    · dsimp only
      omega
    · dsimp only
      rw [← hcomm]
      rfl

/-- **Only a hub that can release can pay**: where
`execute_process_withdraw_requests` fails, so does a withdrawal. -/
theorem executeWithdrawUnstakedImpl_releases {q : Querier} {st st' : Storage} {env : Env}
    {info : MessageInfo} {batchIds : Option (List ℕ)} {res : Response}
    (h : executeWithdrawUnstakedImpl q st env info batchIds = .ok (st', res)) :
    ∃ r, executeProcessWithdrawRequests q st env = .ok r := by
  simp only [executeWithdrawUnstakedImpl, bind_eq_ok, Prod.exists, strictSub_eq_ok,
    checkedSub_eq_ok] at h
  obtain ⟨_, ⟨late, rfl⟩, free, hfree, st₁, events, left, hrate, amount, bs, -, _, -, _,
    ⟨-, rfl⟩, _, ⟨hle, -⟩, -⟩ := h
  obtain ⟨res, hprocess, -⟩ := executeProcessWithdrawRequests_eq late hfree hrate (by omega)
  exact ⟨_, hprocess⟩

/-- A payment leaves the hub settled, with the same rest. -/
theorem Settled.afterPayoutFor {q q' : Querier} {st : Storage} {env : Env} {left : ℕ}
    (h : Settled q st env left) {user : Addr} {batchIds : Option (List ℕ)}
    (enough : st.withdrawal user batchIds ≤ st.state.unclaimedUnstakedBalance)
    (paid : q'.balance env.contract st.parameters.stakingCoinDenom =
      q.balance env.contract st.parameters.stakingCoinDenom - st.withdrawal user batchIds) :
    Settled q' (st.afterPayoutFor user batchIds) env left := by
  refine ⟨h.late, ?_, h.last_lt, h.stops⟩
  obtain ⟨hstart, hpending, hfree⟩ := actualFreeBalance_eq_ok.1 h.free_eq
  have hbalance : q'.balance env.contract
    (st.afterPayoutFor user batchIds).parameters.stakingCoinDenom = _ := paid
  refine actualFreeBalance_eq_ok.2 ⟨hstart, ?_, ?_⟩
  · show (st.pendingDelegation.current env.block.height).1 ≤ _
    rw [hbalance]
    omega
  · show _ - (st.pendingDelegation.current env.block.height).1 =
      st.state.unclaimedUnstakedBalance - st.withdrawal user batchIds + left
    rw [hbalance]
    omega

/-! ### Two payments -/

variable {user user' : Addr}

/-- What is deleted for one user is not what another has. -/
theorem userEntries_afterPayout (st : Storage) (ne : user ≠ user') :
    userEntries (st.afterPayout user).unstakeWaitList user' =
      userEntries st.unstakeWaitList user' := by
  unfold userEntries
  refine congrArg (List.map _) (filter_toList_congr fun k amount hk => ?_)
  have hk' : k.1 = user' := by simpa using hk
  show (removeUnstakeWaitList st _ user).unstakeWaitList[k]? = _ ↔ _
  rw [removeUnstakeWaitList_getElem?, if_neg fun h => ne (h.1.symm.trans hk')]

/-- **What one user is paid does not change what another is due.** -/
theorem withdrawal_afterPayout (st : Storage) (ne : user ≠ user') :
    (st.afterPayout user).withdrawal user' none = st.withdrawal user' none ∧
      (st.afterPayout user).finishedBatches user' none = st.finishedBatches user' none := by
  unfold Storage.withdrawal Storage.finishedBatches requestedEntries
  dsimp only
  rw [userEntries_afterPayout st ne]
  exact ⟨rfl, rfl⟩

/-- **Two payments commute.** -/
theorem afterPayout_comm (st : Storage) (ne : user ≠ user') :
    (st.afterPayout user).afterPayout user' = (st.afterPayout user').afterPayout user := by
  obtain ⟨hworth, hbatches⟩ := withdrawal_afterPayout st ne
  obtain ⟨hworth', hbatches'⟩ := withdrawal_afterPayout st ne.symm
  have hwaitList : ((st.afterPayout user).afterPayout user').unstakeWaitList =
      ((st.afterPayout user').afterPayout user).unstakeWaitList := by
    refine ExtTreeMap.ext_getElem? fun k => ?_
    show (removeUnstakeWaitList _ _ user').unstakeWaitList[k]? =
      (removeUnstakeWaitList _ _ user).unstakeWaitList[k]?
    rw [removeUnstakeWaitList_getElem?, removeUnstakeWaitList_getElem?, hbatches, hbatches']
    show (if _ then _ else (removeUnstakeWaitList st _ user).unstakeWaitList[k]?) =
      if _ then _ else (removeUnstakeWaitList st _ user').unstakeWaitList[k]?
    rw [removeUnstakeWaitList_getElem?, removeUnstakeWaitList_getElem?]
    split_ifs <;> rfl
  have hunclaimed : ((st.afterPayout user).afterPayout user').state.unclaimedUnstakedBalance =
      ((st.afterPayout user').afterPayout user).state.unclaimedUnstakedBalance := by
    show _ - _ - (st.afterPayout user).withdrawal user' none =
      _ - _ - (st.afterPayout user').withdrawal user none
    rw [hworth, hworth', Nat.sub_right_comm]
  calc (st.afterPayout user).afterPayout user'
      = { st with
          unstakeWaitList := ((st.afterPayout user).afterPayout user').unstakeWaitList
          state := { st.state with
            unclaimedUnstakedBalance :=
              ((st.afterPayout user).afterPayout user').state.unclaimedUnstakedBalance } } := rfl
    _ = { st with
          unstakeWaitList := ((st.afterPayout user').afterPayout user).unstakeWaitList
          state := { st.state with
            unclaimedUnstakedBalance :=
              ((st.afterPayout user').afterPayout user).state.unclaimedUnstakedBalance } } := by
      rw [hwaitList, hunclaimed]
    _ = (st.afterPayout user').afterPayout user := rfl

end Hub
end BabyLst
