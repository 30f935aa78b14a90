/-
# Releasing batches and withdrawing

`execute_process_withdraw_requests`, `process_withdraw_rate`,
`get_unprocessed_histories` and `execute_withdraw_unstaked_impl` of
`contracts/lst_staking_hub/src/unstake.rs`.

The hub's bank balance less the pending stake is its free balance, and what of
that is not `unclaimed_unstaked_balance` may release further batches: in order,
from the one after `last_processed_batch`, as long as each is old enough and
affordable.  A withdrawal first releases, then pays the caller's entries of
released batches, deletes them, and recomputes `unclaimed_unstaked_balance` as
the free balance less the payment and less what is left over.

`Release` is what one run of the release loop does.
-/

import BabyLst.Hub.State

namespace BabyLst
namespace Hub

open Lib Std

/-- The loop of `get_unprocessed_histories`, for at most the given number of
rounds: the batches to release from `batchId` on, and the balance left. -/
def unprocessedLoop (unstakeHistory : ExtTreeMap ℕ UnstakeHistory) (cutoff : ℕ) :
    ℕ → ℕ → ℕ → Exec (List (ℕ × UnstakeHistory) × ℕ)
  | 0, _, _ => .error .diverges
  | rounds + 1, batchId, remaining =>
    match unstakeHistory[batchId]? with
    | none => return ([], remaining)
    | some h =>
      if h.time > cutoff then return ([], remaining)
      else if h.released then return ([], remaining)
      else do
        let required ← decimalMultiplication h.lstTokenAmount h.lstWithdrawRate
        if remaining ≥ required then do
          let remaining ← checkedSub remaining required
          let next ← strictAdd 64 batchId 1
          let (histories, remaining) ← unprocessedLoop unstakeHistory cutoff rounds next remaining
          return ((batchId, h) :: histories, remaining)
        else return ([], remaining)

/-- `get_unprocessed_histories`.  A round goes on only from a batch that is in
the map, so one round more than the map has entries is enough. -/
def getUnprocessedHistories (st : Storage) (startBatch cutoff contractBalance : ℕ) :
    Exec (List (ℕ × UnstakeHistory) × ℕ) := do
  let batchId ← strictAdd 64 startBatch 1
  unprocessedLoop st.unstakeHistory cutoff (st.unstakeHistory.size + 1) batchId contractBalance

/-- The history with its `released` flag set. -/
def UnstakeHistory.release (h : UnstakeHistory) : UnstakeHistory := { h with released := true }

/-- The loop of `process_withdraw_rate`: the listed histories are saved as
released, and the last of them is the last processed batch. -/
def releaseAll (acc : ExtTreeMap ℕ UnstakeHistory × ℕ) (histories : List (ℕ × UnstakeHistory)) :
    ExtTreeMap ℕ UnstakeHistory × ℕ :=
  histories.foldl (fun acc e => (acc.1.insert e.1 e.2.release, e.1)) acc

/-- `process_withdraw_rate`. -/
def processWithdrawRate (st : Storage) (cutoff hubBalance : ℕ) :
    Exec (Storage × List Event × ℕ) := do
  let state := st.state
  let totalUnstaked ← checkedSub hubBalance state.unclaimedUnstakedBalance
  let (histories, leftOver) ←
    getUnprocessedHistories st state.lastProcessedBatch cutoff totalUnstaked
  if histories = [] then return (st, [], leftOver)
  else do
    let (unstakeHistory, last) := releaseAll (st.unstakeHistory, state.lastProcessedBatch) histories
    let (st, events) := updateState { st with unstakeHistory := unstakeHistory } state
      { state with lastProcessedBatch := last }
    return (st, events, leftOver)

/-- The hub's bank balance less the pending stake. -/
def actualFreeBalance (q : Querier) (st : Storage) (env : Env) : Exec ℕ := do
  let hubBalance := q.balance env.contract st.parameters.stakingCoinDenom
  let (pendingStaking, _) ← getPendingDelegationAmount st env
  checkedSub hubBalance pendingStaking

/-- The storage as a withdrawal finds it, once it has released what it can: the
first half of `execute_withdraw_unstaked_impl`. -/
def atWithdrawal (q : Querier) (st : Storage) (env : Env) : Exec Storage := do
  let cutoff ← strictSub env.block.time st.parameters.unstakingPeriod
  let free ← actualFreeBalance q st env
  let (st, _, _) ← processWithdrawRate st cutoff free
  return st

/-- `execute_process_withdraw_requests`. -/
def executeProcessWithdrawRequests (q : Querier) (st : Storage) (env : Env) :
    Exec (Storage × Response) := do
  let cutoff ← strictSub env.block.time st.parameters.unstakingPeriod
  let free ← actualFreeBalance q st env
  let (st, events, leftOver) ← processWithdrawRate st cutoff free
  let unclaimed ← checkedSub free leftOver
  return ({ st with state := { st.state with unclaimedUnstakedBalance := unclaimed } },
    { events := events
      attributes := [("action", .text "process_withdraw_requests")] })

/-- The entries a withdrawal looks at. -/
def requestedEntries (waitList : WaitList) (sender : Addr) : Option (List ℕ) → List (ℕ × ℕ)
  | some batchIds => listedEntries waitList sender batchIds
  | none => userEntries waitList sender

/-- The amount to pay and the batches it is from: `get_finished_amount`, or
`get_finished_amount_for_batches` for a list of batches. -/
def finishedAmount (st : Storage) (sender : Addr) (batchIds : Option (List ℕ)) :
    Exec (ℕ × List ℕ) :=
  match batchIds with
  | some ids => getFinishedAmountForBatches st sender ids
  | none => getFinishedAmount st sender

/-- `execute_withdraw_unstaked_impl`. -/
def executeWithdrawUnstakedImpl (q : Querier) (st : Storage) (env : Env) (info : MessageInfo)
    (batchIds : Option (List ℕ)) : Exec (Storage × Response) := do
  let denom := st.parameters.stakingCoinDenom
  let cutoff ← strictSub env.block.time st.parameters.unstakingPeriod
  let free ← actualFreeBalance q st env
  let (st, events, leftOver) ← processWithdrawRate st cutoff free
  let (withdrawAmount, deprecated) ← finishedAmount st info.sender batchIds
  require (withdrawAmount ≠ 0) HubError.noWithdrawableAssets.fault
  let st := removeUnstakeWaitList st deprecated info.sender
  let unclaimed ← checkedSub free withdrawAmount
  let unclaimed ← checkedSub unclaimed leftOver
  return ({ st with state := { st.state with unclaimedUnstakedBalance := unclaimed } },
    { messages := [.bankSend info.sender ⟨denom, withdrawAmount⟩]
      events := events
      attributes := [("action", .text "finish_burn"), ("from", .text env.contract),
        ("amount", .number withdrawAmount)] })

/-- `execute_withdraw_unstaked`. -/
def executeWithdrawUnstaked (q : Querier) (st : Storage) (env : Env) (info : MessageInfo) :
    Exec (Storage × Response) :=
  executeWithdrawUnstakedImpl q st env info none

/-- `execute_withdraw_unstaked_for_batches`. -/
def executeWithdrawUnstakedForBatches (q : Querier) (st : Storage) (env : Env)
    (info : MessageInfo) (batchIds : List ℕ) : Exec (Storage × Response) :=
  executeWithdrawUnstakedImpl q st env info (some batchIds)

/-! ### The release -/

/-- What releasing a batch takes. -/
def UnstakeHistory.required (h : UnstakeHistory) : ℕ := h.lstWithdrawRate.mulFloor h.lstTokenAmount

/-- **One run of the release loop** from `last` on, with `balance` to spend: the
histories it releases and the balance it leaves. -/
structure Release (history : ExtTreeMap ℕ UnstakeHistory) (cutoff last balance : ℕ)
    (released : List (ℕ × UnstakeHistory)) (left : ℕ) : Prop where
  ids : released.map Prod.fst = List.range' (last + 1) released.length
  found : ∀ e ∈ released, history[e.1]? = some e.2 ∧ e.2.released = false ∧ e.2.time ≤ cutoff
  spent : (released.map fun e => e.2.required).sum + left = balance
  stopped : ∀ h, history[last + 1 + released.length]? = some h →
    h.released = false → h.time ≤ cutoff → left < h.required

theorem unprocessedLoop_ok {history : ExtTreeMap ℕ UnstakeHistory} {cutoff : ℕ} (rounds : ℕ) :
    ∀ {last balance left : ℕ} {released : List (ℕ × UnstakeHistory)},
      unprocessedLoop history cutoff rounds (last + 1) balance = .ok (released, left) →
      Release history cutoff last balance released left := by
  induction rounds with
  | zero =>
    intro last balance left released h
    simp [unprocessedLoop] at h
  | succ rounds ih =>
    intro last balance left released h
    unfold unprocessedLoop at h
    cases hb : history[last + 1]? with
    | none =>
      simp only [hb, pure_eq_ok, Prod.mk.injEq] at h
      obtain ⟨rfl, rfl⟩ := h
      exact ⟨rfl, by simp, by simp, by simp [hb]⟩
    | some e =>
      simp only [hb] at h
      split_ifs at h with htime hrel
      · rw [pure_eq_ok, Prod.mk.injEq] at h
        obtain ⟨rfl, rfl⟩ := h
        refine ⟨rfl, by simp, by simp, fun h' hh' _ ht => ?_⟩
        obtain rfl := Option.some.inj (hb.symm.trans hh')
        omega
      · rw [pure_eq_ok, Prod.mk.injEq] at h
        obtain ⟨rfl, rfl⟩ := h
        refine ⟨rfl, by simp, by simp, fun h' hh' hr _ => ?_⟩
        obtain rfl := Option.some.inj (hb.symm.trans hh')
        simp [hrel] at hr
      · simp only [bind_eq_ok, decimalMultiplication_eq_ok] at h
        obtain ⟨_, ⟨-, rfl⟩, h⟩ := h
        split_ifs at h with hreq
        · simp only [bind_eq_ok, checkedSub_eq_ok, strictAdd_eq_ok, Prod.exists, pure_eq_ok,
            Prod.mk.injEq] at h
          obtain ⟨_, ⟨hle, rfl⟩, _, ⟨-, rfl⟩, hs, l, hrec, rfl, rfl⟩ := h
          have hr := ih hrec
          refine ⟨?_, ?_, ?_, ?_⟩
          · rw [List.map_cons, hr.ids, List.length_cons, List.range'_succ]
          · intro x hx
            rcases List.mem_cons.1 hx with rfl | hx
            · refine ⟨hb, by simpa using hrel, ?_⟩
              dsimp only
              omega
            · exact hr.found x hx
          · have := hr.spent
            rw [List.map_cons, List.sum_cons]
            unfold UnstakeHistory.required at this ⊢
            dsimp only
            omega
          · intro h' hh'
            rw [List.length_cons] at hh'
            exact hr.stopped h' (by rw [← hh']; congr 1; omega)
        · rw [pure_eq_ok, Prod.mk.injEq] at h
          obtain ⟨rfl, rfl⟩ := h
          refine ⟨rfl, by simp, by simp, fun h' hh' _ _ => ?_⟩
          obtain rfl := Option.some.inj (hb.symm.trans hh')
          unfold UnstakeHistory.required
          omega

/-- The history after a release, entry by entry. -/
theorem releaseAll_getElem? {last : ℕ} (hs : List (ℕ × UnstakeHistory)) :
    ∀ {history : ExtTreeMap ℕ UnstakeHistory}, (hs.map Prod.fst).Nodup →
      (∀ e ∈ hs, history[e.1]? = some e.2) → ∀ b : ℕ,
      (releaseAll (history, last) hs).1[b]? =
        if b ∈ hs.map Prod.fst then history[b]?.map UnstakeHistory.release else history[b]? := by
  induction hs generalizing last with
  | nil =>
    intro history _ _ b
    simp [releaseAll]
  | cons e hs ih =>
    intro history hnodup hfound b
    rw [List.map_cons, List.nodup_cons] at hnodup
    have hrest : ∀ e' ∈ hs, (history.insert e.1 e.2.release)[e'.1]? = some e'.2 := by
      intro e' he'
      have hne : e.1 ≠ e'.1 := fun heq => hnodup.1 (heq ▸ List.mem_map_of_mem he')
      rw [ExtTreeMap.getElem?_insert, if_neg (by simpa using hne)]
      exact hfound e' (List.mem_cons_of_mem _ he')
    show (releaseAll (history.insert e.1 e.2.release, e.1) hs).1[b]? = _
    rw [ih hnodup.2 hrest b, ExtTreeMap.getElem?_insert, List.map_cons]
    by_cases hb : e.1 = b
    · subst hb
      have he := hfound e (List.mem_cons_self ..)
      simp [hnodup.1, he]
    · have hmem : b ∈ e.1 :: hs.map Prod.fst ↔ b ∈ hs.map Prod.fst := by
        rw [List.mem_cons, or_iff_right fun h => hb h.symm]
      have hne : ¬compare e.1 b = .eq := by simpa using hb
      rw [if_congr hmem rfl rfl, if_neg hne]

/-- The last processed batch after a release. -/
theorem releaseAll_last (hs : List (ℕ × UnstakeHistory)) :
    ∀ {history : ExtTreeMap ℕ UnstakeHistory} {last : ℕ},
      hs.map Prod.fst = List.range' (last + 1) hs.length →
      (releaseAll (history, last) hs).2 = last + hs.length := by
  induction hs with
  | nil =>
    intro history last _
    simp [releaseAll]
  | cons e hs ih =>
    intro history last hids
    rw [List.map_cons, List.length_cons, List.range'_succ, List.cons.injEq] at hids
    show (releaseAll (history.insert e.1 e.2.release, e.1) hs).2 = _
    rw [hids.1, ih hids.2, List.length_cons]
    omega

/-- The storage after a release. -/
def Storage.afterRelease (st : Storage) (released : List (ℕ × UnstakeHistory)) : Storage :=
  { st with
    unstakeHistory := (releaseAll (st.unstakeHistory, st.state.lastProcessedBatch) released).1
    state := { st.state with lastProcessedBatch := st.state.lastProcessedBatch + released.length } }

/-- `process_withdraw_rate` by its loop. -/
theorem processWithdrawRate_loop {st st' : Storage} {cutoff free left : ℕ} {events : List Event}
    (h : processWithdrawRate st cutoff free = .ok (st', events, left)) :
    st.state.unclaimedUnstakedBalance ≤ free ∧ st.state.lastProcessedBatch + 1 < 2 ^ 64 ∧
    ∃ released, unprocessedLoop st.unstakeHistory cutoff (st.unstakeHistory.size + 1)
        (st.state.lastProcessedBatch + 1) (free - st.state.unclaimedUnstakedBalance) =
          .ok (released, left) ∧ st' = st.afterRelease released := by
  simp only [processWithdrawRate, getUnprocessedHistories, bind_eq_ok, checkedSub_eq_ok,
    strictAdd_eq_ok, Prod.exists] at h
  obtain ⟨_, ⟨hle, rfl⟩, hs, l, ⟨_, ⟨hlast, rfl⟩, hloop⟩, h⟩ := h
  refine ⟨hle, hlast, hs, ?_⟩
  split_ifs at h with hnil
  · simp only [pure_eq_ok, Prod.mk.injEq] at h
    obtain ⟨rfl, -, rfl⟩ := h
    subst hnil
    exact ⟨hloop, rfl⟩
  · simp only [updateState, pure_eq_ok, Prod.mk.injEq] at h
    obtain ⟨rfl, -, rfl⟩ := h
    refine ⟨hloop, ?_⟩
    rw [Storage.afterRelease, releaseAll_last hs (unprocessedLoop_ok _ hloop).ids]

/-- **What `process_withdraw_rate` does.** -/
theorem processWithdrawRate_ok {st st' : Storage} {cutoff free left : ℕ} {events : List Event}
    (h : processWithdrawRate st cutoff free = .ok (st', events, left)) :
    st.state.unclaimedUnstakedBalance ≤ free ∧
    ∃ released, st' = st.afterRelease released ∧
      Release st.unstakeHistory cutoff st.state.lastProcessedBatch
        (free - st.state.unclaimedUnstakedBalance) released left := by
  obtain ⟨hle, -, released, hloop, heq⟩ := processWithdrawRate_loop h
  exact ⟨hle, released, heq, unprocessedLoop_ok _ hloop⟩

@[simp] theorem actualFreeBalance_eq_ok {q : Querier} {st : Storage} {env : Env} {free : ℕ} :
    actualFreeBalance q st env = .ok free ↔
      st.pendingDelegation.stakingEpochStartBlockHeight ≤ env.block.height ∧
      (st.pendingDelegation.current env.block.height).1 ≤
        q.balance env.contract st.parameters.stakingCoinDenom ∧
      q.balance env.contract st.parameters.stakingCoinDenom -
        (st.pendingDelegation.current env.block.height).1 = free := by
  simp only [actualFreeBalance, bind_eq_ok, getPendingDelegationAmount_eq_ok, Prod.exists,
    checkedSub_eq_ok]
  constructor
  · rintro ⟨ps, pu, ⟨hle, heq⟩, hps, rfl⟩
    rw [heq]
    exact ⟨hle, hps, rfl⟩
  · rintro ⟨hle, hps, rfl⟩
    exact ⟨_, _, ⟨hle, rfl⟩, hps, rfl⟩

/-- `execute_process_withdraw_requests` releases, and counts what it released as
unclaimed. -/
theorem executeProcessWithdrawRequests_ok {q : Querier} {st st' : Storage} {env : Env}
    {res : Response} (h : executeProcessWithdrawRequests q st env = .ok (st', res)) :
    ∃ free released left,
      actualFreeBalance q st env = .ok free ∧ st.parameters.unstakingPeriod ≤ env.block.time ∧
      st.state.unclaimedUnstakedBalance ≤ free ∧
      Release st.unstakeHistory (env.block.time - st.parameters.unstakingPeriod)
        st.state.lastProcessedBatch (free - st.state.unclaimedUnstakedBalance) released left ∧
      left ≤ free ∧
      st' = { st.afterRelease released with
        state := { (st.afterRelease released).state with
          unclaimedUnstakedBalance := free - left } } ∧
      res.messages = [] := by
  simp only [executeProcessWithdrawRequests, bind_eq_ok, strictSub_eq_ok, Prod.exists,
    checkedSub_eq_ok, pure_eq_ok, Prod.mk.injEq] at h
  obtain ⟨_, ⟨htime, rfl⟩, free, hfree, st₁, ev, left, hrate, _, ⟨hleft, rfl⟩, rfl, rfl⟩ := h
  obtain ⟨hun, released, rfl, hrel⟩ := processWithdrawRate_ok hrate
  exact ⟨free, released, left, hfree, htime, hun, hrel, hleft, rfl, rfl⟩

/-- What a withdrawal pays: the payouts of the entries it looks at, each as
often as it is looked at. -/
def Storage.withdrawal (st : Storage) (sender : Addr) (batchIds : Option (List ℕ)) : ℕ :=
  ((requestedEntries st.unstakeWaitList sender batchIds).map fun e => st.payout e.1 e.2).sum

/-- The batches a withdrawal deletes from the wait list of the caller. -/
def Storage.finishedBatches (st : Storage) (sender : Addr) (batchIds : Option (List ℕ)) : List ℕ :=
  ((requestedEntries st.unstakeWaitList sender batchIds).filter fun e => st.released e.1).map (·.1)

theorem finishedAmount_eq_ok {st : Storage} {sender : Addr} {batchIds : Option (List ℕ)}
    {r : ℕ × List ℕ} : finishedAmount st sender batchIds = .ok r ↔
      st.withdrawal sender batchIds < 2 ^ 128 ∧
        (st.withdrawal sender batchIds, st.finishedBatches sender batchIds) = r := by
  cases batchIds with
  | none => exact processFinishedAmount_eq_ok
  | some ids => exact processFinishedAmount_eq_ok

/-- **What a withdrawal does**: it releases, pays `withdrawal`, deletes the
entries it paid, and recomputes the unclaimed balance. -/
inductive Withdrawn (q : Querier) (st : Storage) (env : Env) (info : MessageInfo)
    (batchIds : Option (List ℕ)) : Storage → Response → Prop
  | intro {free left amount : ℕ} {released : List (ℕ × UnstakeHistory)} {res : Response}
      (free_eq : actualFreeBalance q st env = .ok free)
      (old : st.parameters.unstakingPeriod ≤ env.block.time)
      (unclaimed_le : st.state.unclaimedUnstakedBalance ≤ free)
      (release : Release st.unstakeHistory (env.block.time - st.parameters.unstakingPeriod)
        st.state.lastProcessedBatch (free - st.state.unclaimedUnstakedBalance) released left)
      (amount_eq : amount = (st.afterRelease released).withdrawal info.sender batchIds)
      (pos : amount ≠ 0) (enough : amount + left ≤ free)
      (messages_eq : res.messages =
        [.bankSend info.sender ⟨st.parameters.stakingCoinDenom, amount⟩])
      (found : atWithdrawal q st env = .ok (st.afterRelease released)) :
      Withdrawn q st env info batchIds
        { removeUnstakeWaitList (st.afterRelease released)
            ((st.afterRelease released).finishedBatches info.sender batchIds) info.sender with
          state := { (st.afterRelease released).state with
            unclaimedUnstakedBalance := free - amount - left } } res

theorem executeWithdrawUnstakedImpl_ok {q : Querier} {st st' : Storage} {env : Env}
    {info : MessageInfo} {batchIds : Option (List ℕ)} {res : Response}
    (h : executeWithdrawUnstakedImpl q st env info batchIds = .ok (st', res)) :
    Withdrawn q st env info batchIds st' res := by
  simp only [executeWithdrawUnstakedImpl, bind_eq_ok, strictSub_eq_ok, Prod.exists,
    checkedSub_eq_ok, require_eq_ok, pure_eq_ok, Prod.mk.injEq] at h
  obtain ⟨_, ⟨htime, rfl⟩, free, hfree, st₁, ev, left, hrate, amount, bs, hamount, _, hpos, _,
    ⟨hle, rfl⟩, _, ⟨hle', rfl⟩, rfl, rfl⟩ := h
  have hfound : atWithdrawal q st env = .ok st₁ := by
    simp only [atWithdrawal, bind_eq_ok, strictSub_eq_ok, Prod.exists, pure_eq_ok]
    exact ⟨_, ⟨htime, rfl⟩, free, hfree, st₁, ev, left, hrate, rfl⟩
  obtain ⟨hun, released, rfl, hrel⟩ := processWithdrawRate_ok hrate
  obtain ⟨-, hfinished⟩ := finishedAmount_eq_ok.1 hamount
  obtain ⟨rfl, rfl⟩ := Prod.mk.inj hfinished
  exact .intro hfree htime hun hrel rfl hpos (by omega) rfl hfound

/-- A withdrawal, once its release is done: the rest of
`execute_withdraw_unstaked_impl`. -/
theorem executeWithdrawUnstakedImpl_eq {q : Querier} {st st₁ : Storage} {env : Env}
    {info : MessageInfo} {batchIds : Option (List ℕ)} {free left : ℕ} {events : List Event}
    (late : st.parameters.unstakingPeriod ≤ env.block.time)
    (free_eq : actualFreeBalance q st env = .ok free)
    (rate : processWithdrawRate st (env.block.time - st.parameters.unstakingPeriod) free =
      .ok (st₁, events, left)) :
    executeWithdrawUnstakedImpl q st env info batchIds =
      (finishedAmount st₁ info.sender batchIds >>= fun r =>
        require (r.1 ≠ 0) HubError.noWithdrawableAssets.fault >>= fun _ =>
        checkedSub free r.1 >>= fun unclaimed => checkedSub unclaimed left >>= fun unclaimed =>
        pure ({ removeUnstakeWaitList st₁ r.2 info.sender with
            state := { st₁.state with unclaimedUnstakedBalance := unclaimed } },
          { messages := [.bankSend info.sender ⟨st.parameters.stakingCoinDenom, r.1⟩]
            events := events
            attributes := [("action", .text "finish_burn"), ("from", .text env.contract),
              ("amount", .number r.1)] })) := by
  have hcutoff : strictSub env.block.time st.parameters.unstakingPeriod =
    .ok (env.block.time - st.parameters.unstakingPeriod) := strictSub_eq_ok.2 ⟨late, rfl⟩
  unfold executeWithdrawUnstakedImpl
  rw [bind_ok hcutoff, bind_ok free_eq, bind_ok rate]
  rfl

/-! ### Failures of the release -/

theorem avoids_decimalMultiplication {a : ℕ} {b : Decimal} :
    Avoids Fault.IsOverflow (decimalMultiplication a b) := avoids_narrow128 (by simp)

/-- The subtraction of the release loop is guarded. -/
theorem avoids_unprocessedLoop {history : ExtTreeMap ℕ UnstakeHistory} {cutoff : ℕ}
    (rounds : ℕ) : ∀ {batchId remaining : ℕ},
      Avoids Fault.IsOverflow (unprocessedLoop history cutoff rounds batchId remaining) := by
  induction rounds with
  | zero => exact avoids_error (by simp [Fault.IsOverflow])
  | succ rounds ih =>
    intro batchId remaining
    unfold unprocessedLoop
    cases history[batchId]? with
    | none => exact avoids_ok _
    | some h =>
      dsimp only
      split_ifs
      · exact avoids_ok _
      · exact avoids_ok _
      · refine avoids_decimalMultiplication.bind fun required _ => ?_
        split_ifs with hreq
        · refine (avoids_checkedSub_of_le hreq).bind fun _ _ => ?_
          refine (avoids_strictAdd (by simp)).bind fun _ _ => ?_
          exact ih.bind fun _ _ => avoids_ok _
        · exact avoids_ok _

theorem avoids_processWithdrawRate {st : Storage} {cutoff free : ℕ}
    (h : st.state.unclaimedUnstakedBalance ≤ free) :
    Avoids Fault.IsOverflow (processWithdrawRate st cutoff free) := by
  unfold processWithdrawRate getUnprocessedHistories
  refine (avoids_checkedSub_of_le h).bind fun _ _ => ?_
  refine ((avoids_strictAdd (by simp)).bind fun _ _ => avoids_unprocessedLoop _).bind fun r _ => ?_
  dsimp only
  split_ifs
  · exact avoids_ok _
  · exact avoids_ok _

/-- Adding up the payouts fails in a panic only. -/
theorem avoids_processFinishedAmount {bad : Fault → Prop} (hbad : ∀ p, ¬bad (.panic p))
    {st : Storage} (l : List (ℕ × ℕ)) : Avoids bad (processFinishedAmount st l) := by
  unfold processFinishedAmount
  generalize ((0, []) : ℕ × List ℕ) = acc
  induction l generalizing acc with
  | nil => exact avoids_ok _
  | cons e l ih =>
    rw [List.foldlM_cons]
    refine Avoids.bind ?_ fun acc' _ => ih acc'
    cases readUnstakeHistory st e.1 with
    | error => exact avoids_ok _
    | ok history =>
      dsimp only
      split_ifs
      · refine (avoids_narrow128 (hbad _)).bind fun _ _ => ?_
        exact (avoids_strictAdd (hbad _)).bind fun _ _ => avoids_ok _
      · exact avoids_ok _

theorem avoids_finishedAmount {bad : Fault → Prop} (hbad : ∀ p, ¬bad (.panic p)) {st : Storage}
    {sender : Addr} {batchIds : Option (List ℕ)} :
    Avoids bad (finishedAmount st sender batchIds) := by
  cases batchIds with
  | none => exact avoids_processFinishedAmount hbad _
  | some ids => exact avoids_processFinishedAmount hbad _

end Hub
end BabyLst
