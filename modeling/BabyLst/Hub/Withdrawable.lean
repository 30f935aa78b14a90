/-
# The withdrawable query against the withdrawal

`query_withdrawable_unstaked` adds up the entries of the user in the batches
whose time is before the cutoff; `WithdrawUnstaked` releases the batches whose
time is not after it, and pays the entries of the released ones.  The two tests
differ at the cutoff itself.

In every state of a hub whose unstaking period is the one it was created with,
at every block at which the free balance covers the matured batches, the query
is what the call pays if and only if the user has nothing in a batch whose time
is the cutoff, the hub is not paused, and the balance set aside has not been
paid out to somebody else (`withdrawable_query_agrees`).  At the cutoff itself
the query misses the batch (`query_misses_the_cutoff`).
-/

import BabyLst.Hub.Claims
import BabyLst.Hub.Query
import BabyLst.Hub.Release

namespace BabyLst
namespace Hub

open Lib Std

/-! ### What the query adds up -/

/-- What an entry is worth at the rate of its batch, if the time of the batch is
as asked for. -/
def Storage.worthOf (st : Storage) (p : ℕ → Prop) [DecidablePred p] (b amount : ℕ) : ℕ :=
  match st.unstakeHistory[b]? with
  | some h => if p h.time then h.lstAppliedExchangeRate.mulFloor amount else 0
  | none => 0

/-- What the entries of a user are worth in the closed batches whose time is as
asked for. -/
def Storage.worthWhen (st : Storage) (user : Addr) (p : ℕ → Prop) [DecidablePred p] : ℕ :=
  ((userEntries st.unstakeWaitList user).map fun e => st.worthOf p e.1 e.2).sum

/-- **What `query_get_finished_amount` returns**: the worth of the batches before
the cutoff; it panics where the sum does not fit. -/
theorem queryGetFinishedAmount_eq_ok {st : Storage} {user : Addr} {cutoff n : ℕ} :
    queryGetFinishedAmount st user cutoff = .ok n ↔
      st.worthWhen user (· < cutoff) < 2 ^ 128 ∧ st.worthWhen user (· < cutoff) = n := by
  let next (acc : ℕ) (e : ℕ × ℕ) : ℕ := acc + st.worthOf (· < cutoff) e.1 e.2
  have hfold : ∀ (l : List (ℕ × ℕ)) (acc : ℕ), l.foldl next acc =
      acc + (l.map fun e => st.worthOf (· < cutoff) e.1 e.2).sum := by
    intro l
    induction l with
    | nil => simp
    | cons e l ih =>
      intro acc
      rw [List.foldl_cons, ih, List.map_cons, List.sum_cons, ← Nat.add_assoc]
  unfold queryGetFinishedAmount
  rw [foldlM_eq_ok_of_bounded (v := id) (w := fun e => st.worthOf (· < cutoff) e.1 e.2) (g := next)
    (b := 2 ^ 128) ?_ (fun _ _ => rfl) _ (Nat.two_pow_pos 128), hfold]
  · simp [Storage.worthWhen]
  · intro acc e t hacc
    unfold readUnstakeHistory
    cases hb : st.unstakeHistory[e.1]? with
    | none =>
      simp only [okOr, next, Storage.worthOf, hb, pure_eq_ok, Nat.add_zero, hacc, true_and]
    | some history =>
      simp only [okOr, next, Storage.worthOf, hb]
      split_ifs
      · simp only [bind_eq_ok, decimalMultiplication_eq_ok, strictAdd_eq_ok]
        constructor
        · rintro ⟨_, ⟨-, rfl⟩, hlt, rfl⟩
          exact ⟨hlt, rfl⟩
        · rintro ⟨hlt, rfl⟩
          exact ⟨_, ⟨by rw [id_eq] at hlt; omega, rfl⟩, hlt, rfl⟩
      · simp only [pure_eq_ok, Nat.add_zero, hacc, true_and]

/-- **What `query_withdrawable_unstaked` returns.** -/
theorem queryWithdrawableUnstaked_eq_ok {q : Querier} {st : Storage} {env : Env} {address : String}
    {n : ℕ} : queryWithdrawableUnstaked q st env address = .ok n ↔
      st.parameters.unstakingPeriod ≤ env.block.time ∧ q.addrValidate address = true ∧
      st.worthWhen address (· < env.block.time - st.parameters.unstakingPeriod) < 2 ^ 128 ∧
      st.worthWhen address (· < env.block.time - st.parameters.unstakingPeriod) = n := by
  simp only [queryWithdrawableUnstaked, bind_eq_ok, strictSub_eq_ok, toCheckedAddress_eq_ok,
    queryGetFinishedAmount_eq_ok]
  constructor
  · rintro ⟨_, ⟨late, rfl⟩, _, ⟨valid, rfl⟩, h⟩
    exact ⟨late, valid, h⟩
  · rintro ⟨late, valid, h⟩
    exact ⟨_, ⟨late, rfl⟩, _, ⟨valid, rfl⟩, h⟩

/-- The worth up to the cutoff is that before it and that at it. -/
theorem worthWhen_le_eq (st : Storage) (user : Addr) (cutoff : ℕ) :
    st.worthWhen user (· ≤ cutoff) =
      st.worthWhen user (· < cutoff) + st.worthWhen user (· = cutoff) := by
  unfold Storage.worthWhen
  rw [← List.sum_map_add]
  congr 1
  refine List.map_congr_left fun e _ => ?_
  unfold Storage.worthOf
  cases st.unstakeHistory[e.1]? with
  | none => rfl
  | some h =>
    dsimp only
    split_ifs <;> omega

/-- What a withdrawal pays after a release of just the matured batches. -/
theorem withdrawal_of_matured {st st₁ : Storage} {cutoff : ℕ} (kept : Kept st st₁)
    (closed : ∀ b : ℕ, st.unstakeHistory[b]? = none → st₁.unstakeHistory[b]? = none)
    (waitList_eq : st₁.unstakeWaitList = st.unstakeWaitList)
    (matured : ∀ (b : ℕ) (e : UnstakeHistory), st₁.unstakeHistory[b]? = some e →
      (e.released = true ↔ e.time ≤ cutoff)) (user : Addr) :
    st₁.withdrawal user none = st.worthWhen user (· ≤ cutoff) := by
  unfold Storage.withdrawal Storage.worthWhen requestedEntries
  rw [waitList_eq]
  congr 1
  refine List.map_congr_left fun e _ => ?_
  unfold Storage.payout Storage.worthOf
  cases hb : st.unstakeHistory[e.1]? with
  | none => rw [closed e.1 hb]
  | some h =>
    obtain ⟨r, hr, -⟩ := kept e.1 h hb
    have hmatured := matured e.1 _ hr
    rw [hr]
    exact if_congr hmatured rfl rfl

/-! ### The ids and the times of the batches -/

/-- The id of the current batch is read as a `u64`. -/
theorem checkForUnstakeBatchEpochCompletion_id_lt {q : Querier} {st st' : Storage} {env : Env}
    {batch batch' : CurrentBatch} {messages : List CosmosMsg} {events : List Event}
    (h : checkForUnstakeBatchEpochCompletion q st env batch = .ok (st', batch', messages, events))
    (hid : batch.id < 2 ^ 64) : st'.currentBatch.id < 2 ^ 64 := by
  simp only [checkForUnstakeBatchEpochCompletion, closeIfDue, bind_eq_ok, Prod.exists, updateState,
    pure_eq_ok, Prod.mk.injEq] at h
  obtain ⟨st₁, ev, s₁, -, st₂, b₂, s₂, ms, ⟨_, -, hclose⟩, rfl, -⟩ := h
  split_ifs at hclose with hdue
  · simp only [processUndelegationsForBatch, bind_eq_ok, strictAdd_eq_ok, pure_eq_ok,
      Prod.mk.injEq] at hclose
    obtain ⟨_, -, _, -, _, -, _, -, _, ⟨hnext, rfl⟩, -, rfl, -⟩ := hclose
    exact hnext
  · rw [pure_eq_ok] at hclose
    obtain ⟨-, rfl, -⟩ := by simpa only [Prod.mk.injEq] using hclose
    exact hid

theorem executeUnstake_id_lt {q : Querier} {st st' : Storage} {env : Env} {amount : ℕ}
    {sender : String} {flow : UnstakeType} {res : Response}
    (h : executeUnstake q st env amount sender flow = .ok (st', res))
    (hid : st.currentBatch.id < 2 ^ 64) : st'.currentBatch.id < 2 ^ 64 := by
  simp only [executeUnstake, updateUnstakeBatchWaitList, bind_eq_ok, pure_eq_ok, Prod.exists,
    Prod.mk.injEq] at h
  obtain ⟨_, _, ⟨_, -, _, -, _, -, rfl, rfl⟩, st₂, b₂, ms, ev, hcomp, _, -, _, -, rfl, -⟩ := h
  exact checkForUnstakeBatchEpochCompletion_id_lt hcomp hid

/-- Only the messages that may close a batch change its id. -/
theorem Effect.batch_id {q : Querier} {st st' : Storage} {env : Env} {info : MessageInfo}
    {msg : HubMsg} {res : Response} (h : Effect q st env info msg st' res) :
    st'.currentBatch.id = st.currentBatch.id ∨ (∃ amount, msg = .unstake amount) ∨
      (∃ received, msg = .receive received) ∨ msg = .processUndelegations := by
  cases h with
  | stake h =>
    obtain ⟨-⟩ := h
    exact .inl rfl
  | unstake msg_eq =>
    rcases msg_eq with ⟨rfl, -⟩ | ⟨rfl, -⟩
    · exact .inr (.inl ⟨_, rfl⟩)
    · exact .inr (.inr (.inl ⟨_, rfl⟩))
  | withdraw h =>
    obtain ⟨-⟩ := h
    exact .inl rfl
  | processUndelegations => exact .inr (.inr (.inr rfl))
  | _ => exact .inl rfl

theorem Step.id_lt {s s' : Clocked} {c : Call} (h : Step s c s')
    (hid : s.st.currentBatch.id < 2 ^ 64) : s'.st.currentBatch.id < 2 ^ 64 := by
  have accepted := h.accepted
  rcases h.effect.batch_id with heq | ⟨amount, hmsg⟩ | ⟨received, hmsg⟩ | hmsg
  · rw [heq]
    exact hid
  · simp only [hmsg, execute, bind_eq_ok] at accepted
    obtain ⟨_, -, hx⟩ := accepted
    exact executeUnstake_id_lt hx hid
  · simp only [hmsg, execute, dispatch, receiveCw20, bind_eq_ok] at accepted
    obtain ⟨_, -, _, -, hook, -, hx⟩ := accepted
    cases hook with
    | unstake =>
      obtain ⟨_, -, hx⟩ := hx
      exact executeUnstake_id_lt hx hid
  · simp only [hmsg, execute, dispatch, bind_eq_ok] at accepted
    obtain ⟨_, -, hx⟩ := accepted
    unfold executeProcessUndelegations at hx
    split_ifs at hx
    · rw [pure_eq_ok, Prod.mk.injEq] at hx
      rw [← hx.1]
      exact hid
    · simp only [bind_eq_ok, Prod.exists, pure_eq_ok, Prod.mk.injEq] at hx
      obtain ⟨st₂, b₂, ms, ev, hcomp, rfl, -⟩ := hx
      exact checkForUnstakeBatchEpochCompletion_id_lt hcomp hid

/-- **Every released batch is as old as the unstaking period.** -/
def Storage.ReleasedBy (st : Storage) (time : ℕ) : Prop :=
  ∀ (b : ℕ) (h : UnstakeHistory), st.unstakeHistory[b]? = some h → h.released = true →
    h.time + st.parameters.unstakingPeriod ≤ time

theorem Release.releasedBy {st : Storage} {balance left time : ℕ}
    {released : List (ℕ × UnstakeHistory)}
    (h : Release st.unstakeHistory (time - st.parameters.unstakingPeriod)
      st.state.lastProcessedBatch balance released left)
    (late : st.parameters.unstakingPeriod ≤ time) (hst : st.ReleasedBy time) :
    (st.afterRelease released).ReleasedBy time := by
  intro b e hb hr
  obtain ⟨e₀, he₀, he, hrel⟩ := h.getElem?_inv hb
  show e.time + st.parameters.unstakingPeriod ≤ time
  have htime : e.time = e₀.time := by rw [he]
  rw [htime]
  rcases hrel.1 hr with hr₀ | hin
  · exact hst b e₀ he₀ hr₀
  · have hmem : b ∈ released.map Prod.fst := by
      rw [h.ids, List.mem_range'_1]
      omega
    obtain ⟨e', he', rfl⟩ := List.mem_map.1 hmem
    obtain ⟨hfound, -, hle⟩ := h.found e' he'
    obtain rfl := Option.some.inj (he₀.symm.trans hfound)
    omega

theorem Completion.releasedBy {q : Querier} {st st' : Storage} {env : Env}
    {batch batch' : CurrentBatch} {messages : List CosmosMsg} {time : ℕ}
    (h : Completion q st env batch st' batch' messages) (hst : st.ReleasedBy time) :
    st'.ReleasedBy time := by
  cases h with
  | stillOpen => exact hst
  | closed =>
    exact forall_getElem?_insert (fun hr => by simp [CurrentBatch.history] at hr) hst

theorem Effect.releasedBy {q : Querier} {st st' : Storage} {env : Env} {info : MessageInfo}
    {msg : HubMsg} {res : Response} (h : Effect q st env info msg st' res)
    (late : msg = .processWithdrawRequests → st.parameters.unstakingPeriod ≤ env.block.time)
    (steady : st'.parameters.unstakingPeriod = st.parameters.unstakingPeriod)
    (hst : st.ReleasedBy env.block.time) : st'.ReleasedBy env.block.time := by
  cases h with
  | stake h =>
    obtain ⟨-⟩ := h
    exact hst
  | unstake msg_eq token_eq h => exact h.releasedBy hst
  | withdraw h =>
    obtain ⟨-, old, -, release, -⟩ := h
    exact release.releasedBy old hst
  | release free_eq unclaimed_le h => exact h.releasedBy (late rfl) hst
  | processUndelegations ne h => exact h.releasedBy hst
  | updateParams =>
    intro b e hb hr
    rw [steady]
    exact hst b e hb hr
  | _ => exact hst

/-- **What a run with one unstaking period keeps.** -/
structure Clocked.Timely (s : Clocked) : Prop where
  ledger : s.Ledger
  id_lt : s.st.currentBatch.id < 2 ^ 64
  releasedBy : s.st.ReleasedBy s.now.time

theorem Step.timely {s s' : Clocked} {c : Call} (h : Step s c s') (hs : s.Timely)
    (steady : s'.st.parameters.unstakingPeriod = s.st.parameters.unstakingPeriod) : s'.Timely := by
  refine ⟨(h.ledger hs.ledger).1, h.id_lt hs.id_lt, ?_⟩
  rw [h.now_eq]
  refine h.effect.releasedBy (fun hmsg => ?_) steady
    fun b e hb hr => (hs.releasedBy b e hb hr).trans h.time_le
  have accepted := h.accepted
  simp only [hmsg, execute, dispatch, bind_eq_ok] at accepted
  obtain ⟨_, -, hx⟩ := accepted
  obtain ⟨_, _, _, -, late, -⟩ := executeProcessWithdrawRequests_ok hx
  exact late

theorem Created.timely {msg : InstantiateMsg} {s t : Clocked} {tr : List (Call × Clocked)}
    (created : Created msg s) (run : Run Step s tr t)
    (steady : ∀ e ∈ tr, e.2.st.parameters.unstakingPeriod = msg.unstakingPeriod) :
    t.Timely ∧ t.st.parameters.unstakingPeriod = msg.unstakingPeriod := by
  have hstart : s.Timely ∧ s.st.parameters.unstakingPeriod = msg.unstakingPeriod := by
    have hledger := created.ledger
    obtain ⟨env, info, res, -, h⟩ := created
    have hi := instantiate_ok h
    refine ⟨⟨hledger, ?_, fun b e hb => by simp [hi.history_eq] at hb⟩, ?_⟩
    · rw [hi.batch_eq]
      exact Nat.one_lt_two_pow (by decide)
    · rw [hi.parameters_eq]
  have hrun := run.history (P := fun tr t =>
    (∀ e ∈ tr, e.2.st.parameters.unstakingPeriod = msg.unstakingPeriod) →
      t.Timely ∧ t.st.parameters.unstakingPeriod = msg.unstakingPeriod)
    (fun _ => hstart) (by
      intro tr t c u _ ih hstep hall
      obtain ⟨htimely, hperiod⟩ := ih fun e he => hall e (List.mem_append_left _ he)
      have hu := hall (c, u) (List.mem_append_right _ (List.mem_singleton_self _))
      exact ⟨hstep.timely htimely (hu.trans hperiod.symm), hu⟩)
  exact hrun steady

/-! ### What a withdrawal answers -/

/-- What the user of a call is sent; a refused call sends nothing. -/
def paidBy (user : Addr) : Exec (Storage × Response) → ℕ
  | .ok r => sentTo user r.2.messages
  | .error _ => 0

/-- **The query agrees with the withdrawal**: it returns what the call pays at
the same block, and zero exactly when the call finds nothing to withdraw. -/
def QueryAgrees (q : Querier) (st : Storage) (env : Env) (info : MessageInfo) : Prop :=
  ∃ amount, queryWithdrawableUnstaked q st env info.sender = .ok amount ∧
    paidBy info.sender (execute q st env info .withdrawUnstaked) = amount ∧
    (amount = 0 ↔ execute q st env info .withdrawUnstaked =
      .error HubError.noWithdrawableAssets.fault)

/-- Two subtractions one after the other, the second of which is too much. -/
theorem checkedSub_checkedSub_error {α : Type} {a b c : ℕ} (h : ¬b + c ≤ a) (f : ℕ → Exec α) :
    (checkedSub a b >>= fun r => checkedSub r c >>= f) =
      .error (.err (.overflow "Cannot Sub with given operands")) := by
  unfold checkedSub
  by_cases hb : b ≤ a
  · rw [if_pos hb]
    show ((if c ≤ a - b then _ else _) >>= f) = _
    rw [if_neg (by omega)]
    rfl
  · rw [if_neg hb]
    rfl

/-- **The answer of a withdrawal, by what it would pay.** -/
theorem executeWithdrawUnstaked_answer {q : Querier} {st st₁ : Storage} {env : Env}
    (info : MessageInfo) {free left : ℕ} {events : List Event}
    (late : st.parameters.unstakingPeriod ≤ env.block.time)
    (free_eq : actualFreeBalance q st env = .ok free)
    (rate : processWithdrawRate st (env.block.time - st.parameters.unstakingPeriod) free =
      .ok (st₁, events, left)) :
    (executeWithdrawUnstaked q st env info = .error HubError.noWithdrawableAssets.fault ↔
      st₁.withdrawal info.sender none = 0) ∧
    paidBy info.sender (executeWithdrawUnstaked q st env info) =
      if st₁.withdrawal info.sender none < 2 ^ 128 ∧
        st₁.withdrawal info.sender none + left ≤ free then st₁.withdrawal info.sender none
      else 0 := by
  rw [executeWithdrawUnstaked, executeWithdrawUnstakedImpl_eq late free_eq rate]
  generalize hw : st₁.withdrawal info.sender none = worth
  by_cases hfits : worth < 2 ^ 128
  · have hfinished : finishedAmount st₁ info.sender none =
      .ok (worth, st₁.finishedBatches info.sender none) :=
        finishedAmount_eq_ok.2 ⟨hw ▸ hfits, by rw [hw]⟩
    rw [bind_ok hfinished]
    dsimp only
    by_cases hzero : worth = 0
    · subst hzero
      simp [require, bind, Except.bind, paidBy]
    · rw [bind_ok (require_ok hzero)]
      by_cases henough : worth + left ≤ free
      · have hpay : checkedSub free worth = .ok (free - worth) :=
          checkedSub_eq_ok.2 ⟨by omega, rfl⟩
        have hleft : checkedSub (free - worth) left = .ok (free - worth - left) :=
          checkedSub_eq_ok.2 ⟨by omega, rfl⟩
        rw [bind_ok hpay, bind_ok hleft, if_pos ⟨hfits, henough⟩]
        simp [hzero, paidBy, sentTo, pure, Except.pure]
      · rw [checkedSub_checkedSub_error henough, if_neg fun h => henough h.2]
        simp [hzero, paidBy, HubError.fault]
  · have havoids : Avoids (· = HubError.noWithdrawableAssets.fault)
        (finishedAmount st₁ info.sender none) :=
      avoids_finishedAmount (by simp [HubError.fault])
    cases hx : finishedAmount st₁ info.sender none with
    | ok r => exact absurd (hw ▸ (finishedAmount_eq_ok.1 hx).1) hfits
    | error e =>
      have hne : e ≠ HubError.noWithdrawableAssets.fault := havoids e hx
      rw [if_neg fun h => hfits h.1]
      simp only [bind, Except.bind, Except.error.injEq, hne, false_iff, paidBy, and_true]
      omega

theorem execute_withdrawUnstaked (q : Querier) (st : Storage) (env : Env) (info : MessageInfo) :
    execute q st env info .withdrawUnstaked =
      if st.parameters.paused = false then executeWithdrawUnstaked q st env info
      else .error HubError.paused.fault := by
  show (require _ _ >>= fun _ => executeWithdrawUnstaked q st env info) = _
  unfold require
  split_ifs <;> rfl

/-- On a chain younger than the unstaking period the query fails. -/
theorem not_queryAgrees_of_early {q : Querier} {st : Storage} {env : Env} {info : MessageInfo}
    (early : ¬st.parameters.unstakingPeriod ≤ env.block.time) : ¬QueryAgrees q st env info := by
  rintro ⟨amount, hquery, -⟩
  exact early (queryWithdrawableUnstaked_eq_ok.1 hquery).1

/-- A paused hub refuses the call, and not because there is nothing to withdraw. -/
theorem not_queryAgrees_of_paused {q : Querier} {st : Storage} {env : Env} {info : MessageInfo}
    (paused : ¬st.parameters.paused = false) : ¬QueryAgrees q st env info := by
  rintro ⟨_, -, rfl, hzero⟩
  rw [execute_withdrawUnstaked, if_neg paused] at hzero
  exact absurd (Except.error.inj (hzero.1 rfl)) (by decide)

/-- **The query agrees with the withdrawal** in every state of a hub whose
unstaking period is the one it was created with, at every block at which the
free balance covers the unclaimed one and the matured batches, exactly if: the
chain is older than the unstaking period and the hub is not paused; the user has
nothing in a batch closed at the cutoff itself; and what the matured entries of
the user are worth is within the unclaimed balance and the matured batches,
which is so as long as no withdrawal listed a batch twice that was due. -/
theorem withdrawable_query_agrees {msg : InstantiateMsg} {s t : Clocked}
    {tr : List (Call × Clocked)} (q : Querier) (env : Env) (info : MessageInfo) {free : ℕ}
    (created : Created msg s) (run : Run Step s tr t)
    (steady : ∀ e ∈ tr, e.2.st.parameters.unstakingPeriod = msg.unstakingPeriod)
    (time_le : t.now.time ≤ env.block.time)
    (valid : q.addrValidate info.sender = true)
    (fits : q.balance env.contract t.st.parameters.stakingCoinDenom < 2 ^ 128)
    (free_eq : actualFreeBalance q t.st env = .ok free)
    (covers : t.st.state.unclaimedUnstakedBalance +
      t.st.maturedRequired (env.block.time - msg.unstakingPeriod) ≤ free) :
    (QueryAgrees q t.st env info ↔
      msg.unstakingPeriod ≤ env.block.time ∧ t.st.parameters.paused = false ∧
      t.st.worthWhen info.sender (· = env.block.time - msg.unstakingPeriod) = 0 ∧
      t.st.worthWhen info.sender (· ≤ env.block.time - msg.unstakingPeriod) ≤
        t.st.state.unclaimedUnstakedBalance +
          t.st.maturedRequired (env.block.time - msg.unstakingPeriod)) ∧
    (Run CarefulStep s tr t →
      t.st.worthWhen info.sender (· ≤ env.block.time - msg.unstakingPeriod) ≤
        t.st.state.unclaimedUnstakedBalance +
          t.st.maturedRequired (env.block.time - msg.unstakingPeriod)) := by
  obtain ⟨timely, hperiod⟩ := created.timely run steady
  rw [← hperiod] at covers ⊢
  set cutoff := env.block.time - t.st.parameters.unstakingPeriod with hcutoff
  -- the release covers the matured batches, so it goes through and releases just these
  have hfree : free < 2 ^ 128 := by
    rw [actualFreeBalance_eq_ok] at free_eq
    omega
  obtain ⟨⟨st₁, events, left⟩, rate⟩ := processWithdrawRate_total timely.ledger.1 timely.id_lt
    hfree covers
  obtain ⟨hun, released, rfl, hrel⟩ := processWithdrawRate_ok rate
  obtain ⟨hmatured, hleft⟩ := hrel.matured timely.ledger.1 (by omega) fun b e hb hr => by
    have := timely.releasedBy b e hb hr
    omega
  have hworth := withdrawal_of_matured hrel.kept
    (fun b hb => by rw [hrel.getElem?, hb, Option.map_none, ite_self]) rfl hmatured info.sender
  have hsplit := worthWhen_le_eq t.st info.sender cutoff
  constructor
  · by_cases late : t.st.parameters.unstakingPeriod ≤ env.block.time
    · by_cases hpaused : t.st.parameters.paused = false
      · obtain ⟨hnone, hpaid⟩ := executeWithdrawUnstaked_answer info late free_eq rate
        rw [hworth] at hnone hpaid
        unfold QueryAgrees
        rw [execute_withdrawUnstaked, if_pos hpaused, hnone, hpaid]
        constructor
        · rintro ⟨amount, hquery, hpays, hzero⟩
          obtain ⟨-, -, hlt, hamount⟩ := queryWithdrawableUnstaked_eq_ok.1 hquery
          refine ⟨late, hpaused, ?_⟩
          rw [← hcutoff] at hlt hamount
          split_ifs at hpays with henough
          · omega
          · omega
        · rintro ⟨-, -, hat, hle⟩
          refine ⟨_, queryWithdrawableUnstaked_eq_ok.2 ⟨late, valid, ?_, rfl⟩, ?_, ?_⟩
          · rw [← hcutoff]
            omega
          · rw [← hcutoff, if_pos ⟨by omega, by omega⟩]
            omega
          · rw [← hcutoff]
            omega
      · exact iff_of_false (not_queryAgrees_of_paused hpaused) fun h => hpaused h.2.1
    · exact iff_of_false (not_queryAgrees_of_early late) fun h => late h.1
  · intro careful
    have covered := (created.covered careful).2
    have hclaims := claims_withdrawal (t.st.afterRelease released) info.sender none
      fun ids hids => by cases hids
    have hle := hrel.claims_le timely.ledger.1
    have hspent := hrel.spent
    unfold Storage.Covered at covered
    omega

/-! ### A batch of one user on sample answers -/

/-- The hub after a batch of 60 is closed, at second 8000. -/
def sampleWaiting : Clocked := playEnd Clocked.exec sampleHub (sampleStart ++ sampleUnstake)

/-- The trace of the calls until then. -/
def sampleWaitingTrace : List (Call × Clocked) :=
  playTrace Clocked.exec sampleHub (sampleStart ++ sampleUnstake)

theorem sampleWaiting_run : Run Step sampleHub sampleWaitingTrace sampleWaiting :=
  played_run Clocked.exec_sound _ _ (by decide +kernel)

theorem sampleWaiting_steady :
    ∀ e ∈ sampleWaitingTrace, e.2.st.parameters.unstakingPeriod = sampleMsg.unstakingPeriod := by
  have hall : sampleWaitingTrace.map (fun e => e.2.st.parameters.unstakingPeriod) =
    [10000, 10000, 10000] := by decide +kernel
  intro e he
  have hmem := List.mem_map_of_mem (f := fun e => e.2.st.parameters.unstakingPeriod) he
  rw [hall] at hmem
  simpa [sampleMsg] using hmem

/-- Well after the cutoff the query and the call agree on 60. -/
theorem withdrawable_query_agrees_sample :
    QueryAgrees (sampleQuerier 40 40 60) sampleWaiting.st (sampleEnv 2100) ⟨"alice", []⟩ ∧
    queryWithdrawableUnstaked (sampleQuerier 40 40 60) sampleWaiting.st (sampleEnv 2100) "alice" =
      .ok 60 := by
  refine ⟨?_, by decide +kernel⟩
  have free_eq : actualFreeBalance (sampleQuerier 40 40 60) sampleWaiting.st (sampleEnv 2100) =
    .ok 60 := by decide +kernel
  obtain ⟨hiff, -⟩ := withdrawable_query_agrees _ _ ⟨"alice", []⟩ sampleHub_created
    sampleWaiting_run sampleWaiting_steady (by decide +kernel) rfl (by decide +kernel) free_eq
    (by decide +kernel)
  exact hiff.2 ⟨by decide, by decide +kernel, by decide +kernel, by decide +kernel⟩

/-- **The query misses the cutoff**: ten thousand seconds after the batch was
closed the call pays 60, and the query returns zero. -/
theorem query_misses_the_cutoff :
    ∃ s tr t, Created sampleMsg s ∧ Run Step s tr t ∧
      (∀ e ∈ tr, e.2.st.parameters.unstakingPeriod = sampleMsg.unstakingPeriod) ∧
      actualFreeBalance (sampleQuerier 40 40 60) t.st (sampleEnv 1900) = .ok 60 ∧
      t.st.state.unclaimedUnstakedBalance +
        t.st.maturedRequired ((sampleEnv 1900).block.time - sampleMsg.unstakingPeriod) ≤ 60 ∧
      queryWithdrawableUnstaked (sampleQuerier 40 40 60) t.st (sampleEnv 1900) "alice" = .ok 0 ∧
      paidBy "alice" (execute (sampleQuerier 40 40 60) t.st (sampleEnv 1900) ⟨"alice", []⟩
        .withdrawUnstaked) = 60 := by
  exact ⟨sampleHub, sampleWaitingTrace, sampleWaiting, sampleHub_created, sampleWaiting_run,
    sampleWaiting_steady, by decide +kernel, by decide +kernel, by decide +kernel,
    by decide +kernel⟩

end Hub
end BabyLst
