/-
# Where the coins of the pool are

What is paid in for stake and as rewards is recorded as stake; closing a batch
moves its claim from the recorded stake to what is owed for the batch, a release
from there to the unclaimed balance, and a withdrawal pays out of that.  Only the
check for slashing makes coins disappear, and nothing that is sent to the hub
otherwise gets in.  None of the roundings on the way leaves a coin out: over every
run what was paid in is what is recorded, owed and unclaimed, what was paid out,
and what the checks found slashed (`pool_is_accounted_for`).
-/

import BabyLst.Hub.Affordable
import BabyLst.Hub.Checkable
import BabyLst.World.Accounts

namespace BabyLst
namespace Hub

open Lib Std Finset

/-! ### The pool -/

/-- What is owed for the closed batches that wait for their release. -/
def Storage.owed (st : Storage) : ℕ :=
  ∑ b ∈ Ioc st.state.lastProcessedBatch (st.currentBatch.id - 1), st.requiredFor b

/-- The coins that the hub has on its books. -/
def Storage.pool (st : Storage) : ℕ :=
  st.state.totalStakedAmount + st.owed + st.state.unclaimedUnstakedBalance

/-- What a message pays in. -/
def paysIn (info : MessageInfo) : HubMsg → ℕ
  | .stake => (info.funds.map (·.amount)).sum
  | .stakeRewards => (info.funds.map (·.amount)).sum
  | _ => 0

/-- The stake that the check for slashing finds. -/
def Storage.found (st : Storage) (q : Querier) (env : Env) : ℕ :=
  (st.checked (q.allDelegations env.contract) env.block.height 0).totalStakedAmount

/-- What a message finds slashed. -/
def Storage.slashedBy (st : Storage) (q : Querier) (env : Env) (msg : HubMsg) : ℕ :=
  if msg.reconciles st.currentBatch.requestedLstTokenAmount then
    st.state.totalStakedAmount - st.found q env
  else 0

/-- **The check finds at most what is recorded**; what is missing is slashed. -/
theorem ActualState.found_eq {q : Querier} {st : Storage} {env : Env} {state : State}
    (h : ActualState q st env st.state state) :
    state.totalStakedAmount = st.found q env ∧
      st.found q env ≤ st.state.totalStakedAmount := by
  have hfound : state.totalStakedAmount = st.found q env := by
    unfold Storage.found Storage.checked reconciled
    cases h with
    | noDelegations hnil => rw [if_pos (.inl hnil)]
    | nothingStaked ne pending le zero =>
      obtain ⟨-, hcurrent⟩ := getPendingDelegationAmount_eq_ok.1 pending
      rw [hcurrent]
      dsimp only
      rw [if_pos (.inr zero)]
    | full ne pending le pos staked_eq issued =>
      obtain ⟨-, hcurrent⟩ := getPendingDelegationAmount_eq_ok.1 pending
      rw [hcurrent]
      dsimp only
      rw [if_neg (not_or.2 ⟨ne, pos⟩)]
      dsimp only
      split_ifs at staked_eq ⊢ with hlt
      · exact staked_eq.2
      · exact staked_eq
  refine ⟨hfound, hfound ▸ ?_⟩
  cases h with
  | noDelegations => exact le_rfl
  | nothingStaked => exact le_rfl
  | full ne pending le pos staked_eq issued =>
    dsimp only
    split_ifs at staked_eq with hlt
    · omega
    · exact staked_eq.le

/-! ### What is owed -/

theorem Storage.owed_congr {st st' : Storage} (history : st'.unstakeHistory = st.unstakeHistory)
    (last : st'.state.lastProcessedBatch = st.state.lastProcessedBatch)
    (id : st'.currentBatch.id = st.currentBatch.id) : st'.owed = st.owed := by
  unfold Storage.owed Storage.requiredFor
  rw [history, last, id]

/-- Closing the batch adds its claim to what is owed. -/
theorem Storage.owed_closed {st st' : Storage} {e : UnstakeHistory}
    (history : st'.unstakeHistory = st.unstakeHistory.insert st.currentBatch.id e)
    (last : st'.state.lastProcessedBatch = st.state.lastProcessedBatch)
    (id : st'.currentBatch.id = st.currentBatch.id + 1)
    (last_lt : st.state.lastProcessedBatch < st.currentBatch.id) :
    st'.owed = st.owed + e.required := by
  have hclosed : st'.requiredFor st.currentBatch.id = e.required :=
    Storage.requiredFor_eq (by rw [history, getElem?_insert_eq, if_pos rfl])
  have hothers : ∀ b < st.currentBatch.id, st'.requiredFor b = st.requiredFor b := by
    intro b hb
    unfold Storage.requiredFor
    rw [history, getElem?_insert_eq, if_neg (by omega)]
  obtain ⟨n, hn⟩ := Nat.exists_eq_add_of_lt last_lt
  have hpred : st.currentBatch.id - 1 = st.state.lastProcessedBatch + n := by omega
  unfold Storage.owed
  rw [last, id, Nat.add_sub_cancel, hpred]
  rw [show st.currentBatch.id = st.state.lastProcessedBatch + n + 1 from hn] at hclosed ⊢
  rw [sum_Ioc_succ_top (Nat.le_add_right ..), hclosed]
  congr 1
  refine sum_congr rfl fun b hb => hothers b ?_
  rw [mem_Ioc] at hb
  omega

/-- A release takes from what is owed what the released batches require. -/
theorem Release.owed_eq {st : Storage} {cutoff balance left : ℕ}
    {released : List (ℕ × UnstakeHistory)}
    (h : Release st.unstakeHistory cutoff st.state.lastProcessedBatch balance released left)
    (last_lt : st.state.lastProcessedBatch + released.length < st.currentBatch.id) :
    (st.afterRelease released).owed + balance = st.owed + left := by
  have hsum := h.sum_requiredFor
  have hrequired : ∀ b, (st.afterRelease released).requiredFor b = st.requiredFor b := by
    intro b
    unfold Storage.requiredFor
    rw [h.getElem?]
    split_ifs
    · cases st.unstakeHistory[b]? <;> rfl
    · rfl
  have hsplit := sum_Ioc_consecutive st.requiredFor
    (Nat.le_add_right st.state.lastProcessedBatch released.length) (Nat.le_pred_of_lt last_lt)
  have howed : (st.afterRelease released).owed =
      ∑ b ∈ Ioc (st.state.lastProcessedBatch + released.length) (st.currentBatch.id - 1),
        st.requiredFor b := sum_congr rfl fun b _ => hrequired b
  have howed' : st.owed = ∑ b ∈ Ioc st.state.lastProcessedBatch (st.currentBatch.id - 1),
    st.requiredFor b := rfl
  rw [Nat.pred_eq_sub_one] at hsplit
  omega

/-! ### A call -/

variable {q : Querier} {st st' : Storage} {env : Env} {info : MessageInfo}

/-- A stake goes to what is recorded, less what the check finds slashed. -/
theorem Staked.pool_eq {t : StakeType} {res : Response} (h : Staked q st env info t st' res) :
    st'.pool + sentIn res.messages + (st.state.totalStakedAmount - st.found q env) =
      st.pool + (info.funds.map (·.amount)).sum := by
  generalize hst : st' = after at h
  cases h with
  | @intro payment _ mint state pending _ _ _ token _ _ funds _ actual _ minted _ _ _ _ _ plan_eq
    messages_eq =>
    obtain ⟨hstaked, hle⟩ := actual.found_eq
    obtain ⟨-, hunclaimed, -, hlast⟩ := actual.frame
    have hsent := ((emits_delegateMsgs st.parameters.stakingCoinDenom env.contract plan_eq).append
      (emits_mintMsgs token info.sender minted)).sent_eq
    have hfunds : (info.funds.map (·.amount)).sum = payment := by simp [funds]
    have howed : st'.owed = st.owed := by
      subst hst
      exact Storage.owed_congr rfl hlast rfl
    have hstaked' : st'.state.totalStakedAmount = state.totalStakedAmount + payment := by rw [hst]
    have hunclaimed' : st'.state.unclaimedUnstakedBalance = state.unclaimedUnstakedBalance := by
      rw [hst]
    rw [← hst, messages_eq, hsent, hfunds]
    unfold Storage.pool
    omega

/-- **Whether or not the batch is closed**, its claim stays in the pool. -/
theorem Completion.pool_eq {batch batch' : CurrentBatch} {messages : List CosmosMsg}
    (h : Completion q st env batch st' batch' messages) (id_eq : batch.id = st.currentBatch.id)
    (last_lt : st.state.lastProcessedBatch < st.currentBatch.id) :
    st'.pool + sentIn messages + (st.state.totalStakedAmount - st.found q env) = st.pool := by
  generalize hst : st' = after at h
  cases h with
  | @stillOpen state actual le early =>
    obtain ⟨hstaked, hle⟩ := actual.found_eq
    obtain ⟨-, hunclaimed, -, hlast⟩ := actual.frame
    have howed : st'.owed = st.owed := by
      subst hst
      exact Storage.owed_congr rfl hlast id_eq
    have hstate : st'.state = state := by rw [hst]
    rw [← hst, sentIn_nil]
    unfold Storage.pool
    rw [hstate, howed]
    omega
  | @closed state _ _ _ _ actual le due registry_eq answer plan_eq enough written =>
    obtain ⟨hstaked, hle⟩ := actual.found_eq
    obtain ⟨-, hunclaimed, -, hlast⟩ := actual.frame
    have hsent := (emits_undelegateMsgs st.parameters.stakingCoinDenom env.contract plan_eq).sent_eq
    have howed : st'.owed = st.owed +
        (batch.history env.block.time state.lstExchangeRate).required := by
      subst hst
      exact Storage.owed_closed (congrArg (st.unstakeHistory.insert · _) id_eq) hlast
        (congrArg (· + 1) id_eq) last_lt
    have hclaim : (batch.history env.block.time state.lstExchangeRate).required =
      state.lstExchangeRate.mulFloor batch.requestedLstTokenAmount := rfl
    have hstaked' : st'.state.totalStakedAmount = state.totalStakedAmount -
      state.lstExchangeRate.mulFloor batch.requestedLstTokenAmount := by rw [hst]
    have hunclaimed' : st'.state.unclaimedUnstakedBalance = state.unclaimedUnstakedBalance := by
      rw [hst]
    rw [← hst, hsent]
    unfold Storage.pool
    omega

/-- What is withdrawn leaves the unclaimed balance. -/
theorem Withdrawn.pool_eq {batchIds : Option (List ℕ)} {res : Response}
    (h : Withdrawn q st env info batchIds st' res)
    (last_lt : st'.state.lastProcessedBatch < st'.currentBatch.id) :
    st'.pool + sentIn res.messages = st.pool := by
  generalize hst : st' = after at h
  cases h with
  | @intro free left amount released _ free_eq old unclaimed_le release amount_eq pos enough
    messages_eq found =>
    have howed := release.owed_eq (by rw [hst] at last_lt; exact last_lt)
    have hsent : sentIn res.messages = amount := by
      rw [messages_eq]
      exact Nat.add_zero _
    have howed' : st'.owed = (st.afterRelease released).owed := by
      subst hst
      exact Storage.owed_congr rfl rfl rfl
    have hstaked : st'.state.totalStakedAmount = st.state.totalStakedAmount := by
      rw [hst]
      rfl
    have hunclaimed : st'.state.unclaimedUnstakedBalance = free - amount - left := by rw [hst]
    rw [← hst, hsent]
    unfold Storage.pool
    omega

/-- **What a call does to the pool**: what it pays in goes there, and what it
sends and what it finds slashed comes from there. -/
theorem Effect.pool_eq {msg : HubMsg} {res : Response} (h : Effect q st env info msg st' res)
    (last_lt : st.state.lastProcessedBatch < st.currentBatch.id)
    (last_lt' : st'.state.lastProcessedBatch < st'.currentBatch.id) :
    st'.pool + sentIn res.messages + st.slashedBy q env msg = st.pool + paysIn info msg := by
  unfold Storage.slashedBy
  cases h with
  | @stake t st' res h =>
    cases t <;> exact h.pool_eq
  | @unstake msg sender amount flow batch messages token st' res msg_eq token_eq h messages_eq =>
    have hsent := (emits_burn token sender amount flow).sent_eq
    have hpool := h.pool_eq rfl last_lt
    have hnoted : (st.noted sender amount).pool = st.pool := rfl
    have hreconciles : msg.reconciles st.currentBatch.requestedLstTokenAmount = true := by
      rcases msg_eq with ⟨rfl, -⟩ | ⟨rfl, -⟩ <;> rfl
    have hpays : paysIn info msg = 0 := by
      rcases msg_eq with ⟨rfl, -⟩ | ⟨rfl, -⟩ <;> rfl
    rw [messages_eq, sentIn_append, hsent, if_pos hreconciles, hpays, ← hnoted]
    exact hpool
  | @withdraw batchIds st' res h =>
    have hpool := h.pool_eq last_lt'
    cases batchIds <;> exact hpool
  | @release free left released res free_eq unclaimed_le h left_le messages_eq =>
    have howed := h.owed_eq last_lt'
    rw [messages_eq, sentIn_nil]
    show st.state.totalStakedAmount + (st.afterRelease released).owed + (free - left) + 0 + 0 =
      st.state.totalStakedAmount + st.owed + st.state.unclaimedUnstakedBalance + 0
    omega
  | @checkSlashing state res actual messages_eq =>
    obtain ⟨hstaked, hle⟩ := actual.found_eq
    obtain ⟨-, hunclaimed, -, hlast⟩ := actual.frame
    have howed : Storage.owed { st with state := state } = st.owed :=
      Storage.owed_congr rfl hlast rfl
    rw [messages_eq, sentIn_nil]
    show state.totalStakedAmount + Storage.owed { st with state := state } +
      state.unclaimedUnstakedBalance + 0 + (st.state.totalStakedAmount - st.found q env) =
      st.state.totalStakedAmount + st.owed + st.state.unclaimedUnstakedBalance + 0
    omega
  | nothingRequested h =>
    have hquiet : ¬HubMsg.reconciles st.currentBatch.requestedLstTokenAmount
      .processUndelegations = true := by simp [HubMsg.reconciles, h]
    rw [if_neg hquiet]
    rfl
  | processUndelegations ne h =>
    have hreconciles : HubMsg.reconciles st.currentBatch.requestedLstTokenAmount
      .processUndelegations = true := by simp [HubMsg.reconciles, ne]
    rw [if_pos hreconciles]
    exact h.pool_eq rfl last_lt
  | updateParams auth messages_eq =>
    rw [messages_eq]
    rfl
  | updateConfig auth token messages_eq =>
    have hsent : sentIn _ = 0 := (emits_none fun m hm => by
      obtain ⟨a, rfl⟩ := messages_eq m hm
      exact ⟨rfl, rfl, rfl, rfl, rfl⟩).sent_eq
    rw [hsent]
    rfl
  | @redelegate srcValidator redelegations res auth messages_eq =>
    rw [messages_eq, (emits_beginRedelegate env.contract srcValidator redelegations).sent_eq]
    rfl
  | @updateGlobalIndex dispatcher res dispatcher_eq messages_eq =>
    rw [messages_eq, (emits_rewards (q.allDelegations env.contract) dispatcher).sent_eq]
    rfl

/-! ### A run -/

/-- A hub just created has no coins. -/
theorem Created.pool {msg : InstantiateMsg} {s : Clocked} (created : Created msg s) :
    s.st.pool = 0 := by
  obtain ⟨env, info, res, -, h⟩ := created
  have hi := instantiate_ok h
  unfold Storage.pool Storage.owed
  rw [hi.state_eq, hi.batch_eq]
  rfl

/-- What a call finds slashed. -/
def Call.slashed (s : Clocked) (c : Call) : List ℕ := [s.st.slashedBy c.querier c.env c.msg]

/-- **Every coin that was ever paid in is accounted for**: in every run of the
hub, what was paid in for stake and as rewards is what is recorded as staked, what
is owed for closed batches and what is unclaimed, together with what was paid out
and what the checks found slashed. -/
theorem pool_is_accounted_for {msg : InstantiateMsg} {s t : Clocked} {tr : List (Call × Clocked)}
    (created : Created msg s) (run : Run Step s tr t) :
    brought (fun c => paysIn c.info c.msg) tr =
      t.st.pool + brought (fun c => sentIn c.response.messages) tr +
        (along Call.slashed s tr).sum := by
  have hrun : t.Ledger ∧ brought (fun c => paysIn c.info c.msg) tr =
      t.st.pool + brought (fun c => sentIn c.response.messages) tr +
        (along Call.slashed s tr).sum := by
    refine run.history (P := fun tr t => t.Ledger ∧ brought (fun c => paysIn c.info c.msg) tr =
      t.st.pool + brought (fun c => sentIn c.response.messages) tr +
        (along Call.slashed s tr).sum) ⟨created.ledger, ?_⟩ fun tr t c u hrun ih step => ?_
    · rw [created.pool]
      rfl
    · obtain ⟨ledger, ih⟩ := ih
      have ledger' := (step.ledger ledger).1
      have hcall := step.effect.pool_eq ledger.1.last_lt ledger'.1.last_lt
      refine ⟨ledger', ?_⟩
      rw [brought_concat, brought_concat, hrun.along_concat, List.sum_append]
      simp only [Call.slashed, List.sum_cons, List.sum_nil]
      omega
  exact hrun.2

/-- A tenth of 100 staked coins is slashed, then a user asks for 60 tokens and
withdraws what they are worth. -/
def sampleSlashed : List Line :=
  [(sampleQuerier 90 100 0, sampleEnv 800, ⟨"bob", []⟩, .checkSlashing),
   (sampleQuerier 90 100 0, sampleEnv 900, ⟨"alice", []⟩, .unstake 60),
   (sampleQuerier 36 40 54, sampleEnv 2100, ⟨"alice", []⟩, .withdrawUnstaked)]

/-- Of 100 coins 54 are paid out and 10 slashed. -/
theorem pool_is_accounted_for_sample :
    let tr := playTrace Clocked.exec sampleHub (sampleStart ++ sampleSlashed)
    100 = (playEnd Clocked.exec sampleHub (sampleStart ++ sampleSlashed)).st.pool + 54 + 10 ∧
      brought (fun c => paysIn c.info c.msg) tr = 100 ∧
      brought (fun c => sentIn c.response.messages) tr = 54 ∧
      (along Call.slashed sampleHub tr).sum = 10 := by
  intro tr
  have hpool := pool_is_accounted_for sampleHub_created
    (played_run Clocked.exec_sound sampleHub (sampleStart ++ sampleSlashed) (by decide +kernel))
  have hparts : brought (fun c => paysIn c.info c.msg) tr = 100 ∧
      brought (fun c => sentIn c.response.messages) tr = 54 ∧
      (along Call.slashed sampleHub tr).sum = 10 := by decide +kernel
  refine ⟨?_, hparts⟩
  rw [← hparts.1, ← hparts.2.1, ← hparts.2.2]
  exact hpool

end Hub
end BabyLst
