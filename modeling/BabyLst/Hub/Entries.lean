/-
# The life of a request

What becomes of one entry of the wait list, over the calls of the hub.  A call
changes an entry on behalf of its user only (`actor`): a request adds to it while
its batch is the current one, and a withdrawal takes it away once its batch is
released (`Effect.entry`).  A batch is released when the unstaking period has
passed since it was closed, and not before (`Step.aged`); so a request is not
paid before that (`Run.paid_after`).
-/

import BabyLst.Hub.Claims
import BabyLst.Hub.Epochs

namespace BabyLst
namespace Hub

open Lib Std

/-- On whose behalf a message requests or withdraws, if it does: tokens handed
over are for the one who sent them. -/
def actor (info : MessageInfo) : HubMsg → Option Addr
  | .receive received => some received.sender
  | .unstake _ => some info.sender
  | .withdrawUnstaked => some info.sender
  | .withdrawUnstakedForBatches _ => some info.sender
  | _ => none

/-- **What a call does to an entry** of the wait list. -/
inductive EntryChange (st st' : Storage) (info : MessageInfo) (msg : HubMsg) (k : Addr × ℕ) : Prop
  | kept (entry_eq : st'.unstakeWaitList[k]? = st.unstakeWaitList[k]?)
  | requested {amount : ℕ} (mine : actor info msg = some k.1) (current : k.2 = st.currentBatch.id)
      (entry_eq : st'.unstakeWaitList[k]? = some ((st.unstakeWaitList[k]?).getD 0 + amount))
  | paid (mine : actor info msg = some k.1) (withdrawal : ∃ batchIds, msg = withdrawMsg batchIds)
      (released : st'.released k.2 = true) (entry_eq : st'.unstakeWaitList[k]? = none)

theorem Completion.waitList {q : Querier} {st st' : Storage} {env : Env}
    {batch batch' : CurrentBatch} {messages : List CosmosMsg}
    (h : Completion q st env batch st' batch' messages) :
    st'.unstakeWaitList = st.unstakeWaitList := by
  cases h with
  | stillOpen => rfl
  | closed => rfl

/-- **Every accepted call** changes an entry by a request or a payment of its
user, or not at all. -/
theorem Effect.entry {q : Querier} {st st' : Storage} {env : Env} {info : MessageInfo}
    {msg : HubMsg} {res : Response} (h : Effect q st env info msg st' res) (k : Addr × ℕ) :
    EntryChange st st' info msg k := by
  cases h with
  | stake h =>
    obtain ⟨-⟩ := h
    exact .kept rfl
  | @unstake msg sender amount flow batch messages token st' res msg_eq token_eq h =>
    have hactor : actor info msg = some sender := by
      rcases msg_eq with ⟨rfl, hsender, -⟩ | ⟨rfl, -⟩
      · exact congrArg some hsender.symm
      · rfl
    have hlist : st'.unstakeWaitList[k]? =
        if (sender, st.currentBatch.id) = k then
          some ((st.unstakeWaitList[(sender, st.currentBatch.id)]?).getD 0 + amount)
        else st.unstakeWaitList[k]? := by
      rw [h.waitList]
      exact getElem?_insert_eq ..
    split_ifs at hlist with hk
    · rw [hk] at hlist
      exact .requested (by rw [hactor, ← hk]) (by rw [← hk]) hlist
    · exact .kept hlist
  | @withdraw batchIds st' res h =>
    have hactor : actor info (withdrawMsg batchIds) = some info.sender := by
      cases batchIds <;> rfl
    obtain @⟨free, left, amount, released, res, -, -, -, -, -, -, -, -, -⟩ := h
    have hlist := removeUnstakeWaitList_getElem? info.sender
      ((st.afterRelease released).finishedBatches info.sender batchIds) (st.afterRelease released) k
    split_ifs at hlist with hk
    · have hreleased : (st.afterRelease released).released k.2 = true := mem_finishedBatches hk.2
      exact .paid (hactor.trans (congrArg some hk.1.symm)) ⟨batchIds, rfl⟩ hreleased hlist
    · exact .kept hlist
  | release => exact .kept rfl
  | checkSlashing => exact .kept rfl
  | nothingRequested => exact .kept rfl
  | processUndelegations ne h => exact .kept (by rw [h.waitList])
  | updateParams => exact .kept rfl
  | updateConfig => exact .kept rfl
  | redelegate => exact .kept rfl
  | updateGlobalIndex => exact .kept rfl

/-! ### The unstaking period -/

/-- What a release releases was closed before the cutoff. -/
theorem Release.time_le {st : Storage} {cutoff balance left : ℕ}
    {released : List (ℕ × UnstakeHistory)}
    (h : Release st.unstakeHistory cutoff st.state.lastProcessedBatch balance released left)
    {b : ℕ} {e : UnstakeHistory} (hb : (st.afterRelease released).unstakeHistory[b]? = some e)
    (hreleased : e.released = true) :
    ∃ e₀, st.unstakeHistory[b]? = some e₀ ∧ e₀.time = e.time ∧
      (e₀.released = true ∨ e.time ≤ cutoff) := by
  obtain ⟨e₀, he₀, heq, hiff⟩ := h.getElem?_inv hb
  have htime : e₀.time = e.time := by rw [heq]
  refine ⟨e₀, he₀, htime, (hiff.1 hreleased).imp_right fun hin => ?_⟩
  have hmem : b ∈ released.map Prod.fst := by
    rw [h.ids, List.mem_range'_1]
    omega
  obtain ⟨r, hr, rfl⟩ := List.mem_map.1 hmem
  obtain ⟨hfound, -, hle⟩ := h.found r hr
  obtain rfl := Option.some.inj (hfound.symm.trans he₀)
  rw [← htime]
  exact hle

/-- Where a history comes from: it was there, and released before or the period
has passed if it is released; or it is new, of this time and not released. -/
inductive Aged (st : Storage) (env : Env) (b : ℕ) (e : UnstakeHistory) : Prop
  | old {e₀ : UnstakeHistory} (found : st.unstakeHistory[b]? = some e₀) (time_eq : e₀.time = e.time)
      (waited : e.released = true →
        e₀.released = true ∨ e.time + st.parameters.unstakingPeriod ≤ env.block.time)
  | fresh (absent : st.unstakeHistory[b]? = none) (time_eq : e.time = env.block.time)
      (waits : e.released = false)

theorem Aged.of_eq {st st' : Storage} {env : Env} {b : ℕ} {e : UnstakeHistory}
    (hb : st'.unstakeHistory[b]? = some e) (heq : st'.unstakeHistory = st.unstakeHistory) :
    Aged st env b e := by
  rw [heq] at hb
  exact .old hb rfl .inl

theorem Completion.aged {q : Querier} {st st' : Storage} {env : Env}
    {batch batch' : CurrentBatch} {messages : List CosmosMsg}
    (h : Completion q st env batch st' batch' messages)
    (new : st.unstakeHistory[batch.id]? = none) {b : ℕ} {e : UnstakeHistory}
    (hb : st'.unstakeHistory[b]? = some e) : Aged st env b e := by
  cases h with
  | stillOpen => exact .of_eq hb rfl
  | @closed state =>
    have hget : (st.unstakeHistory.insert batch.id
        (batch.history env.block.time state.lstExchangeRate))[b]? =
          if batch.id = b then some (batch.history env.block.time state.lstExchangeRate)
          else st.unstakeHistory[b]? := getElem?_insert_eq ..
    dsimp only at hb
    rw [hget] at hb
    split_ifs at hb with hid
    · obtain rfl := Option.some.inj hb
      exact .fresh (hid ▸ new) rfl rfl
    · exact .old hb rfl .inl

/-- The batch that is current has no history. -/
theorem BatchLedger.current_open {st : Storage} (h : BatchLedger st) :
    st.unstakeHistory[st.currentBatch.id]? = none := by
  cases hb : st.unstakeHistory[st.currentBatch.id]? with
  | none => rfl
  | some e => exact absurd ((h.closed_iff _).1 ⟨e, hb⟩).2 (Nat.lt_irrefl _)

/-- A release is made when a period has passed at least. -/
theorem Release.aged {st st' : Storage} {env : Env} {balance left : ℕ}
    {released : List (ℕ × UnstakeHistory)}
    (h : Release st.unstakeHistory (env.block.time - st.parameters.unstakingPeriod)
      st.state.lastProcessedBatch balance released left)
    (old : st.parameters.unstakingPeriod ≤ env.block.time)
    (heq : st'.unstakeHistory = (st.afterRelease released).unstakeHistory) {b : ℕ}
    {e : UnstakeHistory} (hb : st'.unstakeHistory[b]? = some e) : Aged st env b e := by
  rw [heq] at hb
  obtain ⟨e₀, he₀, heq, hiff⟩ := h.getElem?_inv hb
  refine .old he₀ (by rw [heq]) fun hreleased => ?_
  obtain ⟨e₁, he₁, -, hwaited⟩ := h.time_le hb hreleased
  obtain rfl := Option.some.inj (he₀.symm.trans he₁)
  exact hwaited.imp_right fun hle => by omega

/-- **Every accepted call** leaves histories that are old, or new and not
released; it releases none before the unstaking period has passed. -/
theorem Step.aged {s s' : Clocked} {c : Call} (h : Step s c s') (ledger : BatchLedger s.st)
    {b : ℕ} {e : UnstakeHistory} (hb : s'.st.unstakeHistory[b]? = some e) :
    Aged s.st c.env b e := by
  have hold : c.msg = .processWithdrawRequests →
      s.st.parameters.unstakingPeriod ≤ c.env.block.time := by
    intro hmsg
    have haccepted := h.accepted
    rw [hmsg] at haccepted
    simp only [execute, bind_eq_ok] at haccepted
    obtain ⟨_, -, haccepted⟩ := haccepted
    obtain ⟨_, _, _, -, hold, -⟩ := executeProcessWithdrawRequests_ok haccepted
    exact hold
  have heffect := h.effect
  generalize s'.st = st' at heffect hb
  generalize c.msg = msg at heffect hold
  generalize c.response = res at heffect
  cases heffect with
  | stake h =>
    obtain ⟨-⟩ := h
    exact .of_eq hb rfl
  | unstake msg_eq token_eq h =>
    cases h.aged (b := b) (e := e) ledger.current_open hb with
    | old found time_eq waited => exact .old found time_eq waited
    | fresh absent time_eq waits => exact .fresh absent time_eq waits
  | withdraw h =>
    obtain @⟨free, left, amount, released, res, -, old, -, release, -, -, -, -, -⟩ := h
    exact release.aged old rfl hb
  | release free_eq unclaimed_le release => exact release.aged (hold rfl) rfl hb
  | checkSlashing => exact .of_eq hb rfl
  | nothingRequested => exact .of_eq hb rfl
  | processUndelegations ne h => exact h.aged ledger.current_open hb
  | updateParams => exact .of_eq hb rfl
  | updateConfig => exact .of_eq hb rfl
  | redelegate => exact .of_eq hb rfl
  | updateGlobalIndex => exact .of_eq hb rfl

/-! ### Runs -/

/-- A message that sets no unstaking period below `period`. -/
def KeepsPeriod (period : ℕ) : HubMsg → Bool
  | .updateParams _ _ (some unstakingPeriod) => period ≤ unstakingPeriod
  | _ => true

/-- What is released was closed `period` ago at least. -/
structure Clocked.Waited (period : ℕ) (s : Clocked) : Prop where
  ledger : s.Ledger
  period_le : period ≤ s.st.parameters.unstakingPeriod
  waited : ∀ (b : ℕ) (e : UnstakeHistory), s.st.unstakeHistory[b]? = some e →
    e.released = true → e.time + period ≤ s.now.time

theorem Step.waited {period : ℕ} {s s' : Clocked} {c : Call} (h : Step s c s')
    (keeps : KeepsPeriod period c.msg = true) (hs : s.Waited period) : s'.Waited period := by
  refine ⟨(h.ledger hs.ledger).1, ?_, fun b e hb hreleased => ?_⟩
  · by_cases hupdate : ∃ pause epochLength unstakingPeriod,
        c.msg = .updateParams pause epochLength unstakingPeriod
    · obtain ⟨pause, epochLength, unstakingPeriod, hmsg⟩ := hupdate
      have haccepted := h.accepted
      rw [hmsg] at haccepted keeps
      obtain ⟨-, -, hst⟩ := executeUpdateParams_ok haccepted
      rw [hst]
      cases unstakingPeriod with
      | none => exact hs.period_le
      | some unstakingPeriod => exact of_decide_eq_true keeps
    · rw [h.effect.parameters_eq fun pause epochLength unstakingPeriod heq =>
        hupdate ⟨_, _, _, heq⟩]
      exact hs.period_le
  · have hle := hs.period_le
    have htime := h.time_le
    rw [h.now_eq]
    cases h.aged hs.ledger.1 hb with
    | old found time_eq waited =>
      rcases waited hreleased with hbefore | hafter
      · have := hs.waited b _ found hbefore
        omega
      · omega
    | fresh absent time_eq waits =>
      rw [waits] at hreleased
      cases hreleased

/-- What has been waited, is waited on over a run. -/
theorem Run.waited {period : ℕ} {s t : Clocked} {tr : List (Call × Clocked)} (run : Run Step s tr t)
    (hs : s.Waited period) (keeps : ∀ e ∈ tr, KeepsPeriod period e.1.msg = true) :
    t.Waited period := by
  have run' : Run (fun s c s' => Step s c s' ∧ KeepsPeriod period c.msg = true) s tr t :=
    run.mono fun e he _ _ hstep => ⟨hstep, keeps e he⟩
  exact run'.invariant hs fun _ _ _ ht hstep => hstep.1.waited hstep.2 ht

/-- What holds of a run from `s` about the entry `k`, when there was one: it is
there until its batch is released, and a batch closed since then was closed
since then. -/
structure Follows (period : ℕ) (k : Addr × ℕ) (s t : Clocked) : Prop where
  waited : t.Waited period
  time_le : s.now.time ≤ t.now.time
  entry : t.st.unstakeWaitList[k]? = none → t.st.released k.2 = true
  closed : s.st.unstakeHistory[k.2]? = none → ∀ e, t.st.unstakeHistory[k.2]? = some e →
    s.now.time ≤ e.time

theorem Step.follows {period : ℕ} {k : Addr × ℕ} {s t u : Clocked} {c : Call} (h : Step t c u)
    (keeps : KeepsPeriod period c.msg = true) (ht : Follows period k s t) :
    Follows period k s u := by
  have hkept := (h.ledger ht.waited.ledger).2
  have htime := h.time_le
  have hstart := ht.time_le
  refine ⟨h.waited keeps ht.waited, ?_, fun hnone => ?_, fun habsent e he => ?_⟩
  · rw [h.now_eq]
    omega
  · cases h.effect.entry k with
    | kept entry_eq =>
      have hreleased := ht.entry (entry_eq.symm.trans hnone)
      unfold Storage.released at hreleased ⊢
      cases hb : t.st.unstakeHistory[k.2]? with
      | none => simp [hb] at hreleased
      | some e =>
        obtain ⟨r, hr, himp⟩ := hkept k.2 e hb
        rw [hb] at hreleased
        rw [hr]
        exact himp hreleased
    | requested mine current entry_eq =>
      rw [entry_eq] at hnone
      cases hnone
    | paid mine withdrawal released => exact released
  · cases h.aged ht.waited.ledger.1 he with
    | old found time_eq =>
      rw [← time_eq]
      exact ht.closed habsent _ found
    | fresh absent time_eq =>
      rw [time_eq]
      omega

/-- **Nobody is paid before the period has passed**: an entry that is gone was of
a batch that had been closed for `period` at least; and if the batch was still
open when the entry was found, that long has passed since then. -/
theorem Run.paid_after {period : ℕ} {k : Addr × ℕ} {s t : Clocked} {tr : List (Call × Clocked)}
    (run : Run Step s tr t) (hs : s.Waited period)
    (keeps : ∀ e ∈ tr, KeepsPeriod period e.1.msg = true)
    (requested : s.st.unstakeWaitList[k]? ≠ none) (gone : t.st.unstakeWaitList[k]? = none) :
    ∃ e, t.st.unstakeHistory[k.2]? = some e ∧ e.released = true ∧
      e.time + period ≤ t.now.time ∧
      (s.st.unstakeHistory[k.2]? = none → s.now.time + period ≤ t.now.time) := by
  have start : Follows period k s s := by
    refine ⟨hs, le_rfl, fun hnone => absurd hnone requested, fun habsent e he => ?_⟩
    rw [habsent] at he
    cases he
  have run' : Run (fun s c s' => Step s c s' ∧ KeepsPeriod period c.msg = true) s tr t :=
    run.mono fun e he _ _ hstep => ⟨hstep, keeps e he⟩
  have finish := run'.invariant start fun _ _ _ ht hstep => hstep.1.follows hstep.2 ht
  have hreleased := finish.entry gone
  unfold Storage.released at hreleased
  cases hb : t.st.unstakeHistory[k.2]? with
  | none => simp [hb] at hreleased
  | some e =>
    rw [hb] at hreleased
    have hwaited := finish.waited.waited k.2 e hb hreleased
    refine ⟨e, rfl, hreleased, hwaited, fun habsent => ?_⟩
    have := finish.closed habsent e hb
    omega

/-- A run in which nobody acts on behalf of a user leaves the user's entries
alone. -/
theorem Run.entry_kept {k : Addr × ℕ} {s t : Clocked} {tr : List (Call × Clocked)}
    (run : Run Step s tr t) (never : ∀ e ∈ tr, actor e.1.info e.1.msg ≠ some k.1) :
    t.st.unstakeWaitList[k]? = s.st.unstakeWaitList[k]? := by
  refine run.unchanged (P := fun _ => True) (f := fun t : Clocked => t.st.unstakeWaitList[k]?)
    (g := fun _ c => actor c.info c.msg = some k.1) trivial
    (fun t c u _ hstep => ⟨trivial, ?_⟩) never
  cases hstep.effect.entry k with
  | kept entry_eq => exact .inl entry_eq
  | requested mine => exact .inr mine
  | paid mine => exact .inr mine

/-- What is due to a user for an entry that stays does not get less, and does not
change once it is due. -/
theorem Kept.due {st st' : Storage} (h : Kept st st') {user : Addr} {b : ℕ}
    (entry_eq : st'.unstakeWaitList[(user, b)]? = st.unstakeWaitList[(user, b)]?) :
    st.due user b ≤ st'.due user b ∧
      (st.released b = true → st'.due user b = st.due user b) := by
  unfold Storage.due Storage.payout Storage.released
  rw [entry_eq]
  cases hentry : st.unstakeWaitList[(user, b)]? with
  | none => simp
  | some amount =>
    cases hb : st.unstakeHistory[b]? with
    | none => simp
    | some e =>
      obtain ⟨r, hr, himp⟩ := h b e hb
      rw [hr]
      cases hreleased : e.released with
      | true => simp [himp hreleased, hreleased]
      | false => simp [hreleased]

end Hub
end BabyLst
