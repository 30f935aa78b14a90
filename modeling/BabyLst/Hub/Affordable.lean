/-
# The release takes the longest affordable prefix

The release loop walks the batches after the last processed one and leaves by
four exits: no such batch, a batch that is too young, one that is released
already, one that costs more than what is left.  In a state that a hub reaches
the third is never taken, and stopping at the first failure loses nothing: the
batches are closed in order, so those behind one that is too young are too young
as well (`BatchLedger.matured_of_le`).

What the loop needs to end is that the worth of every closed batch fits in its
type (`Storage.WorthFits`), which closing the batch has checked: its worth was
taken from the delegations.
-/

import BabyLst.Hub.Settled
import BabyLst.Hub.Withdrawable
import BabyLst.Lib.Prefix

namespace BabyLst
namespace Hub

open Lib Std Finset

/-! ### The worth of a closed batch -/

/-- **The worth of every closed batch fits in 128 bits.** -/
def Storage.WorthFits (st : Storage) : Prop :=
  ∀ (b : ℕ) (h : UnstakeHistory), st.unstakeHistory[b]? = some h → h.required < 2 ^ 128

/-- A plan is for an amount that fits. -/
theorem calculateUndelegations_lt {amt : ℕ} {vs : List ValidatorResponse} {plan : List ℕ}
    (h : calculateUndelegations amt vs = .ok plan) : amt < 2 ^ 128 := by
  simp only [calculateUndelegations, bind_eq_ok, require_eq_ok, sumU128_eq_ok] at h
  obtain ⟨-, -, total, ⟨-, hlt⟩, -, hle, -⟩ := h
  exact hle.trans_lt hlt

/-- What is undelegated for a batch is its worth. -/
theorem Completion.worthFits {q : Querier} {st st' : Storage} {env : Env}
    {batch batch' : CurrentBatch} {messages : List CosmosMsg}
    (h : Completion q st env batch st' batch' messages) (hst : st.WorthFits) : st'.WorthFits := by
  cases h with
  | stillOpen => exact hst
  | closed _ _ _ _ _ plan_eq => exact forall_getElem?_insert (calculateUndelegations_lt plan_eq) hst

theorem Release.worthFits {st : Storage} {cutoff balance left : ℕ}
    {released : List (ℕ × UnstakeHistory)}
    (h : Release st.unstakeHistory cutoff st.state.lastProcessedBatch balance released left)
    (hst : st.WorthFits) : (st.afterRelease released).WorthFits := by
  intro b e hb
  obtain ⟨e₀, he₀, he, -⟩ := h.getElem?_inv hb
  rw [he]
  exact hst b e₀ he₀

theorem Effect.worthFits {q : Querier} {st st' : Storage} {env : Env} {info : MessageInfo}
    {msg : HubMsg} {res : Response} (h : Effect q st env info msg st' res) (hst : st.WorthFits) :
    st'.WorthFits := by
  cases h with
  | stake h =>
    obtain ⟨-⟩ := h
    exact hst
  | unstake msg_eq token_eq h => exact h.worthFits hst
  | withdraw h =>
    obtain ⟨-, -, -, release, -⟩ := h
    exact release.worthFits hst
  | release free_eq unclaimed_le h => exact h.worthFits hst
  | processUndelegations ne h => exact h.worthFits hst
  | _ => exact hst

/-- **What every run keeps**: the ledger, a batch id that fits, and worths that
fit. -/
structure Clocked.Releasable (s : Clocked) : Prop where
  ledger : s.Ledger
  id_lt : s.st.currentBatch.id < 2 ^ 64
  worth : s.st.WorthFits

theorem Step.releasable {s s' : Clocked} {c : Call} (h : Step s c s') (hs : s.Releasable) :
    s'.Releasable :=
  ⟨(h.ledger hs.ledger).1, h.id_lt hs.id_lt, h.effect.worthFits hs.worth⟩

theorem Created.releasable {msg : InstantiateMsg} {s t : Clocked} {tr : List (Call × Clocked)}
    (created : Created msg s) (run : Run Step s tr t) : t.Releasable := by
  refine run.invariant (P := Clocked.Releasable) ⟨created.ledger, ?_, ?_⟩
    fun _ _ _ h hstep => hstep.releasable h
  · obtain ⟨env, info, res, -, h⟩ := created
    rw [(instantiate_ok h).batch_eq]
    decide
  · obtain ⟨env, info, res, -, h⟩ := created
    intro b e hb
    simp [(instantiate_ok h).history_eq] at hb

/-! ### Matured batches -/

/-- The batch is closed, and as old as the cutoff. -/
def Storage.Matured (st : Storage) (cutoff b : ℕ) : Prop :=
  ∃ h, st.unstakeHistory[b]? = some h ∧ h.time ≤ cutoff

/-- What releasing the batch takes. -/
def Storage.requiredFor (st : Storage) (b : ℕ) : ℕ :=
  match st.unstakeHistory[b]? with
  | some h => h.required
  | none => 0

theorem Storage.requiredFor_eq {st : Storage} {b : ℕ} {h : UnstakeHistory}
    (hb : st.unstakeHistory[b]? = some h) : st.requiredFor b = h.required := by
  rw [Storage.requiredFor, hb]

/-- **No matured batch lies behind an unmatured one.** -/
theorem BatchLedger.matured_of_le {st : Storage} (ledger : BatchLedger st) {cutoff b b' : ℕ}
    (pos : 1 ≤ b) (hle : b ≤ b') (matured : st.Matured cutoff b') : st.Matured cutoff b := by
  obtain ⟨h', hb', htime⟩ := matured
  have hclosed := (ledger.closed_iff b').1 ⟨h', hb'⟩
  obtain ⟨h, hb⟩ := (ledger.closed_iff b).2 ⟨pos, by omega⟩
  exact ⟨h, hb, (ledger.time_mono b b' h h' hle hb hb').trans htime⟩

/-- A batch after the last processed one is not released. -/
theorem BatchLedger.not_released {st : Storage} (ledger : BatchLedger st) {b : ℕ}
    {h : UnstakeHistory} (hlt : st.state.lastProcessedBatch < b)
    (hb : st.unstakeHistory[b]? = some h) : h.released = false := by
  rw [← Bool.not_eq_true, ledger.released_iff b h hb]
  omega

/-! ### The prefix -/

/-- What the released batches take, by their ids. -/
theorem Release.sum_requiredFor {st : Storage} {cutoff balance left : ℕ}
    {released : List (ℕ × UnstakeHistory)}
    (h : Release st.unstakeHistory cutoff st.state.lastProcessedBatch balance released left) :
    ∑ b ∈ Ioc st.state.lastProcessedBatch (st.state.lastProcessedBatch + released.length),
        st.requiredFor b + left = balance := by
  rw [sum_Ioc_eq_sum_range', ← h.ids, List.map_map, ← h.spent]
  congr 2
  exact List.map_congr_left fun e he => Storage.requiredFor_eq (h.found e he).1

/-- **A run of the release loop takes the longest affordable prefix** of the
matured batches after the last processed one. -/
theorem Release.isGreatest {st : Storage} {cutoff balance left : ℕ}
    {released : List (ℕ × UnstakeHistory)} (ledger : BatchLedger st)
    (h : Release st.unstakeHistory cutoff st.state.lastProcessedBatch balance released left) :
    IsGreatest {k | Affordable (st.Matured cutoff) st.requiredFor st.state.lastProcessedBatch
      balance k} (st.state.lastProcessedBatch + released.length) := by
  have hspent := h.sum_requiredFor
  refine isGreatest_affordable ⟨Nat.le_add_right _ _, fun b hb => ?_, by omega⟩ ?_
  · rw [mem_Ioc] at hb
    have hmem : b ∈ released.map Prod.fst := by
      rw [h.ids, List.mem_range'_1]
      omega
    obtain ⟨e, he, rfl⟩ := List.mem_map.1 hmem
    obtain ⟨hfound, -, htime⟩ := h.found e he
    exact ⟨e.2, hfound, htime⟩
  · rintro ⟨e, he, htime⟩
    have hopen := ledger.not_released (by omega) he
    have hless := h.stopped e (by rw [← he]; congr 1; omega) hopen htime
    rw [Storage.requiredFor_eq he]
    omega

/-- **What `process_withdraw_rate` does at a cutoff with a free balance**, where it
ends in `st'` with `left` over, `k` being the last batch it released. -/
structure PaysPrefix (st : Storage) (cutoff free : ℕ) (st' : Storage) (left k : ℕ) : Prop where
  /-- `k` ends the longest prefix that is matured and within the balance. -/
  greatest : IsGreatest {k | Affordable (st.Matured cutoff) st.requiredFor
    st.state.lastProcessedBatch (free - st.state.unclaimedUnstakedBalance) k} k
  /-- Exactly the batches up to `k` become released. -/
  history_eq : ∀ b : ℕ, st'.unstakeHistory[b]? =
    if b ∈ Ioc st.state.lastProcessedBatch k then st.unstakeHistory[b]?.map UnstakeHistory.release
    else st.unstakeHistory[b]?
  /-- None of them was released before. -/
  unreleased : ∀ b ∈ Ioc st.state.lastProcessedBatch k, ∃ h, st.unstakeHistory[b]? = some h ∧
    h.released = false
  /-- The last processed batch becomes `k`, and nothing else changes. -/
  state_eq : st' = { st with
    unstakeHistory := st'.unstakeHistory
    state := { st.state with lastProcessedBatch := k } }
  /-- What is left over is what the released batches did not take. -/
  left_eq : left + ∑ b ∈ Ioc st.state.lastProcessedBatch k, st.requiredFor b =
    free - st.state.unclaimedUnstakedBalance
  /-- A second release at the same cutoff, once the unclaimed balance is what the
  free one exceeds `left` by, does nothing. -/
  again : ∀ unclaimed : ℕ,
    processWithdrawRate
        { st' with state := { st'.state with unclaimedUnstakedBalance := unclaimed } } cutoff
        (unclaimed + left) =
      .ok ({ st' with state := { st'.state with unclaimedUnstakedBalance := unclaimed } }, [], left)

/-- **The release step pays the longest affordable prefix of matured batches**, in
every state that a hub reaches, at every cutoff and every free balance that is at
least the unclaimed one; and no matured batch lies behind an unmatured one. -/
theorem release_pays_longest_prefix {msg : InstantiateMsg} {s t : Clocked}
    {tr : List (Call × Clocked)} (created : Created msg s) (run : Run Step s tr t)
    {cutoff free : ℕ} (unclaimed_le : t.st.state.unclaimedUnstakedBalance ≤ free) :
    (∃ st' events left k, processWithdrawRate t.st cutoff free = .ok (st', events, left) ∧
      PaysPrefix t.st cutoff free st' left k) ∧
    ∀ b b', 1 ≤ b → b ≤ b' → t.st.Matured cutoff b' → t.st.Matured cutoff b := by
  obtain ⟨⟨ledger, -⟩, id_lt, worth⟩ := created.releasable run
  refine ⟨?_, fun b b' => ledger.matured_of_le⟩
  obtain ⟨⟨st', events, left⟩, hok⟩ : ∃ r, processWithdrawRate t.st cutoff free = .ok r :=
    processWithdrawRate_fits ledger id_lt unclaimed_le fun b h hb _ _ => worth b h hb
  obtain ⟨hnext, hstops⟩ := processWithdrawRate_stops hok
  obtain ⟨-, released, rfl, hrelease⟩ := processWithdrawRate_ok hok
  refine ⟨_, events, left, t.st.state.lastProcessedBatch + released.length, hok,
    hrelease.isGreatest ledger, fun b => ?_, fun b hb => ?_, rfl, ?_, fun unclaimed => ?_⟩
  · rw [hrelease.getElem?]
    exact if_congr mem_Ioc.symm rfl rfl
  · obtain ⟨h, hb', -⟩ := (hrelease.isGreatest ledger).1.ready b hb
    exact ⟨h, hb', ledger.not_released (mem_Ioc.1 hb).1 hb'⟩
  · rw [Nat.add_comm]
    exact hrelease.sum_requiredFor
  · exact processWithdrawRate_of_stopsAt hnext hstops

/-- The batch of the sample, released once its unstaking period is over. -/
theorem release_pays_longest_prefix_sample :
    (∃ st' events left k,
      processWithdrawRate sampleWaiting.st 10000 60 = .ok (st', events, left) ∧
        PaysPrefix sampleWaiting.st 10000 60 st' left k) ∧
    ∀ b b', 1 ≤ b → b ≤ b' → sampleWaiting.st.Matured 10000 b' → sampleWaiting.st.Matured 10000 b :=
  release_pays_longest_prefix sampleHub_created sampleWaiting_run (by decide +kernel)

end Hub
end BabyLst
