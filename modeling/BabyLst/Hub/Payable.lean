/-
# When a withdrawal is accepted

A withdrawal can be refused: the release may not be done, nothing may be due, the
amount may not fit, or a checked subtraction may fail.  For a user with a request
in a batch that is old enough, in a hub that keeps the claims covered and whose
free balance is enough for the batches up to this one, none of it happens
(`executeWithdrawUnstakedImpl_payable`): the release takes the batch along, so
what is due is not nothing, and the unclaimed balance is enough for it.
-/

import BabyLst.Hub.Affordable
import BabyLst.Hub.EpochRecord
import BabyLst.Hub.Listing

namespace BabyLst
namespace Hub

open Lib Std Finset

/-! ### The hub once a batch has been closed -/

/-- Where a batch has been closed, the record of the epoch has started. -/
def Clocked.Opened (s : Clocked) : Prop :=
  1 < s.st.currentBatch.id → s.st.pendingDelegation.stakingEpochStartBlockHeight ≤ s.now.height

/-- Looking at the batch closes none, or writes the record. -/
theorem Completion.opens {q : Querier} {st st' : Storage} {env : Env}
    {batch batch' : CurrentBatch} {messages : List CosmosMsg}
    (h : Completion q st env batch st' batch' messages) :
    st'.currentBatch.id = batch.id ∨
      st'.pendingDelegation.stakingEpochStartBlockHeight ≤ env.block.height := by
  cases h with
  | stillOpen => exact .inl rfl
  | closed _ _ _ _ _ _ _ written => exact .inr written.inside.1

theorem Effect.opens {q : Querier} {st st' : Storage} {env : Env} {info : MessageInfo}
    {msg : HubMsg} {res : Response} (h : Effect q st env info msg st' res) :
    st'.currentBatch.id = st.currentBatch.id ∨
      st'.pendingDelegation.stakingEpochStartBlockHeight ≤ env.block.height := by
  cases h with
  | stake h =>
    obtain ⟨-⟩ := h
    exact .inl rfl
  | unstake msg_eq token_eq h => exact h.opens
  | withdraw h =>
    obtain ⟨-⟩ := h
    exact .inl rfl
  | processUndelegations ne h => exact h.opens
  | release => exact .inl rfl
  | checkSlashing => exact .inl rfl
  | nothingRequested => exact .inl rfl
  | updateParams => exact .inl rfl
  | updateConfig => exact .inl rfl
  | redelegate => exact .inl rfl
  | updateGlobalIndex => exact .inl rfl

theorem Step.opened {s s' : Clocked} {c : Call} (h : Step s c s') (hs : s.Opened) :
    s'.Opened := by
  intro hid
  rw [h.now_eq]
  rcases h.effect.opens with hsame | hstarted
  · rcases h.effect.pendingDelegation with heq | ⟨staking, unstaking, written⟩
    · rw [heq]
      exact (hs (hsame ▸ hid)).trans h.height_le
    · exact written.inside.1
  · exact hstarted

/-- **What every run of careful withdrawals keeps.** -/
structure Clocked.Payable (s : Clocked) : Prop where
  releasable : s.Releasable
  opened : s.Opened
  covered : s.st.Covered

theorem CarefulStep.payable {s s' : Clocked} {c : Call} (h : CarefulStep s c s')
    (hs : s.Payable) : s'.Payable :=
  ⟨h.1.releasable hs.releasable, h.1.opened hs.opened,
    h.1.effect.covered hs.releasable.ledger.1 hs.covered h.2⟩

/-! ### One withdrawal -/

/-- **A release takes along** a batch that is old enough, if the balance is enough
for the batches up to it. -/
theorem Release.released {st : Storage} {cutoff balance left : ℕ}
    {released : List (ℕ × UnstakeHistory)} (ledger : BatchLedger st)
    (h : Release st.unstakeHistory cutoff st.state.lastProcessedBatch balance released left)
    {b : ℕ} (matured : st.Matured cutoff b)
    (funded : ∑ i ∈ Ioc st.state.lastProcessedBatch b, st.requiredFor i ≤ balance) :
    (st.afterRelease released).released b = true := by
  obtain ⟨e, he, htime⟩ := matured
  have hpos := ((ledger.closed_iff b).1 ⟨e, he⟩).1
  obtain ⟨_, he', -⟩ := h.kept b e he
  have hflag := (h.ledger ledger).released_iff b _ he'
  unfold Storage.released
  rw [he']
  refine hflag.2 ?_
  show b ≤ st.state.lastProcessedBatch + released.length
  by_cases hlast : b ≤ st.state.lastProcessedBatch
  · omega
  · refine (h.isGreatest ledger).2 ⟨by omega, fun i hi => ?_, funded⟩
    rw [mem_Ioc] at hi
    exact ledger.matured_of_le (by omega) hi.2 ⟨e, he, htime⟩

/-- An entry of a batch that a release leaves released pays what it is worth. -/
theorem Release.payout_eq {st : Storage} {cutoff balance left b amount : ℕ}
    {released : List (ℕ × UnstakeHistory)}
    (h : Release st.unstakeHistory cutoff st.state.lastProcessedBatch balance released left)
    {e : UnstakeHistory} (closed : st.unstakeHistory[b]? = some e)
    (hreleased : (st.afterRelease released).released b = true) :
    (st.afterRelease released).payout b amount = e.lstAppliedExchangeRate.mulFloor amount := by
  obtain ⟨_, he', -⟩ := h.kept b e closed
  simp only [Storage.released, he'] at hreleased
  simp only [Storage.payout, he', hreleased, if_true]

/-- What is due for one entry is part of what a withdrawal pays. -/
theorem payout_le_withdrawal {st : Storage} {user : Addr} {b amount : ℕ}
    (requested : st.unstakeWaitList[(user, b)]? = some amount) :
    st.payout b amount ≤ st.withdrawal user none :=
  List.single_le_sum (by simp) _
    (List.mem_map.2 ⟨(b, amount), mem_userEntries.2 requested, rfl⟩)

/-- What is due to a user is part of all that is due. -/
theorem withdrawal_le_claims (st : Storage) (user : Addr) :
    st.withdrawal user none ≤ st.claims := by
  have hclaims := claims_withdrawal st user none fun ids hids => by cases hids
  omega

/-- **A release goes through** where the free balance covers what is unclaimed. -/
theorem executeProcessWithdrawRequests_fits {q : Querier} {st : Storage} {env : Env} {free : ℕ}
    (ledger : BatchLedger st) (id_lt : st.currentBatch.id < 2 ^ 64) (worth : st.WorthFits)
    (late : st.parameters.unstakingPeriod ≤ env.block.time)
    (free_eq : actualFreeBalance q st env = .ok free)
    (unclaimed_le : st.state.unclaimedUnstakedBalance ≤ free) :
    ∃ released left res,
      Release st.unstakeHistory (env.block.time - st.parameters.unstakingPeriod)
        st.state.lastProcessedBatch (free - st.state.unclaimedUnstakedBalance) released left ∧
      executeProcessWithdrawRequests q st env = .ok ({ st.afterRelease released with
        state := { (st.afterRelease released).state with
          unclaimedUnstakedBalance := free - left } }, res) := by
  have hreleases : ∃ r, processWithdrawRate st
      (env.block.time - st.parameters.unstakingPeriod) free = .ok r :=
    processWithdrawRate_fits ledger id_lt unclaimed_le fun b h hb _ _ => worth b h hb
  obtain ⟨⟨st₁, events, left⟩, hrate⟩ := hreleases
  obtain ⟨-, released, rfl, release⟩ := processWithdrawRate_ok hrate
  have hspent := release.spent
  obtain ⟨res, hprocess, -⟩ := executeProcessWithdrawRequests_eq late free_eq hrate (by omega)
  exact ⟨released, left, res, release, hprocess⟩

/-- **A funded withdrawal is accepted**: the user has a request, worth a coin at
least, in a batch that is old enough, and the free balance covers the batches up
to it. -/
theorem executeWithdrawUnstakedImpl_payable {q : Querier} {st : Storage} {env : Env}
    {info : MessageInfo} {free b amount : ℕ} {e : UnstakeHistory} (ledger : BatchLedger st)
    (id_lt : st.currentBatch.id < 2 ^ 64) (worth : st.WorthFits) (covered : st.Covered)
    (free_eq : actualFreeBalance q st env = .ok free) (fits : free < 2 ^ 128)
    (requested : st.unstakeWaitList[(info.sender, b)]? = some amount)
    (closed : st.unstakeHistory[b]? = some e)
    (matured : e.time + st.parameters.unstakingPeriod ≤ env.block.time)
    (pays : e.lstAppliedExchangeRate.mulFloor amount ≠ 0)
    (funded : st.state.unclaimedUnstakedBalance +
      ∑ i ∈ Ioc st.state.lastProcessedBatch b, st.requiredFor i ≤ free) :
    ∃ st' res, executeWithdrawUnstakedImpl q st env info none = .ok (st', res) := by
  obtain ⟨released, left, res, release, hprocess⟩ :=
    executeProcessWithdrawRequests_fits ledger id_lt worth (by omega) free_eq (by omega)
  set st₂ : Storage := { st.afterRelease released with
    state := { (st.afterRelease released).state with
      unclaimedUnstakedBalance := free - left } }
  -- the release has taken the batch along, so the entry is paid
  have hreleased : (st.afterRelease released).released b = true :=
    release.released ledger ⟨e, closed, by omega⟩ (by omega)
  have hdue : (st.afterRelease released).payout b amount =
      e.lstAppliedExchangeRate.mulFloor amount := release.payout_eq closed hreleased
  have hle : (st.afterRelease released).payout b amount ≤
      (st.afterRelease released).withdrawal info.sender none := payout_le_withdrawal requested
  -- and the unclaimed balance is enough for it
  have hcovered : st₂.Covered := by
    have hclaims := release.claims_le ledger
    have hspent := release.spent
    unfold Storage.Covered at covered ⊢
    show (st.afterRelease released).claims ≤ free - left
    omega
  have henough : st₂.withdrawal info.sender none ≤ free - left :=
    (withdrawal_le_claims st₂ info.sender).trans hcovered
  have hsame : st₂.withdrawal info.sender none =
    (st.afterRelease released).withdrawal info.sender none := rfl
  obtain ⟨res', hx, -⟩ := (executeWithdrawUnstakedImpl_settled hprocess info none
    (r := (_, _))).2 ⟨by omega, by omega, henough, rfl⟩
  exact ⟨_, res', hx⟩

end Hub
end BabyLst
