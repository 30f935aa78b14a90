/-
# Where the epoch record is defined

Reading, querying and updating the pending amounts all subtract the start of the
record from the block height and, once the epoch is over, divide by its length;
they panic where the height is below the start or the length is zero.  The record
is written by `instantiate` from two fields of its message, and after that only
by the roll-over, which keeps the length and never moves the start beyond the
height it is called at (`Effect.pendingDelegation`).

So the three are defined in every later block of every run exactly when the
message is sound at the height of `instantiate` (`epoch_record_defined_iff`).
`instantiate` bounds the length from above, and neither the length from below nor
the start.
-/

import BabyLst.Hub.Ledger
import BabyLst.Hub.Pending

namespace BabyLst
namespace Hub

open Lib

/-- **The epoch record is defined** at a block: the pending amounts can be read
and queried there, and updated by whatever fits in their width. -/
structure Storage.EpochDefined (st : Storage) (env : Env) : Prop where
  read : ∃ amounts, getPendingDelegationAmount st env = .ok amounts
  queried : ∃ record, queryPendingDelegation st env = .ok record
  updated : ∀ staking unstaking : Option ℕ,
    (st.pendingDelegation.current env.block.height).1 + staking.getD 0 < 2 ^ 128 →
    (st.pendingDelegation.current env.block.height).2 + unstaking.getD 0 < 2 ^ 128 →
    ∃ st', updatePendingDelegationAmount st env staking unstaking = .ok st'

/-- **The record is sound at a height**: its epochs have a length, and it does not
start later. -/
structure PendingDelegation.Sound (p : PendingDelegation) (height : ℕ) : Prop where
  length_pos : 0 < p.stakingEpochLengthBlocks
  start_le : p.stakingEpochStartBlockHeight ≤ height

variable {msg : InstantiateMsg} {s t : Clocked} {tr : List (Call × Clocked)}

/-- A sound record is defined. -/
theorem PendingDelegation.Sound.epochDefined {st : Storage} {env : Env}
    (h : st.pendingDelegation.Sound env.block.height) (height : env.block.height < 2 ^ 64) :
    st.EpochDefined env :=
  ⟨⟨_, getPendingDelegationAmount_eq_ok.2 ⟨h.start_le, rfl⟩⟩,
    ⟨_, queryPendingDelegation_eq h.start_le h.length_pos height⟩,
    fun _ _ => updatePendingDelegationAmount_fits env h.start_le h.length_pos height⟩

/-- A record that is defined is sound: an update without amounts divides by the
length or compares with it. -/
theorem Storage.EpochDefined.sound {st : Storage} {env : Env} (h : st.EpochDefined env)
    (fits : (st.pendingDelegation.current env.block.height).1 < 2 ^ 128 ∧
      (st.pendingDelegation.current env.block.height).2 < 2 ^ 128) :
    st.pendingDelegation.Sound env.block.height := by
  obtain ⟨st', hst'⟩ := h.updated none none fits.1 fits.2
  obtain ⟨p, -, hwritten⟩ := updatePendingDelegationAmount_ok hst'
  exact ⟨hwritten.length_pos, hwritten.start_le⟩

/-- What looking at the batch does to the record. -/
theorem Completion.pendingDelegation {q : Querier} {st st' : Storage} {env : Env}
    {batch batch' : CurrentBatch} {messages : List CosmosMsg}
    (h : Completion q st env batch st' batch' messages) :
    st'.pendingDelegation = st.pendingDelegation ∨
      ∃ s u, st.pendingDelegation.Written st'.pendingDelegation env.block.height s u := by
  cases h with
  | stillOpen => exact .inl rfl
  | closed _ _ _ _ _ _ _ written => exact .inr ⟨_, _, written⟩

/-- **A call leaves the record as it is, or writes it** by the roll-over at its
own height. -/
theorem Effect.pendingDelegation {q : Querier} {st st' : Storage} {env : Env} {info : MessageInfo}
    {msg : HubMsg} {res : Response} (h : Effect q st env info msg st' res) :
    st'.pendingDelegation = st.pendingDelegation ∨
      ∃ s u, st.pendingDelegation.Written st'.pendingDelegation env.block.height s u := by
  cases h with
  | stake h =>
    obtain ⟨-, -, -, -, -, -, -, -, written, -⟩ := h
    exact .inr ⟨_, _, written⟩
  | unstake msg_eq token_eq h => exact h.pendingDelegation
  | withdraw h =>
    obtain ⟨-, -, -, -, -, -, -, -⟩ := h
    exact .inl rfl
  | processUndelegations ne h => exact h.pendingDelegation
  | release => exact .inl rfl
  | checkSlashing => exact .inl rfl
  | nothingRequested => exact .inl rfl
  | updateParams => exact .inl rfl
  | updateConfig => exact .inl rfl
  | redelegate => exact .inl rfl
  | updateGlobalIndex => exact .inl rfl

/-- **A call keeps the record sound.** -/
theorem Step.sound {s s' : Clocked} {c : Call} (h : Step s c s')
    (hs : s.st.pendingDelegation.Sound s.now.height) :
    s'.st.pendingDelegation.Sound s'.now.height := by
  rw [h.now_eq]
  rcases h.effect.pendingDelegation with heq | ⟨staking, unstaking, written⟩
  · rw [heq]
    exact ⟨hs.length_pos, hs.start_le.trans h.height_le⟩
  · exact ⟨written.length_eq ▸ written.length_pos, written.inside.1⟩

/-- What `instantiate` writes into the record. -/
theorem Created.pendingDelegation (created : Created msg s) : s.st.pendingDelegation =
    ⟨msg.stakingEpochLengthBlocks, msg.stakingEpochStartBlockHeight, 0, 0⟩ := by
  obtain ⟨env, info, res, -, h⟩ := created
  exact (instantiate_ok h).pending_eq

/-- **The pending-epoch arithmetic is defined in every block of every run exactly
when** the message that created the hub gives the epochs a length and starts the
first one no later than the hub. -/
theorem epoch_record_defined_iff (created : Created msg s) (height : s.now.height < 2 ^ 64) :
    (∀ (tr : List (Call × Clocked)) (t : Clocked) (env : Env), Run Step s tr t →
        t.now.height ≤ env.block.height → env.block.height < 2 ^ 64 → t.st.EpochDefined env) ↔
      0 < msg.stakingEpochLengthBlocks ∧ msg.stakingEpochStartBlockHeight ≤ s.now.height := by
  have hrecord := created.pendingDelegation
  constructor
  · intro hdefined
    have hnow := hdefined [] s ⟨s.now, "hub"⟩ .refl le_rfl height
    have hzero : s.st.pendingDelegation.current s.now.height = (0, 0) := by
      rw [hrecord, PendingDelegation.current, ite_self]
    have hsound := hnow.sound (by rw [hzero]; exact ⟨Nat.two_pow_pos _, Nat.two_pow_pos _⟩)
    rw [hrecord] at hsound
    exact ⟨hsound.length_pos, hsound.start_le⟩
  · rintro ⟨hpos, hle⟩ tr t env run hlater hheight
    have hsound : t.st.pendingDelegation.Sound t.now.height :=
      run.invariant (P := fun t => t.st.pendingDelegation.Sound t.now.height)
        (by rw [hrecord]; exact ⟨hpos, hle⟩) fun _ _ _ h hstep => hstep.sound h
    exact PendingDelegation.Sound.epochDefined
      ⟨hsound.length_pos, hsound.start_le.trans hlater⟩ hheight

/-- A message with epochs of 360 blocks from the height of the hub on. -/
theorem epoch_record_defined_sample :
    (∀ (tr : List (Call × Clocked)) (t : Clocked) (env : Env), Run Step sampleHub tr t →
        t.now.height ≤ env.block.height → env.block.height < 2 ^ 64 → t.st.EpochDefined env) ↔
      0 < sampleMsg.stakingEpochLengthBlocks ∧
        sampleMsg.stakingEpochStartBlockHeight ≤ sampleHub.now.height :=
  epoch_record_defined_iff sampleHub_created (by decide)

/-- The hub that is created at height 100 with these epochs, if it is. -/
def hubWithEpochs (start length : ℕ) : Clocked :=
  match instantiate (sampleEnv 100) ⟨"owner", []⟩ ⟨7200, "ubbn", 10000, start, length⟩ with
  | .ok r => ⟨(sampleEnv 100).block, r.1⟩
  | .error _ => sampleHub

/-- That hub, configured by its owner. -/
def configuredHub (start length : ℕ) : Clocked :=
  playEnd Clocked.exec (hubWithEpochs start length) (sampleStart.take 1)

/-- What a stake of 100 on it fails with, at height 100. -/
def stakeFault (t : Clocked) : Option Fault :=
  match execute (sampleQuerier 0 0 100) t.st (sampleEnv 100) ⟨"alice", [⟨"ubbn", 100⟩]⟩ .stake with
  | .ok _ => none
  | .error fault => some fault

/-- **`instantiate` accepts records that are not defined**: with a length of zero
a stake divides by it, and so does the query; with a start above the height both
subtract below zero. -/
theorem epoch_record_not_defined :
    (∃ tr, Created ⟨7200, "ubbn", 10000, 100, 0⟩ (hubWithEpochs 100 0) ∧
      Run Step (hubWithEpochs 100 0) tr (configuredHub 100 0) ∧
      stakeFault (configuredHub 100 0) = some (.panic .divideByZero) ∧
      queryPendingDelegation (configuredHub 100 0).st (sampleEnv 100) =
        .error (.panic .divideByZero)) ∧
    ∃ tr, Created ⟨7200, "ubbn", 10000, 200, 360⟩ (hubWithEpochs 200 360) ∧
      Run Step (hubWithEpochs 200 360) tr (configuredHub 200 360) ∧
      stakeFault (configuredHub 200 360) = some (.panic .subOverflow) ∧
      queryPendingDelegation (configuredHub 200 360).st (sampleEnv 100) =
        .error (.panic .subOverflow) := by
  exact ⟨⟨_, ⟨_, _, _, rfl, rfl⟩, played_run Clocked.exec_sound _ _ (by decide +kernel),
    by decide +kernel, by decide +kernel⟩, ⟨_, ⟨_, _, _, rfl, rfl⟩,
    played_run Clocked.exec_sound _ _ (by decide +kernel), by decide +kernel, by decide +kernel⟩⟩

end Hub
end BabyLst
