/-
# Batches and staking epochs

A batch is closed when more than `epoch_length` seconds have passed since the
last closing; a staking epoch of the chain is a number of blocks.  `instantiate`
asks for an `epoch_length` of at least `AVERAGE_BLOCK_TIME` seconds per block of
a staking epoch, so that no two batches are closed in one, but
`execute_update_params` does not ask for it again.

On a chain that keeps the average block time, a run in which every new epoch
length is long enough closes at most one batch per staking epoch
(`one_batch_per_epoch`); a run with a shorter one may close two
(`two_batches_in_one_epoch`).
-/

import BabyLst.Hub.Ledger

namespace BabyLst
namespace Hub

open Lib Std

/-- The batch `b` is closed between the two storages. -/
def Closes (st st' : Storage) (b : ℕ) : Prop :=
  st.unstakeHistory[b]? = none ∧ ∃ h, st'.unstakeHistory[b]? = some h

/-- The epoch length a message sets. -/
def epochLengthSet : HubMsg → Option ℕ
  | .updateParams _ epochLength _ => epochLength
  | _ => none

/-- A message that sets no epoch length below `blocks` average block times. -/
def SetsEnough (blocks : ℕ) (msg : HubMsg) : Prop :=
  ∀ epochLength ∈ epochLengthSet msg, blocks * AVERAGE_BLOCK_TIME ≤ epochLength

instance (blocks : ℕ) (msg : HubMsg) : Decidable (SetsEnough blocks msg) :=
  inferInstanceAs (Decidable (∀ _ ∈ _, _))

/-- The blocks of a chain whose `clock` gives the time of each height: less than
`blocks` heights take at most `blocks` average block times. -/
def Paced (blocks : ℕ) (clock : ℕ → ℕ) : Prop :=
  ∀ h h', h ≤ h' → h' < h + blocks → clock h' ≤ clock h + blocks * AVERAGE_BLOCK_TIME

/-- The calls of a run are in blocks of that chain. -/
def OnChain (clock : ℕ → ℕ) (tr : List (Call × Clocked)) : Prop :=
  ∀ e ∈ tr, e.1.env.block.time = clock e.1.env.block.height

/-- The epoch length is enough for the staking epochs of `blocks` blocks. -/
def Storage.LongEpochs (blocks : ℕ) (st : Storage) : Prop :=
  blocks * AVERAGE_BLOCK_TIME ≤ st.parameters.epochLength

theorem Completion.lastUnbondedTime_le {q : Querier} {st st' : Storage} {env : Env}
    {batch batch' : CurrentBatch} {messages : List CosmosMsg}
    (h : Completion q st env batch st' batch' messages) :
    st.state.lastUnbondedTime ≤ st'.state.lastUnbondedTime ∧ st'.parameters = st.parameters := by
  cases h with
  | stillOpen actual => exact ⟨actual.frame.2.2.1.ge, rfl⟩
  | closed actual le => exact ⟨le, rfl⟩

/-- **Only `UpdateParams` changes the parameters.** -/
theorem Effect.parameters_eq {q : Querier} {st st' : Storage} {env : Env} {info : MessageInfo}
    {msg : HubMsg} {res : Response} (h : Effect q st env info msg st' res)
    (steady : ∀ pause epochLength unstakingPeriod,
      msg ≠ .updateParams pause epochLength unstakingPeriod) : st'.parameters = st.parameters := by
  cases h with
  | stake h =>
    obtain ⟨-, -, -, -⟩ := h
    rfl
  | unstake msg_eq token_eq h => exact h.lastUnbondedTime_le.2
  | withdraw h =>
    obtain ⟨-, -, -, -, -, -, -, -⟩ := h
    rfl
  | processUndelegations ne h => exact h.lastUnbondedTime_le.2
  | updateParams => exact absurd rfl (steady _ _ _)
  | _ => rfl

/-- The time of the last closing never goes back, and an epoch length that is
long enough stays so under messages that set no shorter one. -/
theorem Effect.longEpochs {q : Querier} {st st' : Storage} {env : Env} {info : MessageInfo}
    {msg : HubMsg} {res : Response} {blocks : ℕ} (h : Effect q st env info msg st' res)
    (enough : SetsEnough blocks msg) (hlong : st.LongEpochs blocks) :
    st'.LongEpochs blocks ∧ st.state.lastUnbondedTime ≤ st'.state.lastUnbondedTime := by
  cases h with
  | stake h =>
    obtain ⟨-, -, -, actual⟩ := h
    exact ⟨hlong, actual.frame.2.2.1.ge⟩
  | unstake msg_eq token_eq h =>
    obtain ⟨hle, hpar⟩ := h.lastUnbondedTime_le
    refine ⟨?_, hle⟩
    unfold Storage.LongEpochs
    rw [hpar]
    exact hlong
  | withdraw h =>
    obtain ⟨-, -, -, -, -, -, -, -⟩ := h
    exact ⟨hlong, le_rfl⟩
  | release => exact ⟨hlong, le_rfl⟩
  | checkSlashing h => exact ⟨hlong, h.frame.2.2.1.ge⟩
  | nothingRequested => exact ⟨hlong, le_rfl⟩
  | processUndelegations ne h =>
    obtain ⟨hle, hpar⟩ := h.lastUnbondedTime_le
    refine ⟨?_, hle⟩
    unfold Storage.LongEpochs
    rw [hpar]
    exact hlong
  | @updateParams pause epochLength unstakingPeriod =>
    refine ⟨?_, le_rfl⟩
    cases epochLength with
    | none => exact hlong
    | some epochLength => exact enough epochLength rfl
  | updateConfig => exact ⟨hlong, le_rfl⟩
  | redelegate => exact ⟨hlong, le_rfl⟩
  | updateGlobalIndex => exact ⟨hlong, le_rfl⟩

/-- **A call that closes a batch comes late enough**, and leaves its time as that
of the last closing. -/
theorem Effect.closes {q : Querier} {st st' : Storage} {env : Env} {info : MessageInfo}
    {msg : HubMsg} {res : Response} {b : ℕ} (h : Effect q st env info msg st' res)
    (hb : Closes st st' b) :
    st.parameters.epochLength < env.block.time - st.state.lastUnbondedTime ∧
      st'.state.lastUnbondedTime = env.block.time := by
  have hsame : ∀ {st' : Storage}, st'.unstakeHistory = st.unstakeHistory → ¬Closes st st' b := by
    rintro st' heq ⟨hnone, e, he⟩
    rw [heq, hnone] at he
    simp at he
  have hrelease : ∀ {cutoff balance left : ℕ} {released : List (ℕ × UnstakeHistory)}
      {st' : Storage}, Release st.unstakeHistory cutoff st.state.lastProcessedBatch balance
        released left → st'.unstakeHistory = (st.afterRelease released).unstakeHistory →
      ¬Closes st st' b := by
    rintro cutoff balance left released st' hrel heq ⟨hnone, e, he⟩
    rw [heq] at he
    obtain ⟨e₀, he₀, -⟩ := hrel.getElem?_inv he
    simp [hnone] at he₀
  cases h with
  | stake h =>
    obtain ⟨-, -, -, actual⟩ := h
    exact absurd hb (hsame rfl)
  | unstake msg_eq token_eq h =>
    cases h with
    | stillOpen => exact absurd hb (hsame rfl)
    | closed actual le due => exact ⟨due, rfl⟩
  | withdraw h =>
    obtain ⟨-, -, -, hrel, -, -, -, -⟩ := h
    exact absurd hb (hrelease hrel rfl)
  | release free_eq unclaimed_le h => exact absurd hb (hrelease h rfl)
  | checkSlashing h => exact absurd hb (hsame rfl)
  | nothingRequested => exact absurd hb (hsame rfl)
  | processUndelegations ne h =>
    generalize res.messages = messages at h
    cases h with
    | stillOpen => exact absurd hb (hsame rfl)
    | closed actual le due => exact ⟨due, rfl⟩
  | updateParams => exact absurd hb (hsame rfl)
  | updateConfig => exact absurd hb (hsame rfl)
  | redelegate => exact absurd hb (hsame rfl)
  | updateGlobalIndex => exact absurd hb (hsame rfl)

/-- A run keeps the epoch length long enough, and never turns back the time of
the last closing. -/
theorem Run.longEpochs {s t : Clocked} {tr : List (Call × Clocked)} {blocks : ℕ}
    (run : Run Step s tr t) (enough : ∀ e ∈ tr, SetsEnough blocks e.1.msg)
    (hlong : s.st.LongEpochs blocks) :
    t.st.LongEpochs blocks ∧ s.st.state.lastUnbondedTime ≤ t.st.state.lastUnbondedTime := by
  refine run.history (P := fun tr t => (∀ e ∈ tr, SetsEnough blocks e.1.msg) →
    t.st.LongEpochs blocks ∧ s.st.state.lastUnbondedTime ≤ t.st.state.lastUnbondedTime)
    (fun _ => ⟨hlong, le_rfl⟩) (fun tr t c u _ ih hstep henough => ?_) enough
  obtain ⟨hl, hle⟩ := ih fun e he => henough e (List.mem_append_left _ he)
  obtain ⟨hl', hle'⟩ := hstep.effect.longEpochs
    (henough (c, u) (List.mem_append_right _ (List.mem_singleton_self _))) hl
  exact ⟨hl', hle.trans hle'⟩

/-- **At most one batch per staking epoch**, in every run whose messages set no
epoch length below `blocks` average block times: the heights at which two
batches are closed are never in one epoch `[start + k·blocks, start + (k+1)·blocks)`. -/
theorem one_batch_per_epoch {msg : InstantiateMsg} {clock : ℕ → ℕ} {s t₁ u₁ t₂ u₂ : Clocked}
    {tr₁ tr₂ : List (Call × Clocked)} {c₁ c₂ : Call} {b₁ b₂ : ℕ}
    (created : Created msg s) (paced : Paced msg.stakingEpochLengthBlocks clock)
    (before : Run Step s tr₁ t₁) (first : Step t₁ c₁ u₁) (between : Run Step u₁ tr₂ t₂)
    (second : Step t₂ c₂ u₂)
    (onChain : OnChain clock (tr₁ ++ (c₁, u₁) :: tr₂ ++ [(c₂, u₂)]))
    (enough : ∀ e ∈ tr₁ ++ (c₁, u₁) :: tr₂ ++ [(c₂, u₂)],
      SetsEnough msg.stakingEpochLengthBlocks e.1.msg)
    (closes₁ : Closes t₁.st u₁.st b₁) (closes₂ : Closes t₂.st u₂.st b₂) (k : ℕ) :
    let start := msg.stakingEpochStartBlockHeight
    let blocks := msg.stakingEpochLengthBlocks
    ¬((start + k * blocks ≤ c₁.env.block.height ∧ c₁.env.block.height < start + (k + 1) * blocks) ∧
      start + k * blocks ≤ c₂.env.block.height ∧
        c₂.env.block.height < start + (k + 1) * blocks) := by
  rintro start blocks ⟨⟨hlo₁, -⟩, -, hhi₂⟩
  obtain ⟨env, info, res, -, hinst⟩ := created
  have hlong : s.st.LongEpochs blocks := by
    have hi := instantiate_ok hinst
    unfold Storage.LongEpochs
    rw [hi.parameters_eq]
    exact hi.epoch_le
  have hstep : Run Step s (tr₁ ++ [(c₁, u₁)]) u₁ := .tail before first
  have hlong₁ := (Run.longEpochs hstep (fun e he => enough e (by
    simp only [List.mem_append, List.mem_cons, List.not_mem_nil, or_false] at he ⊢
    tauto)) hlong).1
  obtain ⟨hlong₂, hle⟩ := Run.longEpochs between (fun e he => enough e (by
    simp only [List.mem_append, List.mem_cons]
    tauto)) hlong₁
  obtain ⟨-, hlast⟩ := first.effect.closes closes₁
  obtain ⟨hdue, -⟩ := second.effect.closes closes₂
  have hheight : c₁.env.block.height ≤ c₂.env.block.height := by
    have hmono : u₁.now.height ≤ t₂.now.height :=
      Run.monotone (P := fun _ => True) (f := fun t : Clocked => t.now.height) between trivial
        fun t c u _ h => ⟨trivial, by rw [h.now_eq]; exact h.height_le⟩
    rw [first.now_eq] at hmono
    exact hmono.trans second.height_le
  have htime₁ := onChain (c₁, u₁) (by simp)
  have htime₂ := onChain (c₂, u₂) (by simp)
  have hpace := paced c₁.env.block.height c₂.env.block.height hheight (by
    have : start + (k + 1) * blocks = start + k * blocks + blocks := by rw [Nat.add_mul]; omega
    omega)
  dsimp only at htime₁ htime₂
  rw [← htime₁, ← htime₂] at hpace
  rw [hlast] at hle
  unfold Storage.LongEpochs at hlong₂
  omega

/-! ### Two closings on sample answers -/

/-- The clock of the sample blocks. -/
def sampleClock (height : ℕ) : ℕ := (height - 100) * 10

theorem sampleClock_paced (blocks : ℕ) : Paced blocks sampleClock := by
  intro h h' hle hlt
  unfold sampleClock AVERAGE_BLOCK_TIME
  omega

/-- A request of 60. -/
def sampleFirst (height : ℕ) : Line :=
  (sampleQuerier 100 100 0, sampleEnv height, ⟨"alice", []⟩, .unstake 60)

/-- A request of 10 after it. -/
def sampleSecond (delegated height : ℕ) : Line :=
  (sampleQuerier delegated 40 0, sampleEnv height, ⟨"alice", []⟩, .unstake 10)

/-- The hub after the lines of `sampleStart`. -/
def sampleStaked : Clocked := playEnd Clocked.exec sampleHub sampleStart

/-- Batches closed in two staking epochs, one after the other. -/
theorem one_batch_per_epoch_sample :
    let t := sampleStaked
    let u := t.next (sampleFirst 900)
    Closes t.st u.st 1 ∧ Closes u.st (u.next (sampleSecond 40 1700)).st 2 ∧
      ∀ k, ¬((100 + k * 360 ≤ 900 ∧ 900 < 100 + (k + 1) * 360) ∧
        100 + k * 360 ≤ 1700 ∧ 1700 < 100 + (k + 1) * 360) := by
  intro t u
  have before := played_run Clocked.exec_sound sampleHub sampleStart (by decide +kernel)
  have first : Step t (t.call (sampleFirst 900)) u :=
    Clocked.step_of_accepts (by decide +kernel)
  have second : Step u (u.call (sampleSecond 40 1700)) (u.next (sampleSecond 40 1700)) :=
    Clocked.step_of_accepts (by decide +kernel)
  have closes₁ : Closes t.st u.st 1 :=
    ⟨by decide +kernel, Option.isSome_iff_exists.1 (by decide +kernel)⟩
  have closes₂ : Closes u.st (u.next (sampleSecond 40 1700)).st 2 :=
    ⟨by decide +kernel, Option.isSome_iff_exists.1 (by decide +kernel)⟩
  exact ⟨closes₁, closes₂, fun k => one_batch_per_epoch sampleHub_created (sampleClock_paced _)
    before first .refl second (by unfold OnChain; decide +kernel) (by decide +kernel)
    closes₁ closes₂ k⟩

/-- The owner sets the epoch length to zero. -/
def sampleShortEpochs : List Line :=
  [(sampleQuerier 0 100 100, sampleEnv 100, ⟨"owner", []⟩, .updateParams none (some 0) none)]

/-- **Two batches closed in one staking epoch**, after the owner set an epoch
length of zero: at heights 500 and 501, of the epoch `[460, 820)`. -/
theorem two_batches_in_one_epoch :
    ∃ s tr t c₁ u₁ c₂ u₂, Created sampleMsg s ∧
      Paced sampleMsg.stakingEpochLengthBlocks sampleClock ∧
      Run Step s tr t ∧ Step t c₁ u₁ ∧ Step u₁ c₂ u₂ ∧
      OnChain sampleClock (tr ++ [(c₁, u₁), (c₂, u₂)]) ∧
      Closes t.st u₁.st 1 ∧ Closes u₁.st u₂.st 2 ∧
      (100 + 1 * 360 ≤ c₁.env.block.height ∧ c₁.env.block.height < 100 + 2 * 360) ∧
      100 + 1 * 360 ≤ c₂.env.block.height ∧ c₂.env.block.height < 100 + 2 * 360 := by
  let script := sampleStart ++ sampleShortEpochs
  let t := playEnd Clocked.exec sampleHub script
  let u := t.next (sampleFirst 500)
  refine ⟨sampleHub, playTrace Clocked.exec sampleHub script, t, t.call (sampleFirst 500), u,
    u.call (sampleSecond 100 501), u.next (sampleSecond 100 501), sampleHub_created,
    sampleClock_paced _, played_run Clocked.exec_sound _ _ (by decide +kernel),
    Clocked.step_of_accepts (by decide +kernel), Clocked.step_of_accepts (by decide +kernel),
    by unfold OnChain; decide +kernel, ⟨by decide +kernel, ?_⟩, ⟨by decide +kernel, ?_⟩, ?_, ?_⟩
  · exact Option.isSome_iff_exists.1 (by decide +kernel)
  · exact Option.isSome_iff_exists.1 (by decide +kernel)
  · decide
  · decide

end Hub
end BabyLst
