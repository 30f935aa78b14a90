/-
# A due batch can be closed

A batch is due once more than `epoch_length` seconds have passed since the last
closing, and anybody may close it by `ProcessUndelegations`.  Where the validators
report enough for its claim and the recorded stake covers it, closing succeeds and
takes exactly the claim, everywhere (`World.Closes`), as long as the hub can check
for slashing and the claim is not zero: `due_batch_closes_iff`.

A batch of few tokens is worth nothing once a slashing has lowered the rate, and
`calculate_undelegations` fails for a claim of zero
(`worthless_batch_cannot_be_closed`).
-/

import BabyLst.Hub.Checkable
import BabyLst.Hub.Closing
import BabyLst.Hub.Epochs
import BabyLst.World.Order
import BabyLst.World.Queue

namespace BabyLst

open Lib Std

variable {T : Type} {d : Deployment T}

/-! ### What every run keeps of the hub -/

/-! #### The histories -/

/-- The ledger of the batches, with all histories of another storage. -/
structure Hub.Filed (st₀ st : Hub.Storage) (block : Block) : Prop where
  ledger : Hub.BatchLedger st
  closedBy : st.ClosedBy block.time
  kept : Hub.Kept st₀ st

theorem Call.filed {b b' : Books} {info : MessageInfo} {msg : HubMsg} {st₀ : Hub.Storage}
    (h : Call d b info msg b') (hb : Hub.Filed st₀ b.hub b.block) :
    Hub.Filed st₀ b'.hub b'.block := by
  obtain ⟨answers, effect, -, -⟩ := h
  obtain ⟨hledger, hclosed, hkept⟩ := effect.ledger hb.ledger hb.closedBy
  exact ⟨hledger, hclosed, hb.kept.trans hkept⟩

theorem Hub.Filed.later {st₀ st : Hub.Storage} {block block' : Block}
    (time_le : block.time ≤ block'.time) (h : Hub.Filed st₀ st block) : Hub.Filed st₀ st block' :=
  ⟨h.ledger, fun k e hk => (h.closedBy k e hk).trans time_le, h.kept⟩

/-- **Every run keeps the histories.** -/
theorem World.Reached.filed {w w' : World T} {tr : List (Action × World T)} {st₀ : Hub.Storage}
    (reached : w.Reached d) (run : Run (World.Step d) w tr w')
    (hw : Hub.Filed st₀ w.hub w.block) : Hub.Filed st₀ w'.hub w'.block := by
  refine (reached.invariant run (P := fun w => Hub.Filed st₀ w.hub w.block) (fun h => h) hw ?_).2
  intro t act u hreached ht hstep
  refine (hreached.exec hstep).1.keep (P := fun b => Hub.Filed st₀ b.hub b.block) .any
    (fun _ _ _ _ _ => trivial) (fun h _ => h.filed) (fun hhub _ htime h => ?_) ht
  rw [hhub]
  exact h.later htime

/-! #### The epoch record -/

/-- The epoch record is sound, or no token has been minted yet. -/
def Books.Recorded (b : Books) : Prop :=
  b.hub.pendingDelegation.Sound b.block.height ∨ b.accounts.supply + b.accounts.requested = 0

/-- A call that mints a token writes the record. -/
theorem Call.recorded {b b' : Books} {info : MessageInfo} {msg : HubMsg} (h : Call d b info msg b')
    (regular : b.Regular d) (hb : b.Recorded) : b'.Recorded := by
  obtain ⟨hcall, -⟩ := h.accounts regular
  obtain @⟨q, hub, res, answers, effect, -, -⟩ := h
  rcases effect.pendingDelegation with heq | ⟨s, u, written⟩
  · rcases hb with hsound | hnone
    · refine .inl ?_
      show hub.pendingDelegation.Sound b.block.height
      rw [heq]
      exact hsound
    · refine .inr ?_
      have hsame : ((b.paid d info).after hub res.messages).accounts.toStake =
          b.accounts.toStake := by
        show (hub.pendingDelegation.current b.block.height).1 = _
        rw [heq]
        rfl
      generalize ((b.paid d info).after hub res.messages).accounts = a at hcall hsame ⊢
      generalize msg.reconciles _ = ran at hcall
      cases hcall with
      | stake check pos minted =>
        have hraised := check.frame.2.2.2.2.1
        simp only [Accounts.stake] at hsame
        omega
      | request funds check le =>
        obtain ⟨hrequested, hsupply, -⟩ := check.frame
        simp only [Accounts.request, Accounts.credit]
        omega
      | close funds check le =>
        obtain ⟨-, hsupply, -⟩ := check.frame
        simp only [Accounts.close, Accounts.credit]
        omega
      | check funds check =>
        obtain ⟨hrequested, hsupply, -⟩ := check.frame
        simp only [Accounts.credit]
        omega
      | pay => exact hnone
      | quiet => exact hnone
  · exact .inl ⟨written.length_eq ▸ written.length_pos, written.inside.1⟩

theorem Books.Recorded.burn {b : Books} (amount : ℕ) (h : b.Recorded) :
    (b.burn amount).Recorded := by
  refine h.imp_right fun hnone => ?_
  simp only [Books.accounts, Books.burn] at hnone ⊢
  omega

theorem Move.recorded {b b' : Books} {act : Action} (h : Move d b act b') (regular : b.Regular d)
    (hb : b.Recorded) : b'.Recorded := by
  cases h with
  | transact tx =>
    refine (tx.keep (P := fun b => b.Regular d ∧ b.Recorded) .any (fun _ _ => trivial)
      (fun h _ hb => ⟨(h.accounts hb.1).2, h.recorded hb.1 hb.2⟩)
      (fun amount hb => ⟨hb.1.burn amount, hb.2.burn amount⟩)
      (fun _ hb => ⟨hb.1.kept rfl rfl rfl rfl rfl, hb.2⟩)
      (fun _ hb => ⟨hb.1.redelegated _, hb.2⟩) ⟨regular, hb⟩).2
  | credit => exact hb
  | within height_le =>
    exact hb.imp_left fun hsound => ⟨hsound.length_pos, hsound.start_le.trans height_le⟩
  | enter height_le =>
    exact hb.imp_left fun hsound => ⟨hsound.length_pos, hsound.start_le.trans height_le⟩

/-- **Where tokens are requested, the epoch record is sound.** -/
theorem World.Created.sound_of_requested {w w' : World T} {tr : List (Action × World T)}
    (created : w.Created d) (run : Run (World.Step d) w tr w')
    (requested : w'.hub.currentBatch.requestedLstTokenAmount ≠ 0) :
    w'.hub.pendingDelegation.Sound w'.block.height := by
  obtain ⟨reached, fresh⟩ := created.reached
  have hstart : (w.books d).Recorded := by
    refine .inr ?_
    show (w.accounts d).supply + (w.accounts d).requested = 0
    rw [fresh]
    rfl
  have hend := (reached.invariant run (P := fun w => (w.books d).Recorded) (fun h => h) hstart
    fun hreached ht hstep => (hreached.exec hstep).1.recorded hreached.regular ht).2
  refine hend.resolve_right fun hnone => requested ?_
  exact (Nat.add_eq_zero_iff.1 hnone).2

/-! #### The parameters -/

/-- The message is no `UpdateParams`. -/
def HubMsg.KeepsParams (msg : HubMsg) : Prop :=
  ∀ pause epochLength unstakingPeriod, msg ≠ .updateParams pause epochLength unstakingPeriod

theorem Inner.keepsParams : Inner HubMsg.KeepsParams where
  receive _ _ _ _ h := by cases h
  unstake _ _ _ _ h := by cases h
  checkSlashing _ _ _ h := by cases h

/-- The action is no `UpdateParams`. -/
def Action.KeepsParams (act : Action) : Prop :=
  ∀ sender contract msg funds, act = .transact sender contract (.hub msg) funds → msg.KeepsParams

/-- The action is an `UpdateParams`. -/
def Action.updates : Action → Bool
  | .transact _ _ (.hub (.updateParams _ _ _)) _ => true
  | _ => false

theorem Action.keepsParams_iff (act : Action) : act.KeepsParams ↔ act.updates = false := by
  constructor
  · intro h
    unfold Action.updates
    split
    · exact absurd rfl (h _ _ _ _ rfl _ _ _)
    · rfl
  · rintro h sender contract msg funds rfl pause epochLength unstakingPeriod rfl
    cases h

instance : DecidablePred Action.KeepsParams := fun act => decidable_of_iff' _ act.keepsParams_iff

/-- One accepted action that is no `UpdateParams`: staking, unstaking, closing,
checking, withdrawing, blocks and slashings, and whatever else there is. -/
def RunningStep (d : Deployment T) (w : World T) (act : Action) (w' : World T) : Prop :=
  w.Step d act w' ∧ act.KeepsParams

/-- **The hub goes on running** as long as nobody updates the parameters. -/
theorem World.Created.running {w w' : World T} {tr : List (Action × World T)}
    (created : w.Created d) (run : Run (RunningStep d) w tr w') :
    w'.hub.parameters.paused = false := by
  have hstart : w.hub.parameters.paused = false := by
    obtain ⟨q, info, st, res, res', dispatcher, hinst, hconf⟩ := created.hub_created
    obtain ⟨-, hst, -⟩ := Hub.executeUpdateConfig_ok hconf
    rw [hst]
    show st.parameters.paused = false
    rw [(Hub.instantiate_ok hinst).parameters_eq]
  refine (created.reached.1.invariant run (P := fun w => w.hub.parameters.paused = false)
    (fun h => h.1) hstart ?_).2
  intro t act u hreached ht hstep
  refine (hreached.exec hstep.1).1.keep (P := fun b => b.hub.parameters.paused = false)
    .keepsParams hstep.2 (fun h hkeeps hb => ?_) (fun hhub _ _ h => hhub ▸ h) ht
  obtain ⟨answers, effect, -, -⟩ := h
  exact (congrArg Hub.Parameters.paused (effect.parameters_eq hkeeps)).trans hb

/-! ### What the hub finds -/

/-- The hub's state as the check for slashing finds it, where it goes through. -/
def World.checked (d : Deployment T) (w : World T) : Hub.State :=
  w.hub.checked (delegationList d w.delegations) w.block.height (d.cw20.totalSupply w.token.cw20)

/-- The check for slashing goes through. -/
def World.Checks (d : Deployment T) (w : World T) : Prop :=
  w.hub.Checks (delegationList d w.delegations) w.block.height (d.cw20.totalSupply w.token.cw20)

instance (d : Deployment T) (w : World T) : Decidable (w.Checks d) :=
  inferInstanceAs (Decidable (w.hub.Checks ..))

/-- What the current batch is worth at the rate that the check finds. -/
def World.claim (d : Deployment T) (w : World T) : ℕ :=
  w.hub.currentBatch.claim (w.checked d).lstExchangeRate

theorem World.querier_delegations (d : Deployment T) (w : World T) :
    (w.querier d).allDelegations (w.env d.hub).contract = delegationList d w.delegations :=
  if_pos rfl

theorem World.Reached.issued {w : World T} (h : w.Reached d) :
    Hub.queryTotalLstTokenIssued (w.querier d) w.hub =
      .ok (d.cw20.totalSupply w.token.cw20) := by
  unfold Hub.queryTotalLstTokenIssued
  rw [bind_ok (okOr_eq_ok.2 h.wired.hub_token)]
  exact if_pos rfl

theorem World.Reached.finds_iff {w : World T} {state : Hub.State} (h : w.Reached d)
    (sound : w.hub.pendingDelegation.Sound w.block.height) :
    Hub.queryActualState (w.querier d) w.hub (w.env d.hub) w.hub.state = .ok state ↔
      w.Checks d ∧ state = w.checked d := by
  have hiff := @Hub.queryActualState_eq_ok_iff _ _ (w.env d.hub) state _ h.issued sound.start_le
  rw [World.querier_delegations] at hiff
  exact hiff

/-- The undelegations of the hub are queued. -/
theorem deliverAll_undelegations {n : ℕ} {ms : List CosmosMsg} :
    ∀ {w : World T}, (∀ m ∈ ms, ∃ v amount, m = .wrappedUndelegate d.hub v ⟨d.denom, amount⟩) →
      deliverAll d (n + 1) w d.hub ms = .ok { w with queue := w.queue ++ queuedIn ms } := by
  induction ms with
  | nil =>
    intro w _
    rw [deliverAll_nil, queuedIn_nil, List.append_nil]
  | cons m ms ih =>
    intro w h
    obtain ⟨v, amount, rfl⟩ := h m (List.mem_cons_self ..)
    have hone : deliver d w d.hub (.wrappedUndelegate d.hub v ⟨d.denom, amount⟩) =
        .ok ({ w with queue := w.queue ++ [.undelegate v amount] }, d.hub, []) := by
      simp [deliver, enqueue, require, bind, Except.bind, pure, Except.pure]
    have hrest := ih (w := { w with queue := w.queue ++ [.undelegate v amount] })
      fun m hm => h m (List.mem_cons_of_mem _ hm)
    refine deliverAll_cons.2 ⟨_, _, _, _, hone, deliverAll_nil .., hrest.trans ?_⟩
    rw [List.append_assoc]
    rfl

/-! ### Closing a due batch -/

/-- **A batch that is due**, with validators that report enough for its claim
and a recorded stake that covers it. -/
@[mk_iff] structure World.DueBatch (d : Deployment T) (w : World T) (vs : List ValidatorResponse) :
    Prop where
  requested : w.hub.currentBatch.requestedLstTokenAmount ≠ 0
  due : w.hub.Due w.block.time
  answer : ∃ registry, w.hub.config.validatorsRegistryContract = some registry ∧
    (w.querier d).validatorsDelegation registry = .ok vs
  listed : vs ≠ []
  reported : w.claim d ≤ (delegationsOf vs).sum
  covered : w.claim d ≤ (w.checked d).totalStakedAmount

instance (d : Deployment T) (w : World T) (vs : List ValidatorResponse) :
    Decidable (w.DueBatch d vs) :=
  have : Decidable (∃ registry, w.hub.config.validatorsRegistryContract = some registry ∧
      (w.querier d).validatorsDelegation registry = .ok vs) :=
    inferInstanceAs (Decidable (∃ registry, registry ∈ w.hub.config.validatorsRegistryContract ∧ _))
  decidable_of_iff' _ (w.dueBatch_iff d vs)

/-- **A due batch can be closed**: the check for slashing goes through, the batch
is worth something at the rate that it finds, and the sums fit. -/
@[mk_iff] structure World.CanClose (d : Deployment T) (w : World T) (vs : List ValidatorResponse) :
    Prop where
  checks : w.Checks d
  closable : Hub.Closable w.hub.pendingDelegation w.block.height w.hub.currentBatch
    (w.checked d).lstExchangeRate vs

instance (d : Deployment T) (w : World T) (vs : List ValidatorResponse) :
    Decidable (w.CanClose d vs) :=
  decidable_of_iff' _ (w.canClose_iff d vs)

/-- **A user closes the batch**, and its claim is what is undelegated, taken from
the recorded stake, pending until the epoch ends, and required to release it. -/
structure World.Closes (d : Deployment T) (w : World T) (user : Addr) (w₁ : World T)
    (res : Response) : Prop where
  accepted : Hub.execute (w.querier d) w.hub (w.env d.hub) ⟨user, []⟩ .processUndelegations =
    .ok (w₁.hub, res)
  step : w.Step d (.transact user d.hub (.hub .processUndelegations) []) w₁
  id_eq : w₁.hub.currentBatch.id = w.hub.currentBatch.id + 1
  undelegates : ∀ m ∈ res.messages,
    ∃ v amount, m = .wrappedUndelegate d.hub v ⟨d.denom, amount⟩
  emitted : queuedUnstake (queuedIn res.messages) = w.claim d
  staked : w₁.hub.state.totalStakedAmount + w.claim d = (w.checked d).totalStakedAmount
  pending : (w₁.hub.pendingDelegation.current w₁.block.height).2 =
    (w.hub.pendingDelegation.current w.block.height).2 + w.claim d
  required : ∀ tr w₂, Run (World.Step d) w₁ tr w₂ →
    ∃ h, w₂.hub.unstakeHistory[w.hub.currentBatch.id]? = some h ∧ h.required = w.claim d

/-- Closing a due batch succeeds if and only if it can be closed. -/
theorem World.DueBatch.succeeds_iff {w : World T} {vs : List ValidatorResponse}
    (h : w.DueBatch d vs) (reached : w.Reached d)
    (sound : w.hub.pendingDelegation.Sound w.block.height) (height : w.block.height < 2 ^ 64) :
    (∃ r, Hub.executeProcessUndelegations (w.querier d) w.hub (w.env d.hub) = .ok r) ↔
      w.CanClose d vs := by
  have hfinds : ∀ {state}, Hub.queryActualState (w.querier d) w.hub (w.env d.hub) w.hub.state =
      .ok state ↔ w.Checks d ∧ state = w.checked d := reached.finds_iff sound
  have due : w.hub.parameters.epochLength <
    (w.env d.hub).block.time - w.hub.state.lastUnbondedTime := h.due
  obtain ⟨registry, registry_eq, answer⟩ := h.answer
  refine (Hub.executeProcessUndelegations_succeeds_iff h.requested due registry_eq answer h.listed
    (fun state hstate => by rw [(hfinds.1 hstate).2]; exact h.reported)
    (fun state hstate => by rw [(hfinds.1 hstate).2]; exact h.covered) sound height).trans ?_
  constructor
  · rintro ⟨state, hstate, hclosable⟩
    obtain ⟨hchecks, rfl⟩ := hfinds.1 hstate
    exact ⟨hchecks, hclosable⟩
  · rintro ⟨hchecks, hclosable⟩
    exact ⟨_, hfinds.2 ⟨hchecks, rfl⟩, hclosable⟩

/-- **What is accepted closes the batch** as it should. -/
theorem World.DueBatch.closes {w : World T} {vs : List ValidatorResponse} {user : Addr}
    {hub : Hub.Storage} {res : Response} (h : w.DueBatch d vs) (reached : w.Reached d)
    (filed : Hub.Filed w.hub w.hub w.block) (running : w.hub.parameters.paused = false)
    (isUser : d.IsUser user)
    (hok : Hub.executeProcessUndelegations (w.querier d) w.hub (w.env d.hub) = .ok (hub, res)) :
    ∃ w₁, w.Closes d user w₁ res := by
  have hexecute : Hub.execute (w.querier d) w.hub (w.env d.hub) ⟨user, []⟩ .processUndelegations =
      .ok (hub, res) := by
    simp only [Hub.execute, Hub.dispatch, bind_eq_ok, require_eq_ok]
    exact ⟨(), running, hok⟩
  have hbooks := Hub.execute_ok hexecute
  obtain ⟨-, batch, hcompletion⟩ :=
    (Hub.executeProcessUndelegations_ok hok).resolve_left fun hz => h.requested hz.1
  obtain ⟨hledger, hclosed, hkept⟩ := hbooks.ledger filed.ledger filed.closedBy
  generalize hms : res.messages = messages at hcompletion
  cases hcompletion with
  | stillOpen actual le early => exact absurd h.due (Nat.not_lt.2 early)
  | @closed state pending registry validators plan actual le due registry_eq answer plan_eq enough
      written =>
    have hstate : state = w.checked d := by
      have hfound := actual.eq_checked reached.issued
      rw [World.querier_delegations] at hfound
      exact hfound
    subst hstate
    have hclaim : (w.checked d).lstExchangeRate.mulFloor
      w.hub.currentBatch.requestedLstTokenAmount = w.claim d := rfl
    rw [hclaim] at plan_eq enough written
    have hundelegates : ∀ m ∈ res.messages,
        ∃ v amount, m = .wrappedUndelegate d.hub v ⟨d.denom, amount⟩ := by
      intro m hm
      rw [hms] at hm
      obtain ⟨e, -, rfl⟩ := List.mem_map.1 hm
      have hdenom : w.hub.parameters.stakingCoinDenom = d.denom := reached.regular.denom_eq
      exact ⟨e.1.address, e.2, by rw [hdenom]; rfl⟩
    have hstep : w.Step d (.transact user d.hub (.hub .processUndelegations) [])
        { w with hub := _, queue := w.queue ++ queuedIn res.messages } :=
      World.exec_hub.2 ⟨isUser, _, _, (callContract_bare rfl).2 ⟨_, _, hexecute, rfl, rfl⟩,
        deliverAll_undelegations hundelegates⟩
    refine ⟨_, hexecute, hstep, rfl, hundelegates, ?_, Nat.sub_add_cancel enough, ?_, ?_⟩
    · rw [hms]
      exact (emits_undelegateMsgs _ _ plan_eq).unstake_eq
    · exact congrArg Prod.snd written.current_eq
    · -- the history that is written now is there in every run that follows
      intro tr w₂ run
      have hlast := (reached.exec hstep).2.2.filed run ⟨hledger, hclosed, .refl _⟩
      obtain ⟨released, hfile, -⟩ := hlast.kept w.hub.currentBatch.id
        (w.hub.currentBatch.history w.block.time (w.checked d).lstExchangeRate)
        (by simp [World.env])
      exact ⟨_, hfile, rfl⟩

/-- **A due batch can be closed by every user if and only if** the check for
slashing goes through, its claim is at least one, and the sums fit; closing then
takes exactly the claim, everywhere. -/
theorem due_batch_closes_iff {w w' : World T} {tr : List (Action × World T)}
    {vs : List ValidatorResponse} {user : Addr} (created : w.Created d)
    (run : Run (RunningStep d) w tr w') (isUser : d.IsUser user) (due : w'.DueBatch d vs)
    (height : w'.block.height < 2 ^ 64) :
    (∃ w₁ res, w'.Closes d user w₁ res) ↔ w'.CanClose d vs := by
  have runs : Run (World.Step d) w tr w' := run.mono fun _ _ _ _ h => h.1
  have reached := created.run_reached runs
  have sound := created.sound_of_requested runs due.requested
  have hstart : Hub.Filed w.hub w.hub w.block :=
    ⟨created.accounted.ledger, created.accounted.closedBy, .refl _⟩
  have hend := created.reached.1.filed runs hstart
  rw [← due.succeeds_iff reached sound height]
  constructor
  · rintro ⟨w₁, res, closes⟩
    have haccepted := closes.accepted
    simp only [Hub.execute, Hub.dispatch, bind_eq_ok, require_eq_ok] at haccepted
    obtain ⟨_, -, hok⟩ := haccepted
    exact ⟨_, hok⟩
  · rintro ⟨⟨hub, res⟩, hok⟩
    obtain ⟨w₁, closes⟩ := due.closes reached ⟨hend.ledger, hend.closedBy, .refl _⟩
      (created.running run) isUser hok
    exact ⟨w₁, res, closes⟩

/-! ### A batch on the sample deployment -/

/-- Of 100 staked, an amount is requested before the batch is due, and then it
is. -/
def sampleRequest (amount : ℕ) : List ScriptLine :=
  sampleStake ++ [toToken "alice" (.increaseAllowance "hub" 100), toHub "alice" (.unstake amount),
    .ends ⟨900, 8000⟩]

/-- The run of a script without `UpdateParams`. -/
theorem sampleRunning (script : List ScriptLine)
    (h : (play (World.line anyLine) sampleWorld script).isSome = true)
    (keeps : ∀ e ∈ sampleTrace script, e.1.KeepsParams) :
    Run (RunningStep sampleDeployment) sampleWorld (sampleTrace script) (sampleEnd script) :=
  (sampleRun script h).mono fun e he _ _ hstep => ⟨hstep, keeps e he⟩

/-- What `ProcessUndelegations` of a user fails with. -/
def World.closingFault (d : Deployment T) (w : World T) (user : Addr) : Option Fault :=
  match Hub.execute (w.querier d) w.hub (w.env d.hub) ⟨user, []⟩ .processUndelegations with
  | .ok _ => none
  | .error fault => some fault

/-- A batch of 60 at a rate of one is closed. -/
theorem due_batch_closes_sample :
    (sampleEnd (sampleRequest 60)).claim sampleDeployment = 60 ∧
      ∃ w₁ res, (sampleEnd (sampleRequest 60)).Closes sampleDeployment "bob" w₁ res := by
  have facts : (∀ e ∈ sampleTrace (sampleRequest 60), e.1.KeepsParams) ∧
      (sampleEnd (sampleRequest 60)).DueBatch sampleDeployment [⟨100, sampleValidator⟩] ∧
      (sampleEnd (sampleRequest 60)).CanClose sampleDeployment [⟨100, sampleValidator⟩] ∧
      (sampleEnd (sampleRequest 60)).block.height < 2 ^ 64 ∧
      (sampleEnd (sampleRequest 60)).claim sampleDeployment = 60 := by
    decide +kernel
  obtain ⟨keeps, due, canClose, height, claim_eq⟩ := facts
  have run := sampleRunning (sampleRequest 60) (by decide +kernel) keeps
  exact ⟨claim_eq,
    (due_batch_closes_iff sampleWorld_created run (by decide) due height).2 canClose⟩

/-- **A batch that is worth nothing cannot be closed**: 1 is requested, and a
slashing takes half.  The batch is due, and 50 are reported and recorded, but
`calculate_undelegations` fails for the claim of zero, where
`calculate_delegations` plans. -/
theorem worthless_batch_cannot_be_closed :
    ∃ tr w vs plan, sampleWorld.Created sampleDeployment ∧
      Run (RunningStep sampleDeployment) sampleWorld tr w ∧ w.DueBatch sampleDeployment vs ∧
      w.claim sampleDeployment = 0 ∧ calculateDelegations 0 vs = .ok plan ∧
      w.closingFault sampleDeployment "bob" = some ValidatorError.distributionFailed.fault ∧
      ¬∃ w₁ res, w.Closes sampleDeployment "bob" w₁ res := by
  let script := sampleRequest 1 ++ [.slashes ⟨901, 8010⟩ sampleValidator 50]
  have facts : (∀ e ∈ sampleTrace script, e.1.KeepsParams) ∧
      (sampleEnd script).DueBatch sampleDeployment [⟨50, sampleValidator⟩] ∧
      (sampleEnd script).claim sampleDeployment = 0 ∧
      (sampleEnd script).closingFault sampleDeployment "bob" =
        some ValidatorError.distributionFailed.fault := by
    decide +kernel
  obtain ⟨keeps, due, worthless, refused⟩ := facts
  have run := sampleRunning script (by decide +kernel) keeps
  refine ⟨_, _, _, [0], sampleWorld_created, run, due, worthless, by decide, refused, ?_⟩
  rintro ⟨w₁, res, closes⟩
  unfold World.closingFault at refused
  rw [closes.accepted] at refused
  cases refused

end BabyLst
