/-
# The moves of the accounts

A transaction on the accounts is a call of the hub, a request to unstake with
the check that the token sends back, or a burn with that check (`Accounts.Tx`);
the chain credits coins, and takes the stake at the end of an epoch
(`Accounts.Move`).  What is delegated after a step of the chain is left open.

`World.Reached.exec` puts the layers together: an accepted action of a world is
a move of its accounts.
-/

import BabyLst.Hub.Ledger
import BabyLst.Registry.Status
import BabyLst.World.Accounts
import BabyLst.Lib.Run

namespace BabyLst

open Lib Std

namespace Accounts

/-- Tokens are burned. -/
def burn (a : Accounts) (amount : ℕ) : Accounts := { a with supply := a.supply - amount }

/-- The chain reports other delegations. -/
def reported (a : Accounts) (delegated : ℕ) (listed : Bool) : Accounts :=
  { a with
    delegated := delegated
    listed := listed }

/-- The epoch ends: the stake of the queue is taken from the balance. -/
def epochEnd (a : Accounts) : Accounts :=
  { a with
    bank := a.bank - a.toStake
    toStake := 0
    toUnstake := 0 }

/-- **A transaction**, and whether it checks for slashing. -/
inductive Tx (a : Accounts) : Bool → Accounts → Prop
  | call {ran : Bool} {a' : Accounts} (call : a.Call ran a') : Tx a ran a'
  | unstake {a₁ a' : Accounts} (call : a.Call true a₁) (check : a₁.Check a') : Tx a true a'
  | burn {amount : ℕ} {a' : Accounts} (le : amount ≤ a.supply)
      (check : (a.burn amount).Check a') : Tx a true a'
  | still : Tx a false a

end Accounts

/-- Whether a message checks for slashing. -/
def ContractMsg.reconciles (requested : ℕ) : ContractMsg → Bool
  | .hub msg => msg.reconciles requested
  | .token msg => msg.calls
  | _ => false

variable {T : Type} {d : Deployment T}

/-- A call that only checks is a check of the accounts. -/
theorem Call.checked {b b' : Books} {info : MessageInfo} (h : Call d b info .checkSlashing b')
    (regular : b.Regular d) :
    ∃ a, b.accounts.Check a ∧ b'.accounts = a.credit (fundsIn d.denom info.funds) := by
  obtain @⟨q, hub, res, answers, effect, -, -⟩ := h
  obtain ⟨state, actual, rfl, messages_eq⟩ := effect.checked
  refine ⟨_, actual.accounts answers regular rfl rfl rfl, ?_⟩
  rw [messages_eq, Books.accounts_after emits_nil]
  simp [Accounts.withState, Accounts.credit, Books.accounts, actual.frame.2.1]

/-- The check that the token asks for is that of the accounts. -/
theorem Check.accounts {b b' : Books} (h : Check d b b') (regular : b.Regular d) :
    b.accounts.Check b'.accounts ∧ b'.Regular d := by
  obtain ⟨a, hcheck, heq⟩ := Call.checked h regular
  have hsame : b'.accounts = a := heq
  exact ⟨hsame ▸ hcheck, (Call.accounts h regular).2⟩

theorem Books.Regular.burn {b : Books} (h : b.Regular d) (amount : ℕ) : (b.burn amount).Regular d :=
  h.kept rfl rfl rfl rfl rfl

theorem queuedStake_proxiedIn (ms : List CosmosMsg) :
    queuedStake (proxiedIn ms) = 0 ∧ queuedUnstake (proxiedIn ms) = 0 := by
  have hall : ∀ m ∈ proxiedIn ms, ∃ s t n, m = .redelegate s t n := by
    intro m hm
    obtain ⟨c, -, hc⟩ := List.mem_flatMap.1 hm
    split at hc
    · obtain ⟨e, -, rfl⟩ := List.mem_map.1 hc
      exact ⟨_, _, _, rfl⟩
    · simp at hc
  constructor
  · refine List.sum_eq_zero fun n hn => ?_
    obtain ⟨m, hm, rfl⟩ := List.mem_map.1 hn
    obtain ⟨s, t, n, rfl⟩ := hall m hm
    rfl
  · refine List.sum_eq_zero fun n hn => ?_
    obtain ⟨m, hm, rfl⟩ := List.mem_map.1 hn
    obtain ⟨s, t, n, rfl⟩ := hall m hm
    rfl

theorem Books.Regular.redelegated {b : Books} (h : b.Regular d) (ms : List CosmosMsg) :
    { b with queue := b.queue ++ proxiedIn ms }.Regular d := by
  refine h.kept rfl rfl rfl ?_ ?_
  · show queuedStake (b.queue ++ _) = _
    rw [queuedStake_append, (queuedStake_proxiedIn _).1, Nat.add_zero]
  · show queuedUnstake (b.queue ++ _) = _
    rw [queuedUnstake_append, (queuedStake_proxiedIn _).2, Nat.add_zero]

/-- **A transaction of the books is one of the accounts.** -/
theorem Tx.accounts {b b' : Books} {msg : ContractMsg} (h : Tx d b msg b')
    (regular : b.Regular d) :
    b.accounts.Tx (msg.reconciles b.accounts.requested) b'.accounts ∧ b'.Regular d := by
  cases h with
  | hub user plain call =>
    obtain ⟨hcall, hreg⟩ := call.accounts regular
    exact ⟨.call hcall, hreg⟩
  | unstake user call check =>
    obtain ⟨hcall, hreg⟩ := call.accounts regular
    obtain ⟨hcheck, hreg'⟩ := check.accounts hreg
    exact ⟨.unstake hcall hcheck, hreg'⟩
  | send sends call check =>
    obtain ⟨hcall, hreg⟩ := call.accounts regular
    obtain ⟨hcheck, hreg'⟩ := check.accounts hreg
    refine ⟨?_, hreg'⟩
    rcases sends with ⟨c, m, rfl⟩ | ⟨o, c, m, rfl⟩
    · exact .unstake hcall hcheck
    · exact .unstake hcall hcheck
  | burn burns le check =>
    obtain ⟨hcheck, hreg⟩ := check.accounts (regular.burn _)
    refine ⟨?_, hreg⟩
    rcases burns with rfl | ⟨owner, rfl⟩
    · exact .burn le hcheck
    · exact .burn le hcheck
  | @still msg quiet =>
    have hran : (ContractMsg.token msg).reconciles b.accounts.requested = false := quiet
    rw [hran]
    exact ⟨.still, regular⟩
  | registry h =>
    refine ⟨?_, regular.kept rfl rfl rfl rfl rfl⟩
    exact .still
  | redelegate h => exact ⟨.still, regular.redelegated _⟩

/-- The chain goes on within an epoch: the pending record reads as before. -/
theorem Books.Regular.within {b : Books} {block : Block} {delegations : ExtTreeMap String ℕ}
    (h : b.Regular d) (height_le : b.block.height ≤ block.height)
    (same : d.epoch block.height = d.epoch b.block.height) :
    (b.within block delegations).Regular d ∧ (b.within block delegations).accounts =
      b.accounts.reported (delegated delegations) (!delegations.isEmpty) := by
  have hcurrent : b.hub.pendingDelegation.current block.height =
      b.hub.pendingDelegation.current b.block.height := by
    unfold Hub.PendingDelegation.current
    rcases h.started with hle | ⟨hs, hu⟩
    · refine if_congr ?_ rfl rfl
      rw [h.length_eq]
      rcases Nat.eq_zero_or_pos d.init.stakingEpochLengthBlocks with hz | hlen
      · rw [hz]
        omega
      · rw [sub_lt_iff_epoch_eq hlen h.aligned (hle.trans height_le),
          sub_lt_iff_epoch_eq hlen h.aligned hle, show epochOf _ _ block.height = _ from same]
        rfl
    · rw [hs, hu, ite_self, ite_self]
  refine ⟨⟨h.denom_eq, h.length_eq, h.aligned, ?_, ?_⟩, ?_⟩
  · exact h.started.imp_left fun hle => hle.trans height_le
  · exact hcurrent.trans h.pending_eq
  · simp [Books.accounts, Books.within, Accounts.reported, hcurrent]

/-- The chain enters a later epoch: the pending record reads empty. -/
theorem Books.Regular.entered {b : Books} {block : Block} {delegations : ExtTreeMap String ℕ}
    (h : b.Regular d) (height_le : b.block.height ≤ block.height)
    (later : d.epoch block.height ≠ d.epoch b.block.height) :
    (b.entered block delegations).Regular d ∧ (b.entered block delegations).accounts =
      b.accounts.epochEnd.reported (delegated delegations) (!delegations.isEmpty) := by
  have hcurrent : b.hub.pendingDelegation.current block.height = (0, 0) := by
    unfold Hub.PendingDelegation.current
    rcases h.started with hle | ⟨hs, hu⟩
    · refine if_neg fun hin => later ?_
      have hlen : 0 < d.init.stakingEpochLengthBlocks := by
        rw [← h.length_eq]
        omega
      rw [h.length_eq] at hin
      have hnow : b.block.height - b.hub.pendingDelegation.stakingEpochStartBlockHeight <
          d.init.stakingEpochLengthBlocks := by omega
      exact ((sub_lt_iff_epoch_eq hlen h.aligned (hle.trans height_le)).1 hin).trans
        ((sub_lt_iff_epoch_eq hlen h.aligned hle).1 hnow).symm
    · rw [hs, hu, ite_self]
  have hqueue : queuedStake b.queue = (b.hub.pendingDelegation.current b.block.height).1 :=
    (congrArg Prod.fst h.pending_eq).symm
  refine ⟨⟨h.denom_eq, h.length_eq, h.aligned, ?_, hcurrent⟩, ?_⟩
  · exact h.started.imp_left fun hle => hle.trans height_le
  · simp [Books.accounts, Books.entered, Accounts.reported, Accounts.epochEnd, hcurrent, hqueue]

/-- **A move of the accounts.** -/
inductive Accounts.Move (a : Accounts) : Accounts → Prop
  | tx {ran : Bool} {a' : Accounts} (tx : a.Tx ran a') : Move a a'
  | credit (amount : ℕ) : Move a (a.credit amount)
  | within (delegated : ℕ) (listed : Bool) : Move a (a.reported delegated listed)
  | enter (delegated : ℕ) (listed : Bool) (enough : a.toStake ≤ a.bank) :
    Move a (a.epochEnd.reported delegated listed)

/-- **A move of the books is one of the accounts.** -/
theorem Move.accounts {b b' : Books} {act : Action} (h : Move d b act b') (regular : b.Regular d) :
    b.accounts.Move b'.accounts ∧ b'.Regular d := by
  cases h with
  | transact tx =>
    obtain ⟨htx, hreg⟩ := tx.accounts regular
    exact ⟨.tx htx, hreg⟩
  | credit amount => exact ⟨.credit amount, regular.kept rfl rfl rfl rfl rfl⟩
  | within height_le time_le same =>
    obtain ⟨hreg, heq⟩ := regular.within height_le same
    rw [heq]
    exact ⟨.within _ _, hreg⟩
  | enter height_le time_le later enough =>
    obtain ⟨hreg, heq⟩ := regular.entered height_le later
    have hqueue : queuedStake b.queue = b.accounts.toStake :=
      (congrArg Prod.fst regular.pending_eq).symm
    rw [heq]
    exact ⟨.enter _ _ (hqueue ▸ enough), hreg⟩

/-! ### What calls keep -/

/-- What holds of the messages that a message to the token, or a request to
unstake, leads to. -/
structure Inner (A : HubMsg → Prop) : Prop where
  receive : ∀ received, A (.receive received)
  unstake : ∀ amount, A (.unstake amount)
  checkSlashing : A .checkSlashing

/-- Any message. -/
theorem Inner.any : Inner fun _ => True := ⟨fun _ => trivial, fun _ => trivial, trivial⟩

/-- **What calls and redelegations keep, transactions keep.** -/
theorem Tx.keep {P : Books → Prop} {A : HubMsg → Prop} {b b' : Books} {msg : ContractMsg}
    (h : Tx d b msg b') (inner : Inner A) (allowed : ∀ m, msg = .hub m → A m)
    (call : ∀ {b b' info m}, Call d b info m b' → A m → P b → P b')
    (burn : ∀ {b} amount, P b → P (b.burn amount))
    (registry : ∀ {b} registry, P b → P { b with registry := registry })
    (redelegate : ∀ {b messages}, Registry.processRedelegations (registryDeps d b.delegations)
      b.registry = .ok messages → P b → P { b with queue := b.queue ++ proxiedIn messages })
    (hb : P b) : P b' := by
  cases h with
  | hub user plain h => exact call h (allowed _ rfl) hb
  | unstake user h check =>
    exact call check inner.checkSlashing (call h (inner.unstake _) hb)
  | send sends h check => exact call check inner.checkSlashing (call h (inner.receive _) hb)
  | burn burns le check => exact call check inner.checkSlashing (burn _ hb)
  | still => exact hb
  | registry h => exact registry _ hb
  | redelegate h => exact redelegate h hb

/-- **What calls keep, moves keep**, if it is about the hub and lasts as time
passes. -/
theorem Move.keep {P : Books → Prop} {A : HubMsg → Prop} {b b' : Books} {act : Action}
    (h : Move d b act b') (inner : Inner A)
    (allowed : ∀ sender contract m funds, act = .transact sender contract (.hub m) funds → A m)
    (call : ∀ {b b' info m}, Call d b info m b' → A m → P b → P b')
    (later : ∀ {b b' : Books}, b'.hub = b.hub → b.block.height ≤ b'.block.height →
      b.block.time ≤ b'.block.time → P b → P b') (hb : P b) : P b' := by
  cases h with
  | @transact sender contract msg funds b' tx =>
    refine tx.keep inner (fun m hm => ?_) call (fun _ => later rfl le_rfl le_rfl)
      (fun _ => later rfl le_rfl le_rfl) (fun _ => later rfl le_rfl le_rfl) hb
    subst hm
    exact allowed _ _ _ _ rfl
  | credit => exact later (b := b) rfl le_rfl le_rfl hb
  | within height_le time_le => exact later (b := b) rfl height_le time_le hb
  | enter height_le time_le => exact later (b := b) rfl height_le time_le hb

/-! ### The accounts of a world -/

/-- **What every reached world keeps.** -/
structure World.Reached (d : Deployment T) (w : World T) : Prop where
  wired : w.Wired d
  regular : (w.books d).Regular d

/-- The accounts of a world. -/
def World.accounts (d : Deployment T) (w : World T) : Accounts := (w.books d).accounts

/-- The accounts of a world that has just been set up. -/
def Accounts.fresh (a : Accounts) : Prop :=
  a = { staked := 0
        rate := Decimal.one
        requested := 0
        supply := 0
        unclaimed := 0
        bank := a.bank
        toStake := 0
        toUnstake := 0
        delegated := 0
        listed := false }

theorem World.Created.reached {w : World T} (h : w.Created d) :
    w.Reached d ∧ (w.accounts d).fresh := by
  have hwired := h.wired
  obtain ⟨q, info, st, res, res', dispatcher, hinst, hconf⟩ := h.hub_created
  have hi := Hub.instantiate_ok hinst
  obtain ⟨-, hst, -⟩ := Hub.executeUpdateConfig_ok hconf
  have hpending : w.hub.pendingDelegation = _ := (congrArg Hub.Storage.pendingDelegation hst).trans
    hi.pending_eq
  have hcurrent : w.hub.pendingDelegation.current w.block.height = (0, 0) := by
    rw [hpending, Hub.PendingDelegation.current, ite_self]
  refine ⟨⟨hwired, ?_, ?_, ?_, ?_, ?_⟩, ?_⟩
  · show w.hub.parameters.stakingCoinDenom = d.denom
    rw [hst]
    show st.parameters.stakingCoinDenom = d.denom
    rw [hi.parameters_eq]
  · show w.hub.pendingDelegation.stakingEpochLengthBlocks = _
    rw [hpending]
  · show Aligned _ _ w.hub.pendingDelegation.stakingEpochStartBlockHeight
    rw [hpending]
    exact aligned_origin _ _
  · refine .inr ?_
    show w.hub.pendingDelegation.pendingStakingAmount = 0 ∧
      w.hub.pendingDelegation.pendingUnstakingAmount = 0
    rw [hpending]
    exact ⟨rfl, rfl⟩
  · show w.hub.pendingDelegation.current w.block.height =
      (queuedStake w.queue, queuedUnstake w.queue)
    rw [hcurrent, h.queue_eq]
    rfl
  · have hstate : w.hub.state = _ := (congrArg Hub.Storage.state hst).trans hi.state_eq
    have hbatch : w.hub.currentBatch = _ :=
      (congrArg Hub.Storage.currentBatch hst).trans hi.batch_eq
    unfold Accounts.fresh World.accounts Books.accounts
    simp [World.books, hstate, hbatch, hcurrent, h.supply_eq, h.delegations_eq, delegated]

/-- **An accepted action is a move of the accounts**, and keeps what every
reached world keeps. -/
theorem World.Reached.exec {w w' : World T} {act : Action} (h : w.Reached d)
    (hexec : w.Step d act w') :
    Move d (w.books d) act (w'.books d) ∧ (w.accounts d).Move (w'.accounts d) ∧ w'.Reached d := by
  obtain ⟨hmove, hwired⟩ := World.exec_books hexec h.wired
  obtain ⟨haccounts, hregular⟩ := hmove.accounts h.regular
  exact ⟨hmove, haccounts, hwired, hregular⟩

/-- **An invariant of the reached worlds**: every world of a run is reached, and
what the steps from reached worlds keep, it keeps. -/
theorem World.Reached.invariant {P : World T → Prop} {step : World T → Action → World T → Prop}
    {w w' : World T} {tr : List (Action × World T)} (h : w.Reached d) (run : Run step w tr w')
    (accepts : ∀ {t act u}, step t act u → World.Step d t act u) (start : P w)
    (keep : ∀ {t act u}, World.Reached d t → P t → step t act u → P u) : w'.Reached d ∧ P w' := by
  refine run.invariant (P := fun w => w.Reached d ∧ P w) ⟨h, start⟩ ?_
  rintro t act u ⟨hreached, ht⟩ hstep
  exact ⟨(hreached.exec (accepts hstep)).2.2, keep hreached ht hstep⟩

/-- Every world that a run leads to is reached. -/
theorem World.Created.run_reached {w w' : World T} {tr : List (Action × World T)}
    (created : w.Created d) (run : Run (World.Step d) w tr w') : w'.Reached d :=
  run.invariant created.reached.1 fun _ _ _ h hstep => (h.exec hstep).2.2

/-! ### A sample deployment -/

/-- A deployment of the three contracts, on a chain with two validators. -/
def sampleDeployment : Deployment Token.Ledger :=
  { hub := "hub"
    token := "token"
    registry := "registry"
    init := Hub.sampleMsg
    cw20 := Token.ledger
    bech32 := sampleBech32
    validator := fun a => if a = sampleValidator ∨ a = otherValidator then some a else none
    addrValidate := fun _ => true
    hub_ne_token := by decide
    hub_ne_registry := by decide
    token_ne_registry := by decide }

/-- The hub, told of the others. -/
def sampleHubStorage : Hub.Storage :=
  ((Hub.executeUpdateConfig (Hub.sampleQuerier 0 0 0) Hub.sampleHub.st ⟨"owner", []⟩ none
    (some "token") (some "registry") (some "dispatcher")).toOption.get (by rfl)).1

/-- The registry, with one validator. -/
def sampleRegistry : Registry.Storage :=
  (Registry.instantiate (registryDeps sampleDeployment ∅) ⟨"owner", []⟩ "hub"
    [sampleValidator]).toOption.get (by rfl)

/-- The sample deployment, just set up. -/
def sampleWorld : World Token.Ledger :=
  { block := ⟨100, 0⟩
    hub := sampleHubStorage
    token := ⟨"hub", ⟨0, some "hub", ∅, ∅⟩⟩
    registry := sampleRegistry
    bank := 0
    delegations := ∅
    queue := [] }

theorem sampleWorld_created : sampleWorld.Created sampleDeployment where
  hub_created :=
    ⟨Hub.sampleQuerier 0 0 0, ⟨"owner", []⟩, Hub.sampleHub.st, _, _, some "dispatcher", rfl, rfl⟩
  registry_created := ⟨⟨"owner", []⟩, [sampleValidator], rfl⟩
  token_hub := rfl
  minter_eq := rfl
  supply_eq := rfl
  delegations_eq := rfl
  queue_eq := rfl

/-- A line of a script for the sample world. -/
inductive ScriptLine
  | send (sender contract : Addr) (msg : ContractMsg) (funds : List Coin)
  | credit (amount : ℕ)
  /-- The chain goes on. -/
  | passes (block : Block)
  /-- The chain goes on and carries its queue out in full. -/
  | ends (block : Block)
  /-- The chain goes on, and a delegation is slashed to what is left of it. -/
  | slashes (block : Block) (validator : String) (left : ℕ)

/-- The action of a line. -/
def ScriptLine.action (w : World Token.Ledger) : ScriptLine → Action
  | .send sender contract msg funds => .transact sender contract msg funds
  | .credit amount => .credit amount
  | .passes block => .advance block w.delegations
  | .ends block => .advance block ((applyQueue w.delegations w.queue).getD ∅)
  | .slashes block validator left => .advance block (w.delegations.insert validator left)

/-- The action that a line takes and the world after it, if it is accepted and
the line is as asked for. -/
def World.line (asked : World Token.Ledger → ScriptLine → Bool) (w : World Token.Ledger)
    (line : ScriptLine) : Option (Action × World Token.Ledger) :=
  match w.exec sampleDeployment (line.action w) with
  | .ok w' => if asked w line then some (line.action w, w') else none
  | .error _ => none

theorem World.line_sound {asked : World Token.Ledger → ScriptLine → Bool}
    {w w' : World Token.Ledger} {line : ScriptLine} {act : Action}
    (h : w.line asked line = some (act, w')) :
    w.Step sampleDeployment act w' ∧ act = line.action w ∧ asked w line = true := by
  unfold World.line at h
  split at h
  · next h' =>
    split_ifs at h with hasked
    obtain ⟨rfl, rfl⟩ := Prod.mk.inj (Option.some.inj h)
    exact ⟨h', rfl, hasked⟩
  · cases h

/-- The world after an action; a refused one changes nothing. -/
def World.next (w : World Token.Ledger) (act : Action) : World Token.Ledger :=
  match w.exec sampleDeployment act with
  | .ok w' => w'
  | .error _ => w

theorem World.step_next (w : World Token.Ledger) (act : Action)
    (h : (w.exec sampleDeployment act).isOk = true) : w.Step sampleDeployment act (w.next act) := by
  unfold World.Step World.next
  cases hx : w.exec sampleDeployment act with
  | ok w' => rfl
  | error e => simp [hx, Except.isOk, Except.toBool] at h

theorem World.next_of_step {w w' : World Token.Ledger} {act : Action}
    (h : w.Step sampleDeployment act w') : w.next act = w' := by
  unfold World.Step at h
  rw [World.next, h]

/-- Any line. -/
def anyLine : World Token.Ledger → ScriptLine → Bool := fun _ _ => true

/-- A message of a user to the hub. -/
def toHub (sender : Addr) (msg : HubMsg) : ScriptLine := .send sender "hub" (.hub msg) []

/-- A message of a user to the token. -/
def toToken (sender : Addr) (msg : Cw20Msg) : ScriptLine := .send sender "token" (.token msg) []

/-- A user stakes. -/
def stakes (sender : Addr) (amount : ℕ) : ScriptLine :=
  .send sender "hub" (.hub .stake) [⟨"ubbn", amount⟩]

/-- A user stakes 100, which is delegated. -/
def sampleStake : List ScriptLine := [stakes "alice" 100, .ends ⟨460, 3600⟩]

/-- When the batch is due, the user unstakes an amount, and the batch is closed. -/
def sampleUnstake (amount : ℕ) : List ScriptLine :=
  [toToken "alice" (.increaseAllowance "hub" 100), .ends ⟨900, 8000⟩,
   toHub "alice" (.unstake amount)]

/-- The trace of a script from the sample world. -/
def sampleTrace (script : List ScriptLine) : List (Action × World Token.Ledger) :=
  playTrace (World.line anyLine) sampleWorld script

/-- The world a script leads to. -/
def sampleEnd (script : List ScriptLine) : World Token.Ledger :=
  playEnd (World.line anyLine) sampleWorld script

/-- The run of a script whose lines are all as asked for. -/
theorem playedFrom {asked : World Token.Ledger → ScriptLine → Bool}
    {step : World Token.Ledger → Action → World Token.Ledger → Prop} (w : World Token.Ledger)
    (script : List ScriptLine)
    (sound : ∀ {w w' : World Token.Ledger} {line : ScriptLine} {act : Action},
      w.line asked line = some (act, w') → step w act w')
    (h : (play (World.line asked) w script).isSome = true) :
    Run step w (playTrace (World.line asked) w script) (playEnd (World.line asked) w script) := by
  have sound' : ∀ w line act w', World.line asked w line = some (act, w') → step w act w' :=
    fun _ _ _ _ h => sound h
  exact played_run sound' w script h

theorem sampleRun (script : List ScriptLine)
    (h : (play (World.line anyLine) sampleWorld script).isSome = true) :
    Run (World.Step sampleDeployment) sampleWorld (sampleTrace script) (sampleEnd script) :=
  playedFrom sampleWorld script (fun h => (World.line_sound h).1) h

end BabyLst
