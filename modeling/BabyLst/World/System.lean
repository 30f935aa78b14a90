/-
# The contracts with their reward dispatcher

The world once more, with the fourth contract in it and the coins that reach it:
the rewards of the hub that the chain has accrued, the address they are paid to,
and the balance of the dispatcher.  A message to the hub, the token or the
registry does to the world what it does without the dispatcher
(`System.deliver_plain`); what is new is `UpdateGlobalIndex`, which leads from
the hub to the chain, on to the dispatcher and back to the hub, and the messages
of the dispatcher's owner.

`System.exec_books` is the refinement: an accepted action of the system is a run
of the moves of its books, so what the moves keep, the system keeps.
-/

import BabyLst.Dispatcher.Contract
import BabyLst.Lib.Delivery
import BabyLst.World.Moves

namespace BabyLst

open Lib Std

/-- A deployment of the four contracts. -/
structure Protocol (T : Type) extends Deployment T where
  dispatcher : Addr
  dispatcher_isUser : toDeployment.IsUser dispatcher

/-- **The contracts, the dispatcher and the chain**: `accrued` is what the hub's
delegation to a validator has earned and the chain has not yet paid out,
`rewards` the dispatcher's balance in the staking denom.  The last two fields
count what has left the dispatcher, as fees and to be staked. -/
structure System (T : Type) where
  world : World T
  dispatcher : Dispatcher.Config
  rewards : ℕ
  accrued : ExtTreeMap String ℕ
  withdrawAddress : Addr
  fees : ℕ
  restaked : ℕ

variable {T : Type}

/-- What the contracts can ask, the dispatcher's balance included. -/
def System.querier (d : Protocol T) (s : System T) : Querier :=
  { s.world.querier d.toDeployment with
    balance := fun a denom =>
      if a = d.dispatcher ∧ denom = d.denom then s.rewards
      else (s.world.querier d.toDeployment).balance a denom }

/-- Coins of the staking denom reach an account. -/
def System.receives (d : Protocol T) (s : System T) (a : Addr) (amount : ℕ) : System T :=
  if a = d.hub then { s with world := { s.world with bank := s.world.bank + amount } }
  else if a = d.dispatcher then { s with rewards := s.rewards + amount }
  else s

/-- The chain pays out what a validator has accrued. -/
def System.paysOut (d : Protocol T) (s : System T) (validator : String) : System T :=
  System.receives d { s with accrued := s.accrued.erase validator } s.withdrawAddress
    (s.accrued[validator]?.getD 0)

/-- The coins that the dispatcher attaches to a call are the hub's; other
accounts have what they attach. -/
def System.attaches (d : Protocol T) (s : System T) (sender : Addr) (amount : ℕ) :
    Exec (System T) :=
  if sender = d.dispatcher then do
    let rest ← checkedSub s.rewards amount
    return { s with rewards := rest, restaked := s.restaked + amount }
  else return s

/-- A call of a contract: the system after it, and the messages of the contract. -/
def System.call (d : Protocol T) (s : System T) (sender contract : Addr) (funds : List Coin) :
    ContractMsg → Exec (System T × List CosmosMsg)
  | .dispatchRewards => do
    require (contract = d.dispatcher) (.external "no such contract")
    let s := s.receives d d.dispatcher (fundsIn d.denom funds)
    let (config, response) ← Dispatcher.execute (s.querier d) (s.world.env d.dispatcher)
      s.dispatcher ⟨sender, funds⟩ .dispatchRewards
    return ({ s with dispatcher := config }, response.messages)
  | msg => do
    let (world, messages) ← callContract d.toDeployment s.world sender contract funds msg
    return ({ s with world := world }, messages)

/-- One message of a contract, or of a user: the system after it, the contract
called and the messages of its response. -/
def System.deliver (d : Protocol T) (s : System T) (sender : Addr) :
    CosmosMsg → Exec (System T × Addr × List CosmosMsg)
  | .withdrawDelegatorReward validator => do
    require (sender = d.hub ∧ s.world.delegations.contains validator)
      (.external "no delegation")
    return (s.paysOut d validator, sender, [])
  | .setWithdrawAddress address => do
    require (sender = d.hub) (.external "no delegator")
    return ({ s with withdrawAddress := address }, sender, [])
  | .bankSend toAddress amount =>
    if sender = d.dispatcher then do
      require (amount.denom = d.denom) (.external "insufficient funds")
      let rest ← checkedSub s.rewards amount.amount
      let fee := if toAddress = d.dispatcher then 0 else amount.amount
      let s := { s with rewards := rest, fees := s.fees + fee }
      return (s.receives d toAddress amount.amount, sender, [])
    else do
      let (world, _) ← BabyLst.deliver d.toDeployment s.world sender (.bankSend toAddress amount)
      return (System.receives d { s with world := world } toAddress amount.amount, sender, [])
  | .wasmExecute contract msg funds => do
    let s ← s.attaches d sender (fundsIn d.denom funds)
    let (s, messages) ← s.call d sender contract funds msg
    return (s, contract, messages)
  | msg => do
    let (world, _) ← BabyLst.deliver d.toDeployment s.world sender msg
    return ({ s with world := world }, sender, [])

/-- The messages of a sender, with all they lead to. -/
def System.deliverAll (d : Protocol T) :
    ℕ → System T → Addr → List CosmosMsg → Exec (System T) :=
  delivered (System.deliver d) .diverges

/-- What happens next: an action of the world, a message of a user to the
dispatcher's `UpdateConfig`, coins sent to the dispatcher, and what the chain
does with rewards, which it may pay out on its own. -/
inductive SystemAction
  | act (a : Action)
  | configure (sender : Addr) (owner hubContract feeAddr : Option String)
    (feeRate : Option Decimal)
  | gift (amount : ℕ)
  | accrue (validator : String) (amount : ℕ)
  | payout (validator : String)

/-- A user is none of the four contracts. -/
def Protocol.IsUser (d : Protocol T) (a : Addr) : Prop :=
  d.toDeployment.IsUser a ∧ a ≠ d.dispatcher

instance (d : Protocol T) (a : Addr) : Decidable (d.IsUser a) :=
  inferInstanceAs (Decidable (_ ∧ _))

/-- **One action.** -/
def System.exec (d : Protocol T) (s : System T) : SystemAction → Exec (System T)
  | .act (.transact sender contract msg funds) => do
    require (d.IsUser sender) (.external "not a user")
    s.deliverAll d CALL_DEPTH sender [.wasmExecute contract msg funds]
  | .act a => do
    let world ← s.world.exec d.toDeployment a
    return { s with world := world }
  | .configure sender owner hubContract feeAddr feeRate => do
    require (d.IsUser sender) (.external "not a user")
    let (config, _) ← Dispatcher.execute (s.querier d) (s.world.env d.dispatcher) s.dispatcher
      ⟨sender, []⟩ (.updateConfig owner hubContract feeAddr feeRate)
    return { s with dispatcher := config }
  | .gift amount => return s.receives d d.dispatcher amount
  | .accrue validator amount =>
    return { s with
      accrued := s.accrued.insert validator (s.accrued[validator]?.getD 0 + amount) }
  | .payout validator => return s.paysOut d validator

/-- One accepted action. -/
def System.Step (d : Protocol T) (s : System T) (a : SystemAction) (s' : System T) : Prop :=
  s.exec d a = .ok s'

/-- **A system that has just been set up**: the world, the dispatcher as its
`instantiate` leaves it, told the hub and the staking denom, and the hub told the
dispatcher, which is where the rewards go. -/
structure System.Created (d : Protocol T) (s : System T) : Prop where
  world : s.world.Created d.toDeployment
  dispatcher_created : ∃ q info msg, Dispatcher.instantiate q info msg = .ok s.dispatcher ∧
    msg.hubContract = d.hub ∧ msg.rewardDenom = d.denom
  rewardDispatcher_eq : s.world.hub.config.rewardDispatcherContract = some d.dispatcher
  withdrawAddress_eq : s.withdrawAddress = d.dispatcher
  rewards_eq : s.rewards = 0
  accrued_eq : s.accrued = ∅
  fees_eq : s.fees = 0
  restaked_eq : s.restaked = 0

/-! ### Messages that concern no rewards -/

/-- A message that the contracts send in answer to one that concerns no rewards. -/
def CosmosMsg.inner : CosmosMsg → Bool
  | .withdrawDelegatorReward _ => false
  | .wasmExecute _ (.token _) _ => true
  | .wasmExecute _ (.hub (.receive _)) _ => true
  | .wasmExecute _ (.hub .checkSlashing) _ => true
  | .wasmExecute _ (.hub (.redelegateProxy _ _)) _ => true
  | .wasmExecute _ _ _ => false
  | _ => true

/-- A message that concerns no rewards. -/
def CosmosMsg.plain : CosmosMsg → Bool
  | .withdrawDelegatorReward _ => false
  | .wasmExecute _ .dispatchRewards _ => false
  | .wasmExecute _ (.hub .updateGlobalIndex) _ => false
  | _ => true

theorem CosmosMsg.plain_of_inner {m : CosmosMsg} (h : m.inner = true) : m.plain = true := by
  unfold CosmosMsg.inner at h
  unfold CosmosMsg.plain
  split <;> simp_all

theorem inner_completion {q : Querier} {st st' : Hub.Storage} {env : Env}
    {batch batch' : Hub.CurrentBatch} {messages : List CosmosMsg}
    (h : Hub.Completion q st env batch st' batch' messages) :
    ∀ m ∈ messages, m.inner = true ∧ ∀ a coin, m ≠ .bankSend a coin := by
  cases h with
  | stillOpen => simp
  | closed =>
    intro m hm
    obtain ⟨e, -, rfl⟩ := List.mem_map.1 hm
    exact ⟨rfl, fun _ _ h => by cases h⟩

/-- **What the hub answers with**, unless it is asked to update the global index:
no message that concerns rewards, and coins for nobody but the caller. -/
theorem Hub.Effect.inner {q : Querier} {st st' : Hub.Storage} {env : Env} {info : MessageInfo}
    {msg : HubMsg} {res : Response} (h : Hub.Effect q st env info msg st' res)
    (hmsg : msg ≠ .updateGlobalIndex) :
    ∀ m ∈ res.messages, m.inner = true ∧ ∀ a coin, m = .bankSend a coin → a = info.sender := by
  intro m hm
  cases h with
  | @stake t st' res h =>
    obtain @⟨payment, supply, mint, state, pending, validators, plan, registry, token, res, -, -, -,
      -, -, -, -, -, -, -, -, -, messages_eq⟩ := h
    rw [messages_eq] at hm
    rcases List.mem_append.1 hm with hm | hm
    · obtain ⟨e, -, rfl⟩ := List.mem_map.1 hm
      exact ⟨rfl, fun _ _ h => by cases h⟩
    · cases t with
      | lstMint =>
        rw [List.mem_singleton.1 hm]
        exact ⟨rfl, fun _ _ h => by cases h⟩
      | stakeRewards => cases hm
  | unstake msg_eq token_eq h messages_eq =>
    rw [messages_eq] at hm
    rcases List.mem_append.1 hm with hm | hm
    · obtain ⟨hinner, hsend⟩ := inner_completion h m hm
      exact ⟨hinner, fun a coin h => absurd h (hsend a coin)⟩
    · rw [List.mem_singleton.1 hm]
      exact ⟨rfl, fun _ _ h => by cases h⟩
  | @withdraw batchIds st' res h =>
    obtain @⟨free, left, amount, released, res, -, -, -, -, -, -, -, messages_eq, -⟩ := h
    rw [messages_eq] at hm
    rw [List.mem_singleton.1 hm]
    exact ⟨rfl, fun _ _ h => by cases h; rfl⟩
  | release _ _ _ _ messages_eq => simp [messages_eq] at hm
  | checkSlashing h messages_eq => simp [messages_eq] at hm
  | nothingRequested => simp at hm
  | processUndelegations ne h =>
    obtain ⟨hinner, hsend⟩ := inner_completion h m hm
    exact ⟨hinner, fun a coin h => absurd h (hsend a coin)⟩
  | updateParams auth messages_eq => simp [messages_eq] at hm
  | updateConfig auth token messages_eq =>
    obtain ⟨a, rfl⟩ := messages_eq m hm
    exact ⟨rfl, fun _ _ h => by cases h⟩
  | redelegate auth messages_eq =>
    rw [messages_eq] at hm
    obtain ⟨e, -, rfl⟩ := List.mem_map.1 hm
    exact ⟨rfl, fun _ _ h => by cases h⟩
  | updateGlobalIndex => exact absurd rfl hmsg

variable {d : Deployment T}

/-- **What a contract answers with**: it is one of the three, and its messages
are as those of the hub. -/
theorem callContract_inner {w w' : World T} {sender contract : Addr} {funds : List Coin}
    {msg : ContractMsg} {messages : List CosmosMsg}
    (h : callContract d w sender contract funds msg = .ok (w', messages))
    (hmsg : msg ≠ .hub .updateGlobalIndex) :
    ¬d.IsUser contract ∧ ∀ m ∈ messages, m.inner = true ∧
      ∀ a coin, m = .bankSend a coin → a = sender := by
  unfold Deployment.IsUser
  cases msg with
  | hub msg =>
    obtain ⟨rfl, q, hub, res, -, hx, rfl, -⟩ := callContract_hub h
    exact ⟨fun h => h.1 rfl, (Hub.execute_ok hx).inner fun heq => hmsg (heq ▸ rfl)⟩
  | token msg =>
    obtain ⟨rfl, rfl, -⟩ := callContract_token h
    refine ⟨fun h => h.2.1 rfl, fun m hm => ?_⟩
    have hone : ∀ contract hub, (hub = .checkSlashing ∨ ∃ received, hub = .receive received) →
        m = .wasmExecute contract (.hub hub) [] →
        m.inner = true ∧ ∀ a coin, m = .bankSend a coin → a = sender := by
      rintro contract hub (rfl | ⟨received, rfl⟩) rfl
      · exact ⟨rfl, fun _ _ h => by cases h⟩
      · exact ⟨rfl, fun _ _ h => by cases h⟩
    cases msg with
    | burn => exact hone _ _ (.inl rfl) (List.mem_singleton.1 hm)
    | burnFrom => exact hone _ _ (.inl rfl) (List.mem_singleton.1 hm)
    | send => exact hone _ _ (.inr ⟨_, rfl⟩) (List.mem_singleton.1 hm)
    | sendFrom => exact hone _ _ (.inr ⟨_, rfl⟩) (List.mem_singleton.1 hm)
    | _ => cases hm
  | registry msg =>
    simp only [callContract, bind_eq_ok, require_eq_ok, Prod.exists, pure_eq_ok,
      Prod.mk.injEq] at h
    obtain ⟨_, rfl, registry, ms, hx, -, rfl⟩ := h
    refine ⟨fun h => h.2.2 rfl, fun m hm => ?_⟩
    cases msg with
    | processRedelegations =>
      simp only [Registry.execute, bind_eq_ok, pure_eq_ok, Prod.mk.injEq] at hx
      obtain ⟨ms', hp, -, rfl⟩ := hx
      obtain ⟨v, rs, rfl, -⟩ := Registry.processRedelegations_messages hp m hm
      exact ⟨rfl, fun _ _ h => by cases h⟩
    | _ =>
      simp only [Registry.execute, bind_eq_ok, pure_eq_ok, Prod.mk.injEq] at hx
      obtain ⟨_, -, -, rfl⟩ := hx
      cases hm
  | dispatchRewards => simp [callContract] at h

/-- The chain answers its messages with nothing. -/
theorem deliver_chain_answer {w w' : World T} {sender callee : Addr} {m : CosmosMsg}
    {inner : List CosmosMsg} (hm : m.toChain = true)
    (h : deliver d w sender m = .ok (w', callee, inner)) : callee = sender ∧ inner = [] := by
  cases m with
  | wasmExecute => cases hm
  | _ =>
    simp only [deliver, bind_eq_ok, pure_eq_ok, Prod.mk.injEq] at h
    grind

/-! ### What they do in the system -/

variable {d : Protocol T}

/-- A message, from others than the dispatcher, that concerns neither rewards nor
the dispatcher's balance. -/
structure Protocol.Plain (d : Protocol T) (sender : Addr) (m : CosmosMsg) : Prop where
  sender_ne : sender ≠ d.dispatcher
  plain : m.plain = true
  send_ne : ∀ a coin, m = .bankSend a coin → a ≠ d.dispatcher

/-- The system is another one but for the world and where rewards are paid to. -/
def System.Beside (s₀ s : System T) (w : World T) : Prop :=
  s = { s₀ with world := w, withdrawAddress := s.withdrawAddress }

/-- The answers to a plain message are plain. -/
theorem Protocol.plain_inner {w w' : World T} {sender contract : Addr} {funds : List Coin}
    {msg : ContractMsg} {messages : List CosmosMsg} (hsender : sender ≠ d.dispatcher)
    (h : callContract d.toDeployment w sender contract funds msg = .ok (w', messages))
    (hmsg : msg ≠ .hub .updateGlobalIndex) : ∀ m ∈ messages, d.Plain contract m := by
  obtain ⟨hcontract, hinner⟩ := callContract_inner h hmsg
  intro m hm
  obtain ⟨hm', hsend⟩ := hinner m hm
  refine ⟨?_, CosmosMsg.plain_of_inner hm', fun a coin heq => hsend a coin heq ▸ hsender⟩
  rintro rfl
  exact hcontract d.dispatcher_isUser

/-- **A plain message does to the world what it does without the dispatcher.** -/
theorem System.deliver_plain {s₀ s s' : System T} {w : World T} {sender callee : Addr}
    {m : CosmosMsg} {inner : List CosmosMsg} (hs : s₀.Beside s w) (hm : d.Plain sender m)
    (h : s.deliver d sender m = .ok (s', callee, inner)) :
    (∃ w', s₀.Beside s' w' ∧
      BabyLst.deliver d.toDeployment w sender m = .ok (w', callee, inner)) ∧
      ∀ m' ∈ inner, d.Plain callee m' := by
  obtain ⟨hsender, hplain, hsend⟩ := hm
  have hw : s.world = w := by rw [hs]
  -- a message to the staking module, which the chain takes
  have staking : ∀ r, m.toChain = true → BabyLst.deliver d.toDeployment s.world sender m = .ok r →
      ({ s with world := r.1 }, sender, []) = (s', callee, inner) →
      (∃ w', s₀.Beside s' w' ∧
        BabyLst.deliver d.toDeployment w sender m = .ok (w', callee, inner)) ∧
        ∀ m' ∈ inner, d.Plain callee m' := by
    rintro ⟨w', callee', inner'⟩ hchain hr heq
    obtain ⟨rfl, rfl⟩ := deliver_chain_answer hchain hr
    simp only [Prod.mk.injEq] at heq
    obtain ⟨rfl, rfl, rfl⟩ := heq
    refine ⟨⟨w', ?_, hw ▸ hr⟩, by simp⟩
    unfold System.Beside at hs ⊢
    rw [hs]
  cases m with
  | wrappedDelegate delegator validator amount =>
    simp only [System.deliver, bind_eq_ok, pure_eq_ok] at h
    obtain ⟨r, hr, heq⟩ := h
    exact staking r rfl hr heq
  | wrappedUndelegate delegator validator amount =>
    simp only [System.deliver, bind_eq_ok, pure_eq_ok] at h
    obtain ⟨r, hr, heq⟩ := h
    exact staking r rfl hr heq
  | wrappedBeginRedelegate delegator src dst amount =>
    simp only [System.deliver, bind_eq_ok, pure_eq_ok] at h
    obtain ⟨r, hr, heq⟩ := h
    exact staking r rfl hr heq
  | withdrawDelegatorReward validator => cases hplain
  | setWithdrawAddress a =>
    simp only [System.deliver, bind_eq_ok, require_eq_ok, pure_eq_ok, Prod.mk.injEq] at h
    obtain ⟨_, -, rfl, rfl, rfl⟩ := h
    refine ⟨⟨w, ?_, rfl⟩, by simp⟩
    unfold System.Beside at hs ⊢
    rw [hs]
  | bankSend toAddress amount =>
    simp only [System.deliver, if_neg hsender, bind_eq_ok, pure_eq_ok, Prod.mk.injEq] at h
    obtain ⟨⟨w', callee', inner'⟩, hr, rfl, rfl, rfl⟩ := h
    have hr' := hr
    simp only [BabyLst.deliver, bind_eq_ok, require_eq_ok, pure_eq_ok, Prod.mk.injEq] at hr'
    obtain ⟨_, ⟨-, hne, -⟩, -, rfl, rfl⟩ := hr'
    refine ⟨⟨w', ?_, hw ▸ hr⟩, by simp⟩
    unfold System.Beside at hs ⊢
    rw [System.receives, if_neg hne, if_neg (hsend _ _ rfl), hs]
  | wasmExecute contract msg funds =>
    simp only [System.deliver, System.attaches, if_neg hsender, bind_eq_ok, pure_eq_ok,
      Prod.exists, Prod.mk.injEq] at h
    obtain ⟨_, rfl, s₁, ms, hcall, rfl, rfl, rfl⟩ := h
    have hmsg : msg ≠ .hub .updateGlobalIndex := by
      rintro rfl
      cases hplain
    have hdone : ∃ w', callContract d.toDeployment s.world sender contract funds msg =
        .ok (w', ms) ∧ s₁ = { s with world := w' } := by
      cases msg with
      | dispatchRewards => cases hplain
      | _ =>
        simp only [System.call, bind_eq_ok, Prod.exists, pure_eq_ok, Prod.mk.injEq] at hcall
        obtain ⟨w', ms', hr, rfl, rfl⟩ := hcall
        exact ⟨w', hr, rfl⟩
    obtain ⟨w', hr, rfl⟩ := hdone
    refine ⟨⟨w', ?_, ?_⟩, Protocol.plain_inner hsender hr hmsg⟩
    · unfold System.Beside at hs ⊢
      rw [hs]
    · simp only [BabyLst.deliver, ← hw, hr, bind_eq_ok]
      exact ⟨_, rfl, rfl⟩

theorem deliverAll_eq_delivered (d : Deployment T) (n : ℕ) (w : World T) (sender : Addr)
    (messages : List CosmosMsg) :
    BabyLst.deliverAll d n w sender messages =
      delivered (BabyLst.deliver d) .diverges n w sender messages := by
  induction n generalizing w sender messages with
  | zero => cases messages <;> rfl
  | succ n ih =>
    simp only [BabyLst.deliverAll, delivered]
    congr 1
    funext w m
    congr 1
    funext r
    exact ih r.1 r.2.1 r.2.2

/-- **Plain messages, with all they lead to,** do to the world what they do
without the dispatcher, and to the rest nothing. -/
theorem System.deliverAll_plain {n : ℕ} {s s' : System T} {sender : Addr}
    {messages : List CosmosMsg} (h : s.deliverAll d n sender messages = .ok s')
    (hplain : ∀ m ∈ messages, d.Plain sender m) :
    s.Beside s' s'.world ∧
      BabyLst.deliverAll d.toDeployment n s.world sender messages = .ok s'.world := by
  obtain ⟨w', hbeside, hw'⟩ := delivered_simulates (R := s.Beside) (e := Fault.diverges)
    (fun hs hm h => System.deliver_plain hs hm h) n h hplain (v := s.world) rfl
  have hworld : s'.world = w' := by rw [hbeside]
  rw [hworld, deliverAll_eq_delivered]
  exact ⟨hbeside, hw'⟩

/-! ### A sample system -/

/-- The sample deployment with a dispatcher. -/
def sampleProtocol : Protocol Token.Ledger :=
  { sampleDeployment with
    dispatcher := "dispatcher"
    dispatcher_isUser := by decide }

/-- The sample system, just set up: the dispatcher takes a tenth. -/
def sampleSystem : System Token.Ledger :=
  { world := sampleWorld
    dispatcher := (Dispatcher.instantiate (sampleWorld.querier sampleDeployment) ⟨"owner", []⟩
      ⟨"hub", "ubbn", "fees", ⟨100000000000000000⟩⟩).toOption.get (by rfl)
    rewards := 0
    accrued := ∅
    withdrawAddress := "dispatcher"
    fees := 0
    restaked := 0 }

theorem sampleSystem_created : sampleSystem.Created sampleProtocol where
  world := sampleWorld_created
  dispatcher_created := ⟨sampleWorld.querier sampleDeployment, ⟨"owner", []⟩,
    ⟨"hub", "ubbn", "fees", ⟨100000000000000000⟩⟩, rfl, rfl, rfl⟩
  rewardDispatcher_eq := rfl
  withdrawAddress_eq := rfl
  rewards_eq := rfl
  accrued_eq := rfl
  fees_eq := rfl
  restaked_eq := rfl

/-- The action that a line takes and the system after it, if it is accepted and
as asked for. -/
def System.line (asked : System Token.Ledger → SystemAction → Bool) (s : System Token.Ledger)
    (line : System Token.Ledger → SystemAction) : Option (SystemAction × System Token.Ledger) :=
  match s.exec sampleProtocol (line s) with
  | .ok s' => if asked s (line s) then some (line s, s') else none
  | .error _ => none

theorem System.line_sound {asked : System Token.Ledger → SystemAction → Bool}
    {s s' : System Token.Ledger} {line : System Token.Ledger → SystemAction} {act : SystemAction}
    (h : s.line asked line = some (act, s')) :
    s.Step sampleProtocol act s' ∧ asked s act = true := by
  unfold System.line at h
  split at h
  · next h' =>
    split_ifs at h with hasked
    obtain ⟨rfl, rfl⟩ := Prod.mk.inj (Option.some.inj h)
    exact ⟨h', hasked⟩
  · cases h

/-- A line of the world's script. -/
def acts (line : ScriptLine) (s : System Token.Ledger) : SystemAction := .act (line.action s.world)

/-- The run of a script whose lines are all as asked for. -/
theorem System.playedFrom {asked : System Token.Ledger → SystemAction → Bool}
    {step : System Token.Ledger → SystemAction → System Token.Ledger → Prop}
    (s : System Token.Ledger) (script : List (System Token.Ledger → SystemAction))
    (sound : ∀ {s s' : System Token.Ledger} {act : SystemAction},
      s.Step sampleProtocol act s' → asked s act = true → step s act s')
    (h : (play (System.line asked) s script).isSome = true) :
    Run step s (playTrace (System.line asked) s script) (playEnd (System.line asked) s script) := by
  have sound' : ∀ s line act s', System.line asked s line = some (act, s') → step s act s' :=
    fun _ _ _ _ hline => sound (System.line_sound hline).1 (System.line_sound hline).2
  exact played_run sound' s script h

/-- Any action. -/
def anyAct : System Token.Ledger → SystemAction → Bool := fun _ _ => true

/-- The system a script leads to. -/
def systemEnd (script : List (System Token.Ledger → SystemAction)) : System Token.Ledger :=
  playEnd (System.line anyAct) sampleSystem script

/-- The trace of a script from the sample system. -/
def systemTrace (script : List (System Token.Ledger → SystemAction)) :
    List (SystemAction × System Token.Ledger) :=
  playTrace (System.line anyAct) sampleSystem script

theorem systemRun (script : List (System Token.Ledger → SystemAction))
    (h : (play (System.line anyAct) sampleSystem script).isSome = true) :
    Run (System.Step sampleProtocol) sampleSystem (systemTrace script) (systemEnd script) :=
  System.playedFrom sampleSystem script (fun h _ => h) h

/-- The system that accepts an action; a refused one changes nothing. -/
def System.next (s : System Token.Ledger) (act : SystemAction) : System Token.Ledger :=
  match s.exec sampleProtocol act with
  | .ok s' => s'
  | .error _ => s

theorem System.step_next (s : System Token.Ledger) (act : SystemAction)
    (h : (s.exec sampleProtocol act).isOk = true) : s.Step sampleProtocol act (s.next act) := by
  unfold System.Step System.next
  cases hx : s.exec sampleProtocol act with
  | ok s' => rfl
  | error e => simp [hx, Except.isOk, Except.toBool] at h

theorem System.next_of_step {s s' : System Token.Ledger} {act : SystemAction}
    (h : s.Step sampleProtocol act s') : s.next act = s' := by
  unfold System.Step at h
  rw [System.next, h]

/-- 100 are staked, on which 60 are accrued, and the global index is updated. -/
def sampleRewards : List (System Token.Ledger → SystemAction) :=
  (sampleStake.map acts) ++
    [fun _ => .accrue sampleValidator 60, fun _ => .gift 5,
      acts (toHub "bob" .updateGlobalIndex)]

end BabyLst
