/-
# The books

What the accounting of the hub depends on: its storage, the token's supply, the
hub's bank balance, its delegations, the queue and the registry.  `Books` is the
world with the token's own bookkeeping forgotten, and its steps are what a
transaction does to these: a call of the hub with the effects of its messages
booked at once (`Call`), after a burn the check for slashing that the token
sends back (`Check`).

`World.exec_books` is the simulation: every accepted action of the world is a
`Move` of its books.  The results about runs are proved about the books.
-/

import BabyLst.World.Chain

namespace BabyLst

open Lib Std

/-- The books of a world. -/
structure Books where
  block : Block
  hub : Hub.Storage
  supply : ℕ
  bank : ℕ
  delegations : ExtTreeMap String ℕ
  queue : List StakingMsg
  registry : Registry.Storage

variable {T : Type}

/-- The world with the token's own bookkeeping forgotten. -/
def World.books (d : Deployment T) (w : World T) : Books :=
  { block := w.block
    hub := w.hub
    supply := d.cw20.totalSupply w.token.cw20
    bank := w.bank
    delegations := w.delegations
    queue := w.queue
    registry := w.registry }

/-- A message the chain takes itself. -/
def CosmosMsg.toChain : CosmosMsg → Bool
  | .wasmExecute _ _ _ => false
  | _ => true

/-- The staking message of a message. -/
def CosmosMsg.staking : CosmosMsg → Option StakingMsg
  | .wrappedDelegate _ validator amount => some (.delegate validator amount.amount)
  | .wrappedUndelegate _ validator amount => some (.undelegate validator amount.amount)
  | .wrappedBeginRedelegate _ src dst amount => some (.redelegate src dst amount.amount)
  | _ => none

/-- The coins a message sends. -/
def CosmosMsg.sent : CosmosMsg → ℕ
  | .bankSend _ amount => amount.amount
  | _ => 0

/-- What a message mints. -/
def CosmosMsg.minted : CosmosMsg → ℕ
  | .wasmExecute _ (.token msg) _ => msg.minted
  | _ => 0

/-- What a message burns. -/
def CosmosMsg.burned : CosmosMsg → ℕ
  | .wasmExecute _ (.token msg) _ => msg.burned
  | _ => 0

/-- The staking messages of a response. -/
def queuedIn (messages : List CosmosMsg) : List StakingMsg := messages.filterMap CosmosMsg.staking

/-- The coins a response sends. -/
def sentIn (messages : List CosmosMsg) : ℕ := (messages.map CosmosMsg.sent).sum

/-- What a response mints. -/
def mintedIn (messages : List CosmosMsg) : ℕ := (messages.map CosmosMsg.minted).sum

/-- What a response burns. -/
def burnedIn (messages : List CosmosMsg) : ℕ := (messages.map CosmosMsg.burned).sum

/-- **The outside answers the hub by the books.** -/
structure Answers (d : Deployment T) (b : Books) (q : Querier) : Prop where
  balance : q.balance d.hub d.denom = b.bank
  delegations : q.allDelegations d.hub = delegationList d b.delegations
  supply : ∀ a n, q.totalSupply a = .ok n → n = b.supply
  validators : ∀ a vs, q.validatorsDelegation a = .ok vs →
    a = d.registry ∧ vs = Registry.queryValidators (registryDeps d b.delegations) b.registry

theorem World.answers (d : Deployment T) (w : World T) : Answers d (w.books d) (w.querier d) where
  balance := if_pos ⟨rfl, rfl⟩
  delegations := if_pos rfl
  supply a n h := by
    simp only [World.querier, answerAt] at h
    split_ifs at h
    exact (Except.ok.inj h).symm
  validators a vs h := by
    simp only [World.querier, answerAt] at h
    split_ifs at h with ha
    exact ⟨ha, (Except.ok.inj h).symm⟩

/-- The books with the funds of a call credited. -/
def Books.paid (d : Deployment T) (b : Books) (info : MessageInfo) : Books :=
  { b with bank := b.bank + fundsIn d.denom info.funds }

/-- The books after a response of the hub. -/
def Books.after (b : Books) (hub : Hub.Storage) (messages : List CosmosMsg) : Books :=
  { b with
    hub := hub
    supply := b.supply + mintedIn messages - burnedIn messages
    bank := b.bank - sentIn messages
    queue := b.queue ++ queuedIn messages }

/-- **A call of the hub**, with what its messages do. -/
inductive Call (d : Deployment T) (b : Books) (info : MessageInfo) (msg : HubMsg) : Books → Prop
  | intro {q : Querier} {hub : Hub.Storage} {res : Response} (answers : Answers d (b.paid d info) q)
      (effect : Hub.Effect q b.hub ⟨b.block, d.hub⟩ info msg hub res)
      (burned_le : burnedIn res.messages ≤ b.supply + mintedIn res.messages)
      (sent_le : sentIn res.messages ≤ (b.paid d info).bank) :
      Call d b info msg ((b.paid d info).after hub res.messages)

/-- The check for slashing that the token asks for after a burn. -/
def Check (d : Deployment T) (b b' : Books) : Prop := Call d b ⟨d.token, []⟩ .checkSlashing b'

/-- Tokens are burned. -/
def Books.burn (b : Books) (amount : ℕ) : Books := { b with supply := b.supply - amount }

/-- The message is a request to unstake. -/
def HubMsg.unstakes : HubMsg → Bool
  | .unstake _ => true
  | .receive _ => true
  | _ => false

/-- The token calls the hub for the message. -/
def Cw20Msg.calls : Cw20Msg → Bool
  | .send _ _ _ => true
  | .sendFrom _ _ _ _ => true
  | .burn _ => true
  | .burnFrom _ _ => true
  | _ => false

/-- The redelegations that the messages of the registry lead to. -/
def proxiedIn (messages : List CosmosMsg) : List StakingMsg :=
  messages.flatMap fun m => match m with
    | .wasmExecute _ (.hub (.redelegateProxy src redelegations)) _ =>
      redelegations.map fun e => .redelegate src e.1 e.2.amount
    | _ => []

/-- **A transaction on the books**, by the message of the user. -/
inductive Tx (d : Deployment T) (b : Books) : ContractMsg → Books → Prop
  | hub {info : MessageInfo} {msg : HubMsg} {b' : Books} (user : d.IsUser info.sender)
      (plain : msg.unstakes = false) (call : Call d b info msg b') : Tx d b (.hub msg) b'
  | unstake {info : MessageInfo} {amount : ℕ} {b₁ b' : Books} (user : d.IsUser info.sender)
      (call : Call d b info (.unstake amount) b₁) (check : Check d b₁ b') :
      Tx d b (.hub (.unstake amount)) b'
  | send {msg : Cw20Msg} {received : Cw20ReceiveMsg} {b₁ b' : Books}
      (sends : (∃ c m, msg = .send c received.amount m) ∨
        ∃ o c m, msg = .sendFrom o c received.amount m)
      (call : Call d b ⟨d.token, []⟩ (.receive received) b₁) (check : Check d b₁ b') :
      Tx d b (.token msg) b'
  | burn {msg : Cw20Msg} {amount : ℕ} {b' : Books}
      (burns : msg = .burn amount ∨ ∃ owner, msg = .burnFrom owner amount)
      (le : amount ≤ b.supply) (check : Check d (b.burn amount) b') : Tx d b (.token msg) b'
  | still {msg : Cw20Msg} (quiet : msg.calls = false) : Tx d b (.token msg) b
  | registry {info : MessageInfo} {msg : RegistryMsg} {registry : Registry.Storage}
      (h : Registry.execute (registryDeps d b.delegations) b.registry info msg =
        .ok (registry, [])) : Tx d b (.registry msg) { b with registry := registry }
  | redelegate {messages : List CosmosMsg}
      (h : Registry.processRedelegations (registryDeps d b.delegations) b.registry =
        .ok messages) :
      Tx d b (.registry .processRedelegations) { b with queue := b.queue ++ proxiedIn messages }

/-- The chain goes on within an epoch. -/
def Books.within (b : Books) (block : Block) (delegations : ExtTreeMap String ℕ) : Books :=
  { b with
    block := block
    delegations := delegations }

/-- The chain enters a later epoch: the stake of the queue is taken, and the
queue is empty. -/
def Books.entered (b : Books) (block : Block) (delegations : ExtTreeMap String ℕ) : Books :=
  { b with
    block := block
    delegations := delegations
    bank := b.bank - queuedStake b.queue
    queue := [] }

/-- **A move of the books.** -/
inductive Move (d : Deployment T) (b : Books) : Action → Books → Prop
  | transact {sender contract : Addr} {msg : ContractMsg} {funds : List Coin} {b' : Books}
      (tx : Tx d b msg b') : Move d b (.transact sender contract msg funds) b'
  | credit (amount : ℕ) : Move d b (.credit amount) { b with bank := b.bank + amount }
  | within {block : Block} {delegations : ExtTreeMap String ℕ}
      (height_le : b.block.height ≤ block.height) (time_le : b.block.time ≤ block.time)
      (same : d.epoch block.height = d.epoch b.block.height) :
      Move d b (.advance block delegations) (b.within block delegations)
  | enter {block : Block} {delegations : ExtTreeMap String ℕ}
      (height_le : b.block.height ≤ block.height) (time_le : b.block.time ≤ block.time)
      (later : d.epoch block.height ≠ d.epoch b.block.height)
      (enough : queuedStake b.queue ≤ b.bank) :
      Move d b (.advance block delegations) (b.entered block delegations)

/-! ### Messages and what they do -/

@[simp] theorem queuedIn_append (l l' : List CosmosMsg) :
    queuedIn (l ++ l') = queuedIn l ++ queuedIn l' := List.filterMap_append

@[simp] theorem sentIn_append (l l' : List CosmosMsg) :
    sentIn (l ++ l') = sentIn l + sentIn l' := by
  simp [sentIn]

@[simp] theorem mintedIn_append (l l' : List CosmosMsg) :
    mintedIn (l ++ l') = mintedIn l + mintedIn l' := by
  simp [mintedIn]

@[simp] theorem burnedIn_append (l l' : List CosmosMsg) :
    burnedIn (l ++ l') = burnedIn l + burnedIn l' := by
  simp [burnedIn]

@[simp] theorem queuedIn_nil : queuedIn [] = [] := rfl
@[simp] theorem sentIn_nil : sentIn [] = 0 := rfl
@[simp] theorem mintedIn_nil : mintedIn [] = 0 := rfl
@[simp] theorem burnedIn_nil : burnedIn [] = 0 := rfl

/-- Messages to the chain neither mint nor burn. -/
theorem toChain_tokens {messages : List CosmosMsg} (h : ∀ m ∈ messages, m.toChain = true) :
    mintedIn messages = 0 ∧ burnedIn messages = 0 := by
  induction messages with
  | nil => exact ⟨rfl, rfl⟩
  | cons m messages ih =>
    obtain ⟨hm, hb⟩ := ih fun m' hm' => h m' (List.mem_cons_of_mem _ hm')
    have hhead := h m (List.mem_cons_self ..)
    simp only [mintedIn, burnedIn, List.map_cons, List.sum_cons] at hm hb ⊢
    rw [hm, hb]
    cases m <;> simp [CosmosMsg.toChain] at hhead <;> exact ⟨rfl, rfl⟩

theorem deliverAll_nil (d : Deployment T) (n : ℕ) (w : World T) (sender : Addr) :
    deliverAll d n w sender [] = .ok w := by
  cases n <;> rfl

theorem deliverAll_cons {d : Deployment T} {n : ℕ} {w w' : World T} {sender : Addr}
    {m : CosmosMsg} {ms : List CosmosMsg} :
    deliverAll d (n + 1) w sender (m :: ms) = .ok w' ↔
      ∃ w₁ callee inner w₂, deliver d w sender m = .ok (w₁, callee, inner) ∧
        deliverAll d n w₁ callee inner = .ok w₂ ∧ deliverAll d (n + 1) w₂ sender ms = .ok w' := by
  simp only [deliverAll, List.foldlM_cons, bind_eq_ok, Prod.exists]
  constructor
  · rintro ⟨w₂, ⟨w₁, callee, inner, h₁, h₂⟩, h⟩
    exact ⟨w₁, callee, inner, w₂, h₁, h₂, h⟩
  · rintro ⟨w₁, callee, inner, w₂, h₁, h₂, h⟩
    exact ⟨w₂, ⟨w₁, callee, inner, h₁, h₂⟩, h⟩

/-- **One message to a contract** is the call, and then what the contract answers
with. -/
theorem deliverAll_call {d : Deployment T} {n : ℕ} {w w' : World T} {sender contract : Addr}
    {funds : List Coin} {msg : ContractMsg} :
    deliverAll d (n + 1) w sender [.wasmExecute contract msg funds] = .ok w' ↔
      ∃ w₁ messages, callContract d w sender contract funds msg = .ok (w₁, messages) ∧
        deliverAll d n w₁ contract messages = .ok w' := by
  simp only [deliverAll_cons, deliver, bind_eq_ok, Prod.exists, pure_eq_ok, Prod.mk.injEq,
    deliverAll_nil, Except.ok.injEq]
  constructor
  · rintro ⟨_, _, _, w₂, ⟨w₁, messages, hcall, rfl, rfl, rfl⟩, hinner, rfl⟩
    exact ⟨w₁, messages, hcall, hinner⟩
  · rintro ⟨w₁, messages, hcall, hinner⟩
    exact ⟨w₁, _, _, w', ⟨_, messages, hcall, rfl, rfl, rfl⟩, hinner, rfl⟩

theorem deliverAll_append {d : Deployment T} {n : ℕ} {sender : Addr} {ms ms' : List CosmosMsg} :
    ∀ {w w' : World T}, deliverAll d (n + 1) w sender (ms ++ ms') = .ok w' ↔
      ∃ w₁, deliverAll d (n + 1) w sender ms = .ok w₁ ∧
        deliverAll d (n + 1) w₁ sender ms' = .ok w' := by
  intro w w'
  simp only [deliverAll, List.foldlM_append, bind_eq_ok]

/-- The world after messages to the chain. -/
def World.afterChain (w : World T) (messages : List CosmosMsg) : World T :=
  { w with
    queue := w.queue ++ queuedIn messages
    bank := w.bank - sentIn messages }

/-- A message to the chain queues what it stakes, sends what it sends, and is
answered with no message. -/
theorem deliver_chain {d : Deployment T} {w w' : World T} {sender callee : Addr} {m : CosmosMsg}
    {inner : List CosmosMsg} (hm : m.toChain = true)
    (h : deliver d w sender m = .ok (w', callee, inner)) :
    w' = w.afterChain [m] ∧ inner = [] ∧ sentIn [m] ≤ w.bank := by
  cases m with
  | wasmExecute => simp [CosmosMsg.toChain] at hm
  | wrappedDelegate delegator validator amount =>
    simp only [deliver, enqueue, bind_eq_ok, require_eq_ok, pure_eq_ok, Prod.mk.injEq] at h
    obtain ⟨_, ⟨_, -, rfl⟩, rfl, -, rfl⟩ := h
    exact ⟨rfl, rfl, Nat.zero_le _⟩
  | wrappedUndelegate delegator validator amount =>
    simp only [deliver, enqueue, bind_eq_ok, require_eq_ok, pure_eq_ok, Prod.mk.injEq] at h
    obtain ⟨_, ⟨_, -, rfl⟩, rfl, -, rfl⟩ := h
    exact ⟨rfl, rfl, Nat.zero_le _⟩
  | wrappedBeginRedelegate delegator src dst amount =>
    simp only [deliver, enqueue, bind_eq_ok, require_eq_ok, pure_eq_ok, Prod.mk.injEq] at h
    obtain ⟨_, ⟨_, -, rfl⟩, rfl, -, rfl⟩ := h
    exact ⟨rfl, rfl, Nat.zero_le _⟩
  | withdrawDelegatorReward validator =>
    simp only [deliver, pure_eq_ok, Prod.mk.injEq] at h
    obtain ⟨rfl, -, rfl⟩ := h
    refine ⟨?_, rfl, Nat.zero_le _⟩
    show w = { w with queue := w.queue ++ [] }
    rw [List.append_nil]
  | setWithdrawAddress a =>
    simp only [deliver, pure_eq_ok, Prod.mk.injEq] at h
    obtain ⟨rfl, -, rfl⟩ := h
    refine ⟨?_, rfl, Nat.zero_le _⟩
    show w = { w with queue := w.queue ++ [] }
    rw [List.append_nil]
  | bankSend toAddress amount =>
    simp only [deliver, bind_eq_ok, require_eq_ok, pure_eq_ok, Prod.mk.injEq] at h
    obtain ⟨_, ⟨-, -, -, hle⟩, rfl, -, rfl⟩ := h
    refine ⟨?_, rfl, hle⟩
    show _ = { w with queue := w.queue ++ [], bank := w.bank - amount.amount }
    rw [List.append_nil]

/-- **Messages to the chain** queue what they stake and send what they send. -/
theorem deliverAll_chain {d : Deployment T} {n : ℕ} {sender : Addr} {ms : List CosmosMsg} :
    ∀ {w w' : World T}, (∀ m ∈ ms, m.toChain = true) →
      deliverAll d (n + 1) w sender ms = .ok w' →
      w' = w.afterChain ms ∧ sentIn ms ≤ w.bank := by
  induction ms with
  | nil =>
    intro w w' _ h
    rw [deliverAll_nil] at h
    cases h
    simp [World.afterChain]
  | cons m ms ih =>
    intro w w' hchain h
    rw [deliverAll_cons] at h
    obtain ⟨w₁, callee, inner, w₂, hm, hinner, h⟩ := h
    obtain ⟨rfl, rfl, hle⟩ := deliver_chain (hchain m (List.mem_cons_self ..)) hm
    rw [deliverAll_nil] at hinner
    cases hinner
    obtain ⟨rfl, hle'⟩ := ih (fun m' hm' => hchain m' (List.mem_cons_of_mem _ hm')) h
    have hsent : sentIn (m :: ms) = sentIn [m] + sentIn ms := sentIn_append [m] ms
    have hqueued : queuedIn (m :: ms) = queuedIn [m] ++ queuedIn ms := queuedIn_append [m] ms
    have hle'' : sentIn ms ≤ w.bank - sentIn [m] := hle'
    refine ⟨?_, by omega⟩
    unfold World.afterChain
    rw [hsent, hqueued]
    simp [Nat.sub_sub]

end BabyLst
