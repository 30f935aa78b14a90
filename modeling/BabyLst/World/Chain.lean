/-
# The contracts on their chain

The hub, the token and the registry as deployed together, with the chain under
them: the hub's bank balance, its delegations, and the queue of its wrapped
staking messages, which the chain keeps until the end of the staking epoch.

A transaction is a message of a user to one of the contracts.  The messages of a
response are delivered one after the other, each with all it leads to before the
next (`deliverAll`); if one fails, so does the whole transaction, and nothing has
happened.  Between transactions the chain goes on (`advance`): when it enters a
new staking epoch it takes the stake queued in the old one from the hub's balance
and empties the queue.  What the delegations are after that is for the results to
say: `applyQueue` is what they are if every message is carried out in full.
-/

import BabyLst.Hub.Contract
import BabyLst.Token.Contract
import BabyLst.Registry.Contract

namespace BabyLst

open Lib Std

/-- A staking message of the hub, waiting for the end of the epoch. -/
inductive StakingMsg
  | delegate (validator : String) (amount : ℕ)
  | undelegate (validator : String) (amount : ℕ)
  | redelegate (src dst : String) (amount : ℕ)
  deriving DecidableEq, Repr

/-- **A deployment**: the addresses, the message the hub was created with, and
the parts that are not in the repository. -/
structure Deployment (T : Type) where
  hub : Addr
  token : Addr
  registry : Addr
  init : InstantiateMsg
  cw20 : Cw20Base T
  bech32 : Bech32
  /-- The operator address of a validator the chain knows. -/
  validator : String → Option String
  addrValidate : String → Bool
  hub_ne_token : hub ≠ token
  hub_ne_registry : hub ≠ registry
  token_ne_registry : token ≠ registry

variable {T : Type}

/-- The denom of the chain's staking coin. -/
abbrev Deployment.denom (d : Deployment T) : String := d.init.stakingCoinDenom

/-- The staking epoch of a height. -/
def Deployment.epoch (d : Deployment T) (height : ℕ) : ℕ :=
  epochOf d.init.stakingEpochStartBlockHeight d.init.stakingEpochLengthBlocks height

/-- The contracts and the chain: `bank` is the hub's balance in the staking
denom, `delegations` its delegation by validator, `queue` what it sent to the
staking module in this epoch. -/
structure World (T : Type) where
  block : Block
  hub : Hub.Storage
  token : Token.Storage T
  registry : Registry.Storage
  bank : ℕ
  delegations : ExtTreeMap String ℕ
  queue : List StakingMsg

/-- What `query_all_delegations` answers about the hub. -/
def delegationList (d : Deployment T) (delegations : ExtTreeMap String ℕ) : List Delegation :=
  delegations.toList.map fun e => ⟨d.hub, e.1, ⟨d.denom, e.2⟩⟩

/-- What the registry can ask. -/
def registryDeps (d : Deployment T) (delegations : ExtTreeMap String ℕ) : Registry.Deps :=
  { allDelegations := fun a => if a = d.hub then delegationList d delegations else []
    validator := d.validator
    bech32 := d.bech32
    addrValidate := d.addrValidate }

/-- An answer of the contract at an address; nobody answers elsewhere. -/
def answerAt {α : Type} (contract asked : Addr) (answer : α) : Exec α :=
  if asked = contract then .ok answer else .error (.external "no such contract")

/-- What the contracts can ask of the world. -/
def World.querier (d : Deployment T) (w : World T) : Querier :=
  { balance := fun a denom => if a = d.hub ∧ denom = d.denom then w.bank else 0
    allDelegations := fun a => if a = d.hub then delegationList d w.delegations else []
    validatorsDelegation := fun a => answerAt d.registry a
      (Registry.queryValidators (registryDeps d w.delegations) w.registry)
    totalSupply := fun a => answerAt d.token a (d.cw20.totalSupply w.token.cw20)
    tokenBalance := fun a owner => answerAt d.token a (d.cw20.balance w.token.cw20 owner)
    tokenAllowance := fun a owner spender =>
      answerAt d.token a (d.cw20.allowance w.token.cw20 owner spender)
    hubPaused := fun a => answerAt d.hub a w.hub.parameters.paused
    addrValidate := d.addrValidate }

/-- The environment of a contract. -/
def World.env (w : World T) (contract : Addr) : Env := ⟨w.block, contract⟩

/-- The coins of a denom. -/
def fundsIn (denom : String) (funds : List Coin) : ℕ :=
  ((funds.filter fun c => c.denom = denom).map (·.amount)).sum

/-- A staking message, as the chain takes it from the hub. -/
def enqueue (d : Deployment T) (w : World T) (sender delegator : Addr) (denom : String)
    (msg : StakingMsg) : Exec (World T) := do
  require (sender = d.hub ∧ delegator = d.hub ∧ denom = d.denom) (.external "staking refused")
  return { w with queue := w.queue ++ [msg] }

/-- A call of a contract: the world after it, and its messages. -/
def callContract (d : Deployment T) (w : World T) (sender contract : Addr) (funds : List Coin) :
    ContractMsg → Exec (World T × List CosmosMsg)
  | .hub msg => do
    require (contract = d.hub) (.external "no such contract")
    let w := { w with bank := w.bank + fundsIn d.denom funds }
    let (hub, res) ← Hub.execute (w.querier d) w.hub (w.env d.hub) ⟨sender, funds⟩ msg
    return ({ w with hub := hub }, res.messages)
  | .token msg => do
    require (contract = d.token) (.external "no such contract")
    let (token, messages) ← Token.execute d.cw20 w.token (w.env d.token) ⟨sender, funds⟩ msg
    return ({ w with token := token }, messages)
  | .registry msg => do
    require (contract = d.registry) (.external "no such contract")
    let (registry, messages) ←
      Registry.execute (registryDeps d w.delegations) w.registry ⟨sender, funds⟩ msg
    return ({ w with registry := registry }, messages)
  | .dispatchRewards => .error (.external "no such contract")

/-- One message of a contract, or of a user: the world after it, the contract
called and the messages of its response. -/
def deliver (d : Deployment T) (w : World T) (sender : Addr) :
    CosmosMsg → Exec (World T × Addr × List CosmosMsg)
  | .wrappedDelegate delegator validator amount => do
    let w ← enqueue d w sender delegator amount.denom (.delegate validator amount.amount)
    return (w, sender, [])
  | .wrappedUndelegate delegator validator amount => do
    let w ← enqueue d w sender delegator amount.denom (.undelegate validator amount.amount)
    return (w, sender, [])
  | .wrappedBeginRedelegate delegator src dst amount => do
    let w ← enqueue d w sender delegator amount.denom (.redelegate src dst amount.amount)
    return (w, sender, [])
  | .bankSend toAddress amount => do
    require (sender = d.hub ∧ toAddress ≠ d.hub ∧ amount.denom = d.denom ∧ amount.amount ≤ w.bank)
      (.external "send refused")
    return ({ w with bank := w.bank - amount.amount }, sender, [])
  | .withdrawDelegatorReward _ => return (w, sender, [])
  | .setWithdrawAddress _ => return (w, sender, [])
  | .wasmExecute contract msg funds => do
    let (w, messages) ← callContract d w sender contract funds msg
    return (w, contract, messages)

/-- The messages of a sender, one after the other, calls nested to the given
depth. -/
def deliverAll (d : Deployment T) : ℕ → World T → Addr → List CosmosMsg → Exec (World T)
  | 0, w, _, messages => do
    require (messages = []) .diverges
    return w
  | depth + 1, w, sender, messages =>
    messages.foldlM (fun w msg => do
      let (w, callee, inner) ← deliver d w sender msg
      deliverAll d depth w callee inner) w

/-- The depth of calls: a user calls the token, the token the hub, the hub the
token and the token the hub. -/
def CALL_DEPTH : ℕ := 6

/-- The stake queued. -/
def queuedStake (queue : List StakingMsg) : ℕ :=
  (queue.map fun m => match m with
    | .delegate _ amount => amount
    | _ => 0).sum

/-- The unstake queued. -/
def queuedUnstake (queue : List StakingMsg) : ℕ :=
  (queue.map fun m => match m with
    | .undelegate _ amount => amount
    | _ => 0).sum

/-- A delegation grows. -/
def addDelegation (delegations : ExtTreeMap String ℕ) (validator : String) (amount : ℕ) :
    ExtTreeMap String ℕ :=
  delegations.insert validator (delegations[validator]?.getD 0 + amount)

/-- A delegation shrinks, if it is enough; one that is used up is gone. -/
def takeDelegation (delegations : ExtTreeMap String ℕ) (validator : String) (amount : ℕ) :
    Option (ExtTreeMap String ℕ) :=
  let held := delegations[validator]?.getD 0
  if held < amount then none
  else if held = amount then some (delegations.erase validator)
  else some (delegations.insert validator (held - amount))

/-- One queued message, carried out in full. -/
def applyMsg (delegations : ExtTreeMap String ℕ) : StakingMsg → Option (ExtTreeMap String ℕ)
  | .delegate validator amount => some (addDelegation delegations validator amount)
  | .undelegate validator amount => takeDelegation delegations validator amount
  | .redelegate src dst amount =>
    (takeDelegation delegations src amount).map fun ds => addDelegation ds dst amount

/-- **The queue carried out in full**, if it can be. -/
def applyQueue (delegations : ExtTreeMap String ℕ) (queue : List StakingMsg) :
    Option (ExtTreeMap String ℕ) :=
  queue.foldlM applyMsg delegations

/-- What happens next: a transaction of a user, coins for the hub, or a new
block, with the delegations as they are then. -/
inductive Action
  | transact (sender contract : Addr) (msg : ContractMsg) (funds : List Coin)
  | credit (amount : ℕ)
  | advance (block : Block) (delegations : ExtTreeMap String ℕ)

/-- A user is none of the contracts. -/
def Deployment.IsUser (d : Deployment T) (a : Addr) : Prop :=
  a ≠ d.hub ∧ a ≠ d.token ∧ a ≠ d.registry

instance (d : Deployment T) (a : Addr) : Decidable (d.IsUser a) :=
  inferInstanceAs (Decidable (_ ∧ _ ∧ _))

/-- The chain goes on to a block.  A block of a later epoch finds the stake of
the queue taken and the queue empty. -/
def advance (d : Deployment T) (w : World T) (block : Block)
    (delegations : ExtTreeMap String ℕ) : Exec (World T) := do
  require (w.block.height ≤ block.height ∧ w.block.time ≤ block.time) (.external "no such block")
  if d.epoch block.height = d.epoch w.block.height then
    return { w with block := block, delegations := delegations }
  else do
    let bank ← checkedSub w.bank (queuedStake w.queue)
    return { w with block := block, delegations := delegations, bank := bank, queue := [] }

/-- **One action.** -/
def World.exec (d : Deployment T) (w : World T) : Action → Exec (World T)
  | .transact sender contract msg funds => do
    require (d.IsUser sender) (.external "not a user")
    deliverAll d CALL_DEPTH w sender [.wasmExecute contract msg funds]
  | .credit amount => return { w with bank := w.bank + amount }
  | .advance block delegations => advance d w block delegations

/-- One accepted action. -/
def World.Step (d : Deployment T) (w : World T) (a : Action) (w' : World T) : Prop :=
  w.exec d a = .ok w'

/-- **A world in which the contracts have just been set up**: the hub and the
registry as their `instantiate` leaves them, the hub told the addresses of the
others, no token minted, nothing delegated. -/
structure World.Created (d : Deployment T) (w : World T) : Prop where
  hub_created : ∃ q info st res res' dispatcher,
    Hub.instantiate (w.env d.hub) info d.init = .ok (st, res) ∧
    Hub.executeUpdateConfig q st info none (some d.token) (some d.registry) dispatcher =
      .ok (w.hub, res')
  registry_created : ∃ info validators,
    Registry.instantiate (registryDeps d ∅) info d.hub validators = .ok w.registry
  token_hub : w.token.hubContract = d.hub
  minter_eq : d.cw20.minter w.token.cw20 = some d.hub
  supply_eq : d.cw20.totalSupply w.token.cw20 = 0
  delegations_eq : w.delegations = ∅
  queue_eq : w.queue = []

end BabyLst
