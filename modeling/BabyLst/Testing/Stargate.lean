/-
# The chain of the integration tests

`CustomStargate` takes the wrapped staking messages of the contracts.  It refuses
an undelegation while the pair of delegator and validator has as many unbonding
entries as are allowed, and passes what it takes on to `BabylonModule`, which
queues it until the epoch ends (`BabylonApp.executeAny`).  What the staking keeper
does with a queued message is not in the repository: it is the argument `router`
of `onEpochEnd`.
-/

import BabyLst.Lib.Throttle
import BabyLst.Registry.Status

namespace BabyLst
namespace Testing

open Lib Std

/-- `UnbondEntry`. -/
structure UnbondEntry where
  amount : ℕ
  completionTime : ℕ
  deriving DecidableEq, Repr

/-- `UnbondingEntriesMap`: the entries of a delegator and a validator. -/
abbrev UnbondingEntriesMap := ExtTreeMap (String × String) (List UnbondEntry) pairCmp

/-- `CustomStargate`. -/
structure CustomStargate where
  maxUnbondingEntries : Option ℕ
  unbondingEntries : UnbondingEntriesMap
  unbondingTimeSecs : Option ℕ

/-- `EpochingMsg`. -/
inductive EpochingMsg
  | delegate (validator : String) (amount : Coin)
  | undelegate (validator : String) (amount : Coin)
  | nextEpoch
  deriving DecidableEq, Repr

/-- The staking messages of the chain's own module. -/
inductive SdkStakingMsg
  | delegate (validator : String) (amount : Coin)
  | undelegate (validator : String) (amount : Coin)
  deriving DecidableEq, Repr

/-- `EpochingMsgQueueItem`. -/
structure EpochingMsgQueueItem where
  msg : SdkStakingMsg
  sender : Addr
  deriving DecidableEq, Repr

/-- `CustomStargate::new`. -/
def CustomStargate.new : CustomStargate := ⟨none, ∅, none⟩

/-- `prune_matured_unbondings`: matured entries are dropped, and pairs without
entries. -/
def CustomStargate.pruneMaturedUnbondings (s : CustomStargate) (now : ℕ) : CustomStargate :=
  { s with
    unbondingEntries := s.unbondingEntries.filterMap fun _ v =>
      let v := v.filter fun e => now < e.completionTime
      if v = [] then none else some v }

/-- The entries of a pair. -/
def CustomStargate.entries (s : CustomStargate) (key : String × String) : List UnbondEntry :=
  s.unbondingEntries[key]?.getD []

/-- `add_unbonding_pair`. -/
def CustomStargate.addUnbondingPair (s : CustomStargate) (key : String × String)
    (amount now unbondingTimeSecs : ℕ) : CustomStargate :=
  { s with
    unbondingEntries := s.unbondingEntries.insert key
      (s.entries key ++ [⟨amount, now + unbondingTimeSecs⟩]) }

/-- `execute_any`: what it makes of a message for the epoching module. -/
def CustomStargate.executeAny (b : Bech32) (s : CustomStargate) (now : ℕ) :
    CosmosMsg → Exec (CustomStargate × EpochingMsg)
  | .wrappedDelegate _ validator amount => do
    let validator ← convertAddrByPrefix b validator VALIDATOR_ADDR_PREFIX
    return (s, .delegate validator amount)
  | .wrappedUndelegate delegator validator amount => do
    let s := s.pruneMaturedUnbondings now
    let delegator ← convertAddrByPrefix b delegator VALIDATOR_ADDR_PREFIX
    let validator ← convertAddrByPrefix b validator VALIDATOR_ADDR_PREFIX
    let maxEntries ← okOr s.maxUnbondingEntries (.panic .unwrap)
    require ((s.entries (delegator, validator)).length < maxEntries)
      (.external "too many unbonding delegation entries for (delegator, validator) tuple")
    let unbondingTimeSecs ← okOr s.unbondingTimeSecs (.panic .unwrap)
    return (s.addUnbondingPair (delegator, validator) amount.amount now unbondingTimeSecs,
      .undelegate validator amount)
  | _ => .error (.external "Unknown message type")

/-- The chain of the tests: the stargate and `EPOCHING_MSG_QUEUE`. -/
structure BabylonApp where
  stargate : CustomStargate
  epochingMsgQueue : List EpochingMsgQueueItem

/-- `push_msg`. -/
def BabylonApp.pushMsg (app : BabylonApp) (msg : SdkStakingMsg) (sender : Addr) : BabylonApp :=
  { app with epochingMsgQueue := app.epochingMsgQueue ++ [⟨msg, sender⟩] }

/-- `on_epoch_end`: the queued messages are executed in order, each by the
`router`, and the queue is empty. -/
def BabylonApp.onEpochEnd {S : Type} (router : S → Addr → SdkStakingMsg → Exec S) (chain : S)
    (app : BabylonApp) : Exec (S × BabylonApp) := do
  let chain ← app.epochingMsgQueue.foldlM (fun chain item => router chain item.sender item.msg)
    chain
  return (chain, { app with epochingMsgQueue := [] })

/-- `BabylonModule::execute`. -/
def BabylonApp.execute {S : Type} (b : Bech32) (router : S → Addr → SdkStakingMsg → Exec S)
    (chain : S) (app : BabylonApp) (sender : Addr) : EpochingMsg → Exec (S × BabylonApp)
  | .delegate validator amount => do
    let validator ← convertAddrByPrefix b validator VALIDATOR_ADDR_PREFIX
    return (chain, app.pushMsg (.delegate validator amount) sender)
  | .undelegate validator amount => do
    let validator ← convertAddrByPrefix b validator VALIDATOR_ADDR_PREFIX
    return (chain, app.pushMsg (.undelegate validator amount) sender)
  | .nextEpoch => app.onEpochEnd router chain

/-- A message of a contract, by the stargate to the epoching module. -/
def BabylonApp.executeAny {S : Type} (b : Bech32) (router : S → Addr → SdkStakingMsg → Exec S)
    (chain : S) (app : BabylonApp) (now : ℕ) (sender : Addr) (msg : CosmosMsg) :
    Exec (S × BabylonApp) := do
  let (stargate, msg) ← app.stargate.executeAny b now msg
  ({ app with stargate := stargate } : BabylonApp).execute b router chain sender msg

/-! ### The entries -/

/-- When the entries of a pair end. -/
def CustomStargate.ends (s : CustomStargate) (key : String × String) : List ℕ :=
  (s.entries key).map (·.completionTime)

/-- What is pruned is what has matured. -/
theorem CustomStargate.ends_prune (s : CustomStargate) (now : ℕ) (key : String × String) :
    (s.pruneMaturedUnbondings now).ends key = (s.ends key).filter (now < ·) := by
  unfold CustomStargate.ends CustomStargate.entries CustomStargate.pruneMaturedUnbondings
  rw [ExtTreeMap.getElem?_filterMap', List.filter_map]
  cases s.unbondingEntries[key]? with
  | none => rfl
  | some v =>
    show List.map _ ((if v.filter _ = [] then none else some (v.filter _)).getD []) = _
    split_ifs with hnil
    · rw [Option.getD_none, ← hnil]
      rfl
    · rfl

/-- A new entry ends when the unbonding time has passed. -/
theorem CustomStargate.ends_add (s : CustomStargate) (key : String × String)
    (amount now time : ℕ) (key' : String × String) :
    (s.addUnbondingPair key amount now time).ends key' =
      if key = key' then s.ends key ++ [now + time] else s.ends key' := by
  unfold CustomStargate.ends CustomStargate.addUnbondingPair CustomStargate.entries
  dsimp only
  rw [getElem?_insert_eq]
  split_ifs with heq
  · rw [Option.getD_some, List.map_append]
    rfl
  · rfl

/-! ### What is accepted -/

variable {b : Bech32} {S : Type} {router : S → Addr → SdkStakingMsg → Exec S} {chain : S}
  {app : BabylonApp} {sender : Addr} {delegator validator operator : String} {amount : Coin}
  {now : ℕ}

/-- A delegation is queued under the validator's operator address. -/
theorem BabylonApp.executeAny_delegate (law : b.RoundTrips)
    (converts : convertAddrByPrefix b validator VALIDATOR_ADDR_PREFIX = .ok operator) :
    app.executeAny b router chain now sender (.wrappedDelegate delegator validator amount) =
      .ok (chain, app.pushMsg (.delegate operator amount) sender) := by
  have hagain := (convertAddrByPrefix_isOperator converts).convert law
  have hstargate : app.stargate.executeAny b now (.wrappedDelegate delegator validator amount) =
      .ok (app.stargate, .delegate operator amount) := bind_ok converts
  unfold BabylonApp.executeAny
  rw [bind_ok hstargate]
  exact bind_ok hagain

/-- The stargate once it has let an undelegation pass. -/
def CustomStargate.undelegated (s : CustomStargate) (key : String × String)
    (amount now unbondingTimeSecs : ℕ) : CustomStargate :=
  (s.pruneMaturedUnbondings now).addUnbondingPair key amount now unbondingTimeSecs

/-- **An undelegation is accepted** while fewer entries are left than are
allowed, and queued under the validator's operator address. -/
theorem BabylonApp.executeAny_undelegate {account : String} {limit window : ℕ}
    (law : b.RoundTrips)
    (limit_eq : app.stargate.maxUnbondingEntries = some limit)
    (window_eq : app.stargate.unbondingTimeSecs = some window)
    (knows : convertAddrByPrefix b delegator VALIDATOR_ADDR_PREFIX = .ok account)
    (converts : convertAddrByPrefix b validator VALIDATOR_ADDR_PREFIX = .ok operator)
    (free : ((app.stargate.ends (account, operator)).filter (now < ·)).length < limit) :
    app.executeAny b router chain now sender (.wrappedUndelegate delegator validator amount) =
      .ok (chain, BabylonApp.pushMsg { app with
          stargate := app.stargate.undelegated (account, operator) amount.amount now window }
        (.undelegate operator amount) sender) := by
  have hagain := (convertAddrByPrefix_isOperator converts).convert law
  have hfree : ((app.stargate.pruneMaturedUnbondings now).entries (account, operator)).length <
      limit := by
    rw [← CustomStargate.ends_prune, CustomStargate.ends, List.length_map] at free
    exact free
  have hstargate : app.stargate.executeAny b now (.wrappedUndelegate delegator validator amount) =
      .ok (app.stargate.undelegated (account, operator) amount.amount now window,
        .undelegate operator amount) := by
    refine (bind_ok knows).trans ((bind_ok converts).trans ?_)
    refine (bind_ok (okOr_eq_ok.2 limit_eq)).trans ((bind_ok (require_ok hfree)).trans ?_)
    exact bind_ok (okOr_eq_ok.2 window_eq)
  unfold BabylonApp.executeAny
  rw [bind_ok hstargate]
  exact bind_ok hagain

/-- Its entry ends when the unbonding time has passed, and others stay unless they
have matured. -/
theorem CustomStargate.ends_undelegated (s : CustomStargate) (key : String × String)
    (amount now window : ℕ) (key' : String × String) :
    (s.undelegated key amount now window).ends key' =
      if key = key' then (s.ends key).filter (now < ·) ++ [now + window]
      else (s.ends key').filter (now < ·) := by
  unfold CustomStargate.undelegated
  rw [CustomStargate.ends_add, CustomStargate.ends_prune, CustomStargate.ends_prune]

end Testing
end BabyLst
