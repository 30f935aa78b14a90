/-
# What contracts receive, ask and send

The parts of `cosmwasm_std`, `cw20` and `packages/lst_common` that the contracts
exchange: coins, the block, the caller, the answers of the querier, the messages
of a response.  Addresses are strings (`Addr`); amounts are in the smallest unit
of their denom; `Block.time` is in seconds (`env.block.time.seconds()`).
-/

import BabyLst.Common.Math

namespace BabyLst

/-- `Addr`. -/
abbrev Addr := String

/-- `Coin`. -/
structure Coin where
  denom : String
  amount : ℕ
  deriving DecidableEq, Repr

/-- `BlockInfo`: the height and the time in seconds. -/
structure Block where
  height : ℕ
  time : ℕ
  deriving DecidableEq, Repr

/-- `Env`: the block and the address of the contract that runs. -/
structure Env where
  block : Block
  contract : Addr
  deriving DecidableEq, Repr

/-- `MessageInfo`. -/
structure MessageInfo where
  sender : Addr
  funds : List Coin
  deriving DecidableEq, Repr

/-- `Delegation`, one entry of the answer to `query_all_delegations`. -/
structure Delegation where
  delegator : Addr
  validator : String
  amount : Coin
  deriving DecidableEq, Repr

/-- `ValidatorResponse` (`validator.rs`). -/
structure ValidatorResponse where
  totalDelegated : ℕ
  address : String
  deriving DecidableEq, Repr

/-- `hub::InstantiateMsg`. -/
structure InstantiateMsg where
  epochLength : ℕ
  stakingCoinDenom : String
  unstakingPeriod : ℕ
  stakingEpochStartBlockHeight : ℕ
  stakingEpochLengthBlocks : ℕ
  deriving DecidableEq, Repr

/-- `Cw20HookMsg`. -/
inductive Cw20HookMsg
  | unstake
  deriving DecidableEq, Repr

/-- `Cw20ReceiveMsg`, its payload already read as JSON; `none` is a payload that
is not a `Cw20HookMsg`. -/
structure Cw20ReceiveMsg where
  sender : String
  amount : ℕ
  msg : Option Cw20HookMsg
  deriving DecidableEq, Repr

/-- `hub::ExecuteMsg`. -/
inductive HubMsg
  | receive (msg : Cw20ReceiveMsg)
  | stake
  | unstake (amount : ℕ)
  | withdrawUnstaked
  | withdrawUnstakedForBatches (batchIds : List ℕ)
  | updateConfig (owner lstToken validatorRegistry rewardDispatcher : Option String)
  | updateParams (pause : Option Bool) (epochLength unstakingPeriod : Option ℕ)
  | checkSlashing
  | redelegateProxy (srcValidator : String) (redelegations : List (String × Coin))
  | stakeRewards
  | updateGlobalIndex
  | processUndelegations
  | processWithdrawRequests
  deriving DecidableEq, Repr

/-- `cw20_base::msg::ExecuteMsg`, the messages that move or burn tokens or change
an allowance. -/
inductive Cw20Msg
  | transfer (recipient : String) (amount : ℕ)
  | send (contract : String) (amount : ℕ) (msg : Option Cw20HookMsg)
  | transferFrom (owner recipient : String) (amount : ℕ)
  | sendFrom (owner contract : String) (amount : ℕ) (msg : Option Cw20HookMsg)
  | increaseAllowance (spender : String) (amount : ℕ)
  | decreaseAllowance (spender : String) (amount : ℕ)
  | mint (recipient : String) (amount : ℕ)
  | burn (amount : ℕ)
  | burnFrom (owner : String) (amount : ℕ)
  deriving DecidableEq, Repr

/-- `validator::ExecuteMsg`; the validator of `AddValidator` is its address. -/
inductive RegistryMsg
  | addValidator (validator : String)
  | removeValidator (address : String)
  | updateConfig (owner hubContract : Option String)
  | processRedelegations
  deriving DecidableEq, Repr

/-- The message of a `WasmMsg::Execute`, by the contract it is written for. -/
inductive ContractMsg
  | hub (msg : HubMsg)
  | token (msg : Cw20Msg)
  | registry (msg : RegistryMsg)
  | dispatchRewards
  deriving DecidableEq, Repr

/-- `CosmosMsg`, with the kinds the contracts send.  The first three are the
wrapped staking messages of `babylon_msg.rs`. -/
inductive CosmosMsg
  | wrappedDelegate (delegator : Addr) (validator : String) (amount : Coin)
  | wrappedUndelegate (delegator : Addr) (validator : String) (amount : Coin)
  | wrappedBeginRedelegate (delegator : Addr) (srcValidator dstValidator : String) (amount : Coin)
  | withdrawDelegatorReward (validator : String)
  | setWithdrawAddress (address : Addr)
  | bankSend (toAddress : Addr) (amount : Coin)
  | wasmExecute (contractAddr : Addr) (msg : ContractMsg) (funds : List Coin)
  deriving DecidableEq, Repr

/-- `LstExchangeRateUpdated` and `TotalStakedAmountUpdated` (`constants.rs`). -/
inductive Event
  | lstExchangeRateUpdated (oldRate newRate : Decimal)
  | totalStakedAmountUpdated (oldAmount newAmount : ℕ)
  deriving DecidableEq, Repr

/-- The value of an attribute, before it is printed. -/
inductive AttrValue
  | text (s : String)
  | number (n : ℕ)
  | rate (d : Decimal)
  | flag (b : Bool)
  deriving DecidableEq, Repr

/-- `Response`. -/
structure Response where
  messages : List CosmosMsg := []
  events : List Event := []
  attributes : List (String × AttrValue) := []
  deriving DecidableEq, Repr

/-- `deps.querier` and `deps.api`: what a contract can ask of the chain and of
the other contracts.  The wasm queries fail at an address where no contract
answers them. -/
structure Querier where
  /-- `query_balance`. -/
  balance : Addr → String → ℕ
  /-- `query_all_delegations`. -/
  allDelegations : Addr → List Delegation
  /-- `ValidatorsDelegation` at the registry's address. -/
  validatorsDelegation : Addr → Exec (List ValidatorResponse)
  /-- The `total_supply` of `TokenInfo` at the token's address. -/
  totalSupply : Addr → Exec ℕ
  /-- `Cw20QueryMsg::Balance` at the token's address. -/
  tokenBalance : Addr → Addr → Exec ℕ
  /-- `Cw20QueryMsg::Allowance` at the token's address, of an owner to a spender. -/
  tokenAllowance : Addr → Addr → Addr → Exec ℕ
  /-- `Parameters` at the hub's address: the `paused` flag. -/
  hubPaused : Addr → Exec Bool
  /-- `api.addr_validate`. -/
  addrValidate : String → Bool

/-- `to_checked_address` (`lib.rs`). -/
def toCheckedAddress (q : Querier) (address : String) : Exec Addr :=
  if q.addrValidate address then .ok address else .error (.err .invalidAddress)

@[simp] theorem toCheckedAddress_eq_ok {q : Querier} {address : String} {a : Addr} :
    toCheckedAddress q address = .ok a ↔ q.addrValidate address = true ∧ address = a := by
  unfold toCheckedAddress; split_ifs <;> simp_all

end BabyLst
