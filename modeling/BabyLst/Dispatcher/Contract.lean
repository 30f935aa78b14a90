/-
# The reward dispatcher

`contracts/lst_reward_dispatcher/src/contract.rs`.  Staking rewards are paid to
the dispatcher; the hub tells it to dispatch them, and it splits the whole
balance of the reward denom into the fee and what the hub stakes again.

Its only state is its configuration.  The fee rate is checked against
`MAX_FEE_RATE` by both entry points that set it, so the rate is within it in
every run (`Run.feeRate_le`).
-/

import BabyLst.Common.Ceil
import BabyLst.Common.Types
import BabyLst.Lib.Run

namespace BabyLst
namespace Dispatcher

open Lib

/-- `MAX_FEE_RATE` (`lib.rs`): 30%. -/
def MAX_FEE_RATE : Decimal := ⟨300000000000000000⟩

/-- `rewards_msg::Config`, the only thing stored. -/
structure Config where
  owner : Addr
  hubContract : Addr
  rewardDenom : String
  feeAddr : Addr
  feeRate : Decimal
  deriving DecidableEq, Repr

/-- `rewards_msg::InstantiateMsg`. -/
structure InstantiateMsg where
  hubContract : String
  rewardDenom : String
  feeAddr : String
  feeRate : Decimal
  deriving DecidableEq, Repr

/-- `rewards_msg::ExecuteMsg`. -/
inductive ExecuteMsg
  | updateConfig (owner hubContract feeAddr : Option String) (feeRate : Option Decimal)
  | dispatchRewards
  deriving DecidableEq, Repr

/-- `instantiate`. -/
def instantiate (q : Querier) (info : MessageInfo) (msg : InstantiateMsg) : Exec Config := do
  require (msg.feeRate.atomics ≤ MAX_FEE_RATE.atomics) (.err .invalidFeeRate)
  let hubContract ← toCheckedAddress q msg.hubContract
  let feeAddr ← toCheckedAddress q msg.feeAddr
  return { owner := info.sender, hubContract, rewardDenom := msg.rewardDenom, feeAddr
           feeRate := msg.feeRate }

/-- `is_authorized_sender`. -/
def isAuthorizedSender (config : Config) (sender : Addr) : Exec Unit :=
  require (sender = config.owner) (.err .unauthorized)

/-- An address of `execute_update_config`: the new one, checked, or the old. -/
def newAddress (q : Querier) (address : Option String) (old : Addr) : Exec Addr :=
  match address with
  | some a => toCheckedAddress q a
  | none => .ok old

/-- `execute_update_config`. -/
def executeUpdateConfig (q : Querier) (config : Config) (info : MessageInfo)
    (owner hubContract feeAddr : Option String) (feeRate : Option Decimal) : Exec Config := do
  isAuthorizedSender config info.sender
  require (∀ rate ∈ feeRate, rate.atomics ≤ MAX_FEE_RATE.atomics) (.err .invalidFeeRate)
  let owner ← newAddress q owner config.owner
  let hubContract ← newAddress q hubContract config.hubContract
  let feeAddr ← newAddress q feeAddr config.feeAddr
  return { owner, hubContract, rewardDenom := config.rewardDenom, feeAddr
           feeRate := feeRate.getD config.feeRate }

/-- `compute_fee`. -/
def computeFee (amount : ℕ) (feeRate : Decimal) : Exec ℕ := do
  let whole ← Decimal.fromRatio amount 1
  let fee ← whole.mul feeRate
  return fee.toUintCeil

/-- A coin as `to_string` prints it. -/
def coinText (coin : Coin) : String := toString coin.amount ++ coin.denom

/-- `execute_dispatch_rewards`. -/
def executeDispatchRewards (q : Querier) (env : Env) (config : Config) (info : MessageInfo) :
    Exec Response := do
  let paused ← q.hubPaused config.hubContract
  require (paused = false) (.err .hubPaused)
  require (config.hubContract = info.sender) (.err .unauthorized)
  let rewards := q.balance env.contract config.rewardDenom
  let rewardFeeAmt ← computeFee rewards config.feeRate
  let feeCoin : Coin := ⟨config.rewardDenom, rewardFeeAmt⟩
  let rest ← checkedSub rewards rewardFeeAmt
  let restCoin : Coin := ⟨config.rewardDenom, rest⟩
  return {
    messages :=
      (if rewardFeeAmt = 0 then [] else [.bankSend config.feeAddr feeCoin]) ++
      (if rest = 0 then []
        else [.wasmExecute config.hubContract (.hub .stakeRewards) [restCoin]])
    attributes :=
      [("action", .text "claim_rewards"), ("reward_amt", .text (coinText restCoin))] ++
      (if rewardFeeAmt = 0 then [] else [("fee", .text (coinText feeCoin))]) }

/-- `execute`. -/
def execute (q : Querier) (env : Env) (config : Config) (info : MessageInfo) :
    ExecuteMsg → Exec (Config × Response)
  | .updateConfig owner hubContract feeAddr feeRate => do
    let config ← executeUpdateConfig q config info owner hubContract feeAddr feeRate
    return (config, {})
  | .dispatchRewards => do
    let response ← executeDispatchRewards q env config info
    return (config, response)

/-! ### The split -/

/-- The messages that send `fee` to the fee address and `rest` to the hub, each
where there is something to send. -/
def Config.split (config : Config) (fee rest : ℕ) : List CosmosMsg :=
  (if fee = 0 then [] else [.bankSend config.feeAddr ⟨config.rewardDenom, fee⟩]) ++
  (if rest = 0 then []
    else [.wasmExecute config.hubContract (.hub .stakeRewards) [⟨config.rewardDenom, rest⟩]])

/-- The response of a dispatch that sends `fee` and `rest`. -/
def Config.dispatched (config : Config) (fee rest : ℕ) : Response where
  messages := config.split fee rest
  attributes :=
    [("action", .text "claim_rewards"),
      ("reward_amt", .text (coinText ⟨config.rewardDenom, rest⟩))] ++
    (if fee = 0 then [] else [("fee", .text (coinText ⟨config.rewardDenom, fee⟩))])

/-- Called by the hub, the dispatcher computes the fee of its balance and takes it
off. -/
theorem executeDispatchRewards_of_hub {q : Querier} {env : Env} {config : Config}
    {info : MessageInfo} {a : ℕ} (unpaused : q.hubPaused config.hubContract = .ok false)
    (hub : info.sender = config.hubContract)
    (balance : q.balance env.contract config.rewardDenom = a) :
    executeDispatchRewards q env config info = do
      let fee ← computeFee a config.feeRate
      let rest ← checkedSub a fee
      return config.dispatched fee rest := by
  rw [executeDispatchRewards, bind_ok unpaused, bind_ok (require_ok rfl),
    bind_ok (require_ok hub.symm), balance]
  rfl

/-- **The fee is computed where the amount is a decimal**, and is then the exact
product rounded up. -/
theorem computeFee_eq_ok {a fee : ℕ} {rate : Decimal} (hrate : rate.atomics ≤ DECIMAL_FRACTIONAL) :
    computeFee a rate = .ok fee ↔ a * DECIMAL_FRACTIONAL < 2 ^ 128 ∧ fee = ⌈a * rate.value⌉₊ := by
  have hle : a * rate.atomics ≤ a * DECIMAL_FRACTIONAL := Nat.mul_le_mul_left a hrate
  simp only [computeFee, bind_eq_ok, pure_eq_ok, Decimal.fromRatio_eq_ok, Nat.div_one,
    Decimal.mul_eq_ok]
  constructor
  · rintro ⟨whole, ⟨-, hfits, rfl⟩, product, ⟨-, rfl⟩, rfl⟩
    rw [Decimal.toUintCeil_eq, Decimal.mul_whole, Decimal.value_mul]
    exact ⟨hfits, rfl⟩
  · rintro ⟨hfits, rfl⟩
    refine ⟨_, ⟨Nat.one_ne_zero, hfits, rfl⟩, ⟨a * rate.atomics⟩, ⟨?_, ?_⟩, ?_⟩
    · rw [Decimal.mul_whole]
      exact hle.trans_lt hfits
    · rw [Decimal.mul_whole]
    · rw [Decimal.toUintCeil_eq, Decimal.value_mul]

/-- At a rate of at most one the fee is within the amount. -/
theorem fee_le {a : ℕ} {rate : Decimal} (hrate : rate.atomics ≤ DECIMAL_FRACTIONAL) :
    ⌈a * rate.value⌉₊ ≤ a := by
  rw [← Decimal.value_mul, ← Decimal.toUintCeil_eq]
  exact Decimal.toUintCeil_le_iff.2 (Nat.mul_le_mul_left a hrate)

/-! ### Runs -/

/-- A call: who makes it, where, and what the chain answers. -/
structure Call where
  q : Querier
  env : Env
  info : MessageInfo
  msg : ExecuteMsg

/-- An accepted call. -/
def Step (config : Config) (c : Call) (config' : Config) : Prop :=
  ∃ response, execute c.q c.env config c.info c.msg = .ok (config', response)

/-- What `execute_update_config` writes keeps the rate within the bound. -/
theorem executeUpdateConfig_feeRate_le {q : Querier} {config config' : Config} {info : MessageInfo}
    {owner hubContract feeAddr : Option String} {feeRate : Option Decimal}
    (hle : config.feeRate.atomics ≤ MAX_FEE_RATE.atomics)
    (h : executeUpdateConfig q config info owner hubContract feeAddr feeRate = .ok config') :
    config'.feeRate.atomics ≤ MAX_FEE_RATE.atomics := by
  simp only [executeUpdateConfig, isAuthorizedSender, bind_eq_ok, require_eq_ok, pure_eq_ok] at h
  obtain ⟨-, -, -, hrate, -, -, -, -, -, -, rfl⟩ := h
  cases feeRate with
  | none => exact hle
  | some rate => exact hrate rate rfl

/-- **The fee rate stays within `MAX_FEE_RATE`.** -/
theorem Run.feeRate_le {q : Querier} {info : MessageInfo} {msg : InstantiateMsg}
    {config₀ config : Config} {tr : List (Call × Config)}
    (created : instantiate q info msg = .ok config₀) (run : Run Step config₀ tr config) :
    config.feeRate.atomics ≤ MAX_FEE_RATE.atomics := by
  refine run.invariant (P := fun config => config.feeRate.atomics ≤ MAX_FEE_RATE.atomics) ?_
    fun config call config' hle hstep => ?_
  · simp only [instantiate, bind_eq_ok, require_eq_ok, pure_eq_ok] at created
    obtain ⟨-, hrate, -, -, -, -, rfl⟩ := created
    exact hrate
  · obtain ⟨response, h⟩ := hstep
    cases hmsg : call.msg with
    | updateConfig owner hubContract feeAddr feeRate =>
      rw [hmsg] at h
      simp only [execute, bind_eq_ok, pure_eq_ok] at h
      obtain ⟨written, hwritten, heq⟩ := h
      obtain ⟨rfl, -⟩ := Prod.mk.inj heq
      exact executeUpdateConfig_feeRate_le hle hwritten
    | dispatchRewards =>
      rw [hmsg] at h
      simp only [execute, bind_eq_ok, pure_eq_ok] at h
      obtain ⟨_, -, heq⟩ := h
      obtain ⟨rfl, -⟩ := Prod.mk.inj heq
      exact hle

/-! ### What a dispatch sends -/

/-- **The whole balance `a` is split**: the exact fee, rounded up, to the fee
address and the rest to the hub, and nothing else. -/
def SplitsAll (config : Config) (a : ℕ) (result : Exec Response) : Prop :=
  ∃ response fee rest, result = .ok response ∧ response.messages = config.split fee rest ∧
    fee = ⌈a * config.feeRate.value⌉₊ ∧ fee ≤ a ∧ fee + rest = a

/-- **A dispatch splits the balance exactly when the balance is a decimal**, that
is, when its atomics fit in 128 bits: whatever the rate, `compute_fee` makes a
`Decimal` of the whole amount. -/
theorem dispatch_splits_all_iff {q₀ q : Querier} {info₀ info : MessageInfo} {msg : InstantiateMsg}
    {config₀ config : Config} {tr : List (Call × Config)} {env : Env} {a : ℕ}
    (created : instantiate q₀ info₀ msg = .ok config₀) (run : Run Step config₀ tr config)
    (unpaused : q.hubPaused config.hubContract = .ok false)
    (hub : info.sender = config.hubContract)
    (balance : q.balance env.contract config.rewardDenom = a) :
    SplitsAll config a (executeDispatchRewards q env config info) ↔
      a * DECIMAL_FRACTIONAL < 2 ^ 128 := by
  have hrate : config.feeRate.atomics ≤ DECIMAL_FRACTIONAL :=
    (Run.feeRate_le created run).trans (by decide)
  rw [executeDispatchRewards_of_hub unpaused hub balance]
  constructor
  · rintro ⟨response, fee, rest, hok, -⟩
    obtain ⟨fee, hfee, -⟩ := bind_eq_ok.1 hok
    exact ((computeFee_eq_ok hrate).1 hfee).1
  · intro hfits
    have hle : ⌈a * config.feeRate.value⌉₊ ≤ a := fee_le hrate
    have hfee : computeFee a config.feeRate = .ok ⌈a * config.feeRate.value⌉₊ :=
      (computeFee_eq_ok hrate).2 ⟨hfits, rfl⟩
    refine ⟨config.dispatched _ _, _, _, ?_, rfl, rfl, hle, Nat.add_sub_of_le hle⟩
    rw [bind_ok hfee, bind_ok (checkedSub_eq_ok.2 ⟨hle, rfl⟩)]
    rfl

/-! ### A dispatcher at 10% -/

/-- The chain as it answers a dispatcher that holds `balance`. -/
def sampleQuerier (balance : ℕ) : Querier where
  balance _ _ := balance
  allDelegations _ := []
  validatorsDelegation _ := .error (.external "no registry")
  totalSupply _ := .error (.external "no token")
  tokenBalance _ _ := .error (.external "no token")
  tokenAllowance _ _ _ := .error (.external "no token")
  hubPaused _ := .ok false
  addrValidate _ := true

/-- The message of the test `test_execute_dispatch_rewards`. -/
def sampleMsg : InstantiateMsg :=
  { hubContract := "hub_contract", rewardDenom := "denom", feeAddr := "fee_addr"
    feeRate := ⟨100000000000000000⟩ }

/-- The configuration it writes. -/
def sampleConfig : Config :=
  { owner := "owner", hubContract := "hub_contract", rewardDenom := "denom", feeAddr := "fee_addr"
    feeRate := ⟨100000000000000000⟩ }

/-- The split of the test: 100 of 1000 to the fee address, 900 to the hub. -/
theorem dispatch_splits_all_sample :
    SplitsAll sampleConfig 1000 (executeDispatchRewards (sampleQuerier 1000) ⟨⟨1, 1⟩, "dispatcher"⟩
        sampleConfig ⟨"hub_contract", []⟩) ↔ 1000 * DECIMAL_FRACTIONAL < 2 ^ 128 := by
  have created : instantiate (sampleQuerier 0) ⟨"owner", []⟩ sampleMsg = .ok sampleConfig := rfl
  exact dispatch_splits_all_iff created .refl rfl rfl rfl

/-- **A balance that is not a decimal is not dispatched**: the least such balance
makes `compute_fee` panic, and the rewards stay where they are. -/
theorem large_balance_panics :
    instantiate (sampleQuerier 0) ⟨"owner", []⟩ sampleMsg = .ok sampleConfig ∧
      340282366920938463464 < 2 ^ 128 ∧
      executeDispatchRewards (sampleQuerier 340282366920938463464) ⟨⟨1, 1⟩, "dispatcher"⟩
        sampleConfig ⟨"hub_contract", []⟩ = .error (.panic .conversion) :=
  ⟨rfl, by decide, by decide +kernel⟩

end Dispatcher
end BabyLst
