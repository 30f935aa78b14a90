/-
# The entry points of the hub

`instantiate` and `execute` of `contracts/lst_staking_hub/src/contract.rs`, with
the handlers that are not in a file of their own, and
`contracts/lst_staking_hub/src/config.rs`.

`Step` is one accepted call.  Whatever the chain and the other contracts answer
(`Call.querier` is arbitrary), a call is one of the cases of `Effect`: what the
later modules prove about every run of the hub they prove by these cases.
-/

import BabyLst.Hub.Stake
import BabyLst.Hub.Unstake
import BabyLst.Hub.Withdraw
import BabyLst.Lib.Run

namespace BabyLst
namespace Hub

open Lib Std

/-- `MAX_EPOCH_LENGTH`: one week, in seconds. -/
def MAX_EPOCH_LENGTH : ℕ := 604800

/-- `MAX_UNSTAKING_PERIOD`: four weeks, in seconds. -/
def MAX_UNSTAKING_PERIOD : ℕ := 2419200

/-- `AVERAGE_BLOCK_TIME`: a generous block time, in seconds. -/
def AVERAGE_BLOCK_TIME : ℕ := 20

/-- `instantiate`. -/
def instantiate (env : Env) (info : MessageInfo) (msg : InstantiateMsg) :
    Exec (Storage × Response) := do
  require (msg.epochLength ≤ MAX_EPOCH_LENGTH) HubError.invalidEpochLength.fault
  let epochSeconds ← strictMul 64 msg.stakingEpochLengthBlocks AVERAGE_BLOCK_TIME
  require (epochSeconds ≤ msg.epochLength) HubError.invalidEpochLength.fault
  require (msg.unstakingPeriod ≤ MAX_UNSTAKING_PERIOD) HubError.invalidUnstakingPeriod.fault
  require (msg.epochLength < msg.unstakingPeriod) HubError.invalidPeriods.fault
  return (
    { config :=
        { owner := info.sender
          lstToken := none
          validatorsRegistryContract := none
          rewardDispatcherContract := none }
      state :=
        { lstExchangeRate := Decimal.one
          totalStakedAmount := 0
          lastIndexModification := env.block.time
          unclaimedUnstakedBalance := 0
          lastUnbondedTime := env.block.time
          lastProcessedBatch := 0 }
      parameters :=
        { epochLength := msg.epochLength
          stakingCoinDenom := msg.stakingCoinDenom
          paused := false
          unstakingPeriod := msg.unstakingPeriod }
      currentBatch := ⟨1, 0⟩
      unstakeWaitList := ∅
      unstakeHistory := ∅
      pendingDelegation :=
        { stakingEpochStartBlockHeight := msg.stakingEpochStartBlockHeight
          pendingStakingAmount := 0
          pendingUnstakingAmount := 0
          stakingEpochLengthBlocks := msg.stakingEpochLengthBlocks } },
    { events := [.lstExchangeRateUpdated Decimal.zero Decimal.one, .totalStakedAmountUpdated 0 0] })

/-! ### The configuration -/

/-- `is_authorized_sender`. -/
def isAuthorizedSender (st : Storage) (sender : Addr) : Exec Unit :=
  require (sender = st.config.owner) (.err .unauthorized)

/-- The owner after `execute_update_config`. -/
def updateOwner (q : Querier) (config : Config) : Option String → Exec Config
  | none => return config
  | some ownerAddr => do
    let owner ← toCheckedAddress q ownerAddr
    return { config with owner := owner }

/-- The token after `execute_update_config`: it is set once. -/
def updateLstToken (q : Querier) (config : Config) : Option String → Exec Config
  | none => return config
  | some token => do
    let newTokenAddr ← toCheckedAddress q token
    match config.lstToken with
    | some existingToken => do
      require (existingToken = newTokenAddr) HubError.lstTokenAlreadySet.fault
      return config
    | none => return { config with lstToken := some newTokenAddr }

/-- The registry after `execute_update_config`. -/
def updateValidatorRegistry (q : Querier) (config : Config) : Option String → Exec Config
  | none => return config
  | some registry => do
    let registry ← toCheckedAddress q registry
    return { config with validatorsRegistryContract := some registry }

/-- The dispatcher after `execute_update_config`, and the message that makes it
the receiver of the rewards. -/
def updateRewardDispatcher (q : Querier) (config : Config) :
    Option String → Exec (Config × List CosmosMsg)
  | none => return (config, [])
  | some dispatcher => do
    let checkedDispatcher ← toCheckedAddress q dispatcher
    return ({ config with rewardDispatcherContract := some checkedDispatcher },
      [.setWithdrawAddress checkedDispatcher])

/-- `execute_update_config`. -/
def executeUpdateConfig (q : Querier) (st : Storage) (info : MessageInfo)
    (owner lstToken validatorRegistry rewardDispatcher : Option String) :
    Exec (Storage × Response) := do
  isAuthorizedSender st info.sender
  let config ← updateOwner q st.config owner
  let config ← updateLstToken q config lstToken
  let config ← updateValidatorRegistry q config validatorRegistry
  let (config, messages) ← updateRewardDispatcher q config rewardDispatcher
  return ({ st with config := config },
    { messages := messages
      attributes := [("action", .text "update_config"), ("owner", .text config.owner),
        ("lst_token", .text (config.lstToken.getD "None")),
        ("reward_dispatcher", .text (config.rewardDispatcherContract.getD "None")),
        ("validator_registry", .text (config.validatorsRegistryContract.getD "None"))] })

/-- The checks of `execute_update_params` on a new epoch length and a new
unstaking period. -/
def validatePeriods (params : Parameters) : Option ℕ → Option ℕ → Exec Unit
  | some epochLen, some unstakePeriod => do
    require (epochLen ≤ MAX_EPOCH_LENGTH) HubError.invalidEpochLength.fault
    require (unstakePeriod ≤ MAX_UNSTAKING_PERIOD) HubError.invalidUnstakingPeriod.fault
    require (epochLen < unstakePeriod) HubError.invalidPeriods.fault
  | some epochLen, none => do
    require (epochLen ≤ MAX_EPOCH_LENGTH) HubError.invalidEpochLength.fault
    require (epochLen < params.unstakingPeriod) HubError.invalidPeriods.fault
  | none, some unstakePeriod => do
    require (unstakePeriod ≤ MAX_UNSTAKING_PERIOD) HubError.invalidUnstakingPeriod.fault
    require (params.epochLength < unstakePeriod) HubError.invalidPeriods.fault
  | none, none => return ()

/-- `execute_update_params`. -/
def executeUpdateParams (st : Storage) (info : MessageInfo) (pause : Option Bool)
    (epochLength unstakingPeriod : Option ℕ) : Exec (Storage × Response) := do
  isAuthorizedSender st info.sender
  let params := st.parameters
  validatePeriods params epochLength unstakingPeriod
  let params : Parameters :=
    { params with
      paused := pause.getD params.paused
      epochLength := epochLength.getD params.epochLength
      unstakingPeriod := unstakingPeriod.getD params.unstakingPeriod }
  return ({ st with parameters := params },
    { attributes := [("action", .text "update_params"), ("paused", .flag params.paused),
        ("staking_coin_denom", .text params.stakingCoinDenom),
        ("epoch_length", .number params.epochLength),
        ("unstaking_period", .number params.unstakingPeriod)] })

/-! ### The other handlers -/

/-- `execute_redelegate_proxy`. -/
def executeRedelegateProxy (st : Storage) (env : Env) (info : MessageInfo) (srcValidator : String)
    (redelegations : List (String × Coin)) : Exec (Storage × Response) := do
  let registry ← okOr st.config.validatorsRegistryContract HubError.validatorRegistryNotSet.fault
  require (info.sender = registry) (.err .unauthorized)
  return (st,
    { messages := redelegations.map fun e =>
        .wrappedBeginRedelegate env.contract srcValidator e.1 e.2 })

/-- `receive_cw20`. -/
def receiveCw20 (q : Querier) (st : Storage) (env : Env) (info : MessageInfo)
    (cw20Msg : Cw20ReceiveMsg) : Exec (Storage × Response) := do
  let lstTokenAddr ← okOr st.config.lstToken HubError.lstTokenNotSet.fault
  let hook ← okOr cw20Msg.msg (.err (.std "ParseErr"))
  match hook with
  | .unstake => do
    require (info.sender = lstTokenAddr) (.err .unauthorized)
    executeUnstake q st env cw20Msg.amount cw20Msg.sender .burnFlow

/-- `execute_update_global_index`, with `withdraw_all_rewards`. -/
def executeUpdateGlobalIndex (q : Querier) (st : Storage) (env : Env) :
    Exec (Storage × Response) := do
  let rewardAddress ← okOr st.config.rewardDispatcherContract
    HubError.rewardDispatcherNotSet.fault
  let withdrawMsgs : List CosmosMsg := (q.allDelegations env.contract).map fun delegation =>
    .withdrawDelegatorReward delegation.validator
  return ({ st with state := { st.state with lastIndexModification := env.block.time } },
    { messages := withdrawMsgs ++ [.wasmExecute rewardAddress .dispatchRewards []]
      attributes := [("action", .text "update_global_index")] })

/-- The match of `execute`, behind the check of the pause. -/
def dispatch (q : Querier) (st : Storage) (env : Env) (info : MessageInfo) :
    HubMsg → Exec (Storage × Response)
  | .receive msg => receiveCw20 q st env info msg
  | .stake => executeStake q st env info .lstMint
  | .stakeRewards => executeStake q st env info .stakeRewards
  | .unstake amount => executeUnstake q st env amount info.sender .burnFromFlow
  | .withdrawUnstaked => executeWithdrawUnstaked q st env info
  | .withdrawUnstakedForBatches batchIds => executeWithdrawUnstakedForBatches q st env info batchIds
  | .checkSlashing => executeSlashing q st env
  | .updateParams pause epochLength unstakingPeriod =>
    executeUpdateParams st info pause epochLength unstakingPeriod
  | .updateConfig owner lstToken validatorRegistry rewardDispatcher =>
    executeUpdateConfig q st info owner lstToken validatorRegistry rewardDispatcher
  | .redelegateProxy srcValidator redelegations =>
    executeRedelegateProxy st env info srcValidator redelegations
  | .updateGlobalIndex => executeUpdateGlobalIndex q st env
  | .processUndelegations => executeProcessUndelegations q st env
  | .processWithdrawRequests => executeProcessWithdrawRequests q st env

/-- `execute`: the parameters may be changed while the hub is paused. -/
def execute (q : Querier) (st : Storage) (env : Env) (info : MessageInfo) (msg : HubMsg) :
    Exec (Storage × Response) :=
  match msg with
  | .updateParams pause epochLength unstakingPeriod =>
    executeUpdateParams st info pause epochLength unstakingPeriod
  | msg => do
    require (st.parameters.paused = false) HubError.paused.fault
    dispatch q st env info msg

/-! ### Accepted messages -/

/-- **An accepted `instantiate`.** -/
structure Instantiated (env : Env) (info : MessageInfo) (msg : InstantiateMsg) (st : Storage) :
    Prop where
  epoch_le : msg.stakingEpochLengthBlocks * AVERAGE_BLOCK_TIME ≤ msg.epochLength
  periods : msg.epochLength < msg.unstakingPeriod
  config_eq : st.config = ⟨info.sender, none, none, none⟩
  parameters_eq : st.parameters =
    ⟨msg.epochLength, msg.stakingCoinDenom, msg.unstakingPeriod, false⟩
  batch_eq : st.currentBatch = ⟨1, 0⟩
  state_eq : st.state = ⟨Decimal.one, 0, env.block.time, 0, env.block.time, 0⟩
  waitList_eq : st.unstakeWaitList = ∅
  history_eq : st.unstakeHistory = ∅
  pending_eq : st.pendingDelegation =
    ⟨msg.stakingEpochLengthBlocks, msg.stakingEpochStartBlockHeight, 0, 0⟩

theorem instantiate_ok {env : Env} {info : MessageInfo} {msg : InstantiateMsg} {st : Storage}
    {res : Response} (h : instantiate env info msg = .ok (st, res)) :
    Instantiated env info msg st := by
  simp only [instantiate, bind_eq_ok, require_eq_ok, strictMul_eq_ok, pure_eq_ok,
    Prod.mk.injEq] at h
  obtain ⟨_, -, _, ⟨-, rfl⟩, _, hepoch, _, -, _, hper, rfl, -⟩ := h
  exact ⟨hepoch, hper, rfl, rfl, rfl, rfl, rfl, rfl, rfl⟩

/-- An accepted `execute_update_params`. -/
theorem executeUpdateParams_ok {st st' : Storage} {info : MessageInfo} {pause : Option Bool}
    {epochLength unstakingPeriod : Option ℕ} {res : Response}
    (h : executeUpdateParams st info pause epochLength unstakingPeriod = .ok (st', res)) :
    info.sender = st.config.owner ∧ res.messages = [] ∧
      st' = { st with parameters := { st.parameters with
        paused := pause.getD st.parameters.paused
        epochLength := epochLength.getD st.parameters.epochLength
        unstakingPeriod := unstakingPeriod.getD st.parameters.unstakingPeriod } } := by
  simp only [executeUpdateParams, isAuthorizedSender, bind_eq_ok, require_eq_ok, pure_eq_ok,
    Prod.mk.injEq] at h
  obtain ⟨_, hauth, _, -, rfl, rfl⟩ := h
  exact ⟨hauth, rfl, rfl⟩

theorem updateLstToken_ok {q : Querier} {config config' : Config} {token : Option String}
    (h : updateLstToken q config token = .ok config') :
    config'.owner = config.owner ∧
      ∀ a, config.lstToken = some a → config'.lstToken = some a := by
  cases token with
  | none =>
    rw [updateLstToken, pure_eq_ok] at h
    subst h
    exact ⟨rfl, fun _ ha => ha⟩
  | some token =>
    simp only [updateLstToken, bind_eq_ok] at h
    obtain ⟨_, -, h⟩ := h
    cases htok : config.lstToken with
    | none =>
      simp only [htok, pure_eq_ok] at h
      subst h
      exact ⟨rfl, by simp⟩
    | some existing =>
      simp only [htok, bind_eq_ok, pure_eq_ok] at h
      obtain ⟨_, -, rfl⟩ := h
      exact ⟨rfl, fun a ha => htok.trans ha⟩

/-- The first token is taken as it is given. -/
theorem updateLstToken_first {q : Querier} {config config' : Config} {token : String}
    (hnone : config.lstToken = none) (h : updateLstToken q config (some token) = .ok config') :
    config'.lstToken = some token := by
  simp only [updateLstToken, toCheckedAddress, hnone, bind_eq_ok, pure_eq_ok] at h
  obtain ⟨a, ha, rfl⟩ := h
  split_ifs at ha
  cases ha
  rfl

theorem updateOwner_ok {q : Querier} {config config' : Config} {owner : Option String}
    (h : updateOwner q config owner = .ok config') : config'.lstToken = config.lstToken := by
  cases owner <;> simp only [updateOwner, bind_eq_ok, pure_eq_ok] at h
  · rw [h]
  · obtain ⟨_, -, rfl⟩ := h
    rfl

theorem updateValidatorRegistry_ok {q : Querier} {config config' : Config}
    {registry : Option String} (h : updateValidatorRegistry q config registry = .ok config') :
    config'.lstToken = config.lstToken := by
  cases registry <;> simp only [updateValidatorRegistry, bind_eq_ok, pure_eq_ok] at h
  · rw [h]
  · obtain ⟨_, -, rfl⟩ := h
    rfl

theorem updateRewardDispatcher_ok {q : Querier} {config config' : Config}
    {dispatcher : Option String} {messages : List CosmosMsg}
    (h : updateRewardDispatcher q config dispatcher = .ok (config', messages)) :
    config'.lstToken = config.lstToken ∧ ∀ m ∈ messages, ∃ a, m = .setWithdrawAddress a := by
  cases dispatcher <;>
    simp only [updateRewardDispatcher, bind_eq_ok, pure_eq_ok, Prod.mk.injEq] at h
  · obtain ⟨rfl, rfl⟩ := h
    simp
  · obtain ⟨a, -, rfl, rfl⟩ := h
    simp

/-- An accepted `execute_update_config` changes the configuration only, and the
token not once it is set. -/
theorem executeUpdateConfig_ok {q : Querier} {st st' : Storage} {info : MessageInfo}
    {owner lstToken validatorRegistry rewardDispatcher : Option String} {res : Response}
    (h : executeUpdateConfig q st info owner lstToken validatorRegistry rewardDispatcher =
      .ok (st', res)) :
    info.sender = st.config.owner ∧ st' = { st with config := st'.config } ∧
      (∀ a, st.config.lstToken = some a → st'.config.lstToken = some a) ∧
      (∀ a, st.config.lstToken = none → lstToken = some a → st'.config.lstToken = some a) ∧
      (∀ m ∈ res.messages, ∃ a, m = .setWithdrawAddress a) := by
  simp only [executeUpdateConfig, isAuthorizedSender, bind_eq_ok, require_eq_ok, pure_eq_ok,
    Prod.exists, Prod.mk.injEq] at h
  obtain ⟨_, hauth, c₁, h₁, c₂, h₂, c₃, h₃, c₄, ms, h₄, rfl, rfl⟩ := h
  have t₁ := updateOwner_ok h₁
  have t₃ := updateValidatorRegistry_ok h₃
  obtain ⟨t₄, hms⟩ := updateRewardDispatcher_ok h₄
  refine ⟨hauth, rfl, fun a ha => ?_, ?_, hms⟩
  · rw [t₄, t₃]
    exact (updateLstToken_ok h₂).2 a (t₁.trans ha)
  · rintro a ha rfl
    rw [t₄, t₃]
    exact updateLstToken_first (t₁.trans ha) h₂

/-! ### One accepted call -/

/-- The message of a stake. -/
def stakeMsg : StakeType → HubMsg
  | .lstMint => .stake
  | .stakeRewards => .stakeRewards

/-- The message of a withdrawal. -/
def withdrawMsg : Option (List ℕ) → HubMsg
  | none => .withdrawUnstaked
  | some batchIds => .withdrawUnstakedForBatches batchIds

/-- **The cases of an accepted call**, by what they do to the storage. -/
inductive Effect (q : Querier) (st : Storage) (env : Env) (info : MessageInfo) :
    HubMsg → Storage → Response → Prop
  | stake {t : StakeType} {st' : Storage} {res : Response} (h : Staked q st env info t st' res) :
    Effect q st env info (stakeMsg t) st' res
  | unstake {msg : HubMsg} {sender : Addr} {amount : ℕ} {flow : UnstakeType} {batch : CurrentBatch}
      {messages : List CosmosMsg} {token : Addr} {st' : Storage} {res : Response}
      (msg_eq : (msg = .unstake amount ∧ sender = info.sender ∧ flow = .burnFromFlow) ∨
        (msg = .receive ⟨sender, amount, some .unstake⟩ ∧ info.sender = token ∧ flow = .burnFlow))
      (token_eq : st.config.lstToken = some token)
      (h : Completion q (st.noted sender amount) env (st.currentBatch.plus amount) st' batch
        messages)
      (messages_eq : res.messages = messages ++
        [.wasmExecute token (.token (burnMsg sender amount flow)) []])
      (covered : flow = .burnFromFlow → ∃ balance, q.tokenBalance token sender = .ok balance ∧
        amount ≤ balance) :
    Effect q st env info msg st' res
  | withdraw {batchIds : Option (List ℕ)} {st' : Storage} {res : Response}
      (h : Withdrawn q st env info batchIds st' res) :
    Effect q st env info (withdrawMsg batchIds) st' res
  | release {free left : ℕ} {released : List (ℕ × UnstakeHistory)} {res : Response}
      (free_eq : actualFreeBalance q st env = .ok free)
      (unclaimed_le : st.state.unclaimedUnstakedBalance ≤ free)
      (h : Release st.unstakeHistory (env.block.time - st.parameters.unstakingPeriod)
        st.state.lastProcessedBatch (free - st.state.unclaimedUnstakedBalance) released left)
      (left_le : left ≤ free) (messages_eq : res.messages = []) :
    Effect q st env info .processWithdrawRequests
      { st.afterRelease released with
        state := { (st.afterRelease released).state with
          unclaimedUnstakedBalance := free - left } } res
  | checkSlashing {state : State} {res : Response} (h : ActualState q st env st.state state)
      (messages_eq : res.messages = []) :
    Effect q st env info .checkSlashing { st with state := state } res
  | nothingRequested (h : st.currentBatch.requestedLstTokenAmount = 0) :
    Effect q st env info .processUndelegations st {}
  | processUndelegations {batch : CurrentBatch} {st' : Storage} {res : Response}
      (ne : st.currentBatch.requestedLstTokenAmount ≠ 0)
      (h : Completion q st env st.currentBatch st' batch res.messages) :
    Effect q st env info .processUndelegations st' res
  | updateParams {pause : Option Bool} {epochLength unstakingPeriod : Option ℕ} {res : Response}
      (auth : info.sender = st.config.owner) (messages_eq : res.messages = []) :
    Effect q st env info (.updateParams pause epochLength unstakingPeriod)
      { st with parameters := { st.parameters with
        paused := pause.getD st.parameters.paused
        epochLength := epochLength.getD st.parameters.epochLength
        unstakingPeriod := unstakingPeriod.getD st.parameters.unstakingPeriod } } res
  | updateConfig {owner lstToken validatorRegistry rewardDispatcher : Option String}
      {config : Config} {res : Response} (auth : info.sender = st.config.owner)
      (token : ∀ a, st.config.lstToken = some a → config.lstToken = some a)
      (messages_eq : ∀ m ∈ res.messages, ∃ a, m = .setWithdrawAddress a) :
    Effect q st env info (.updateConfig owner lstToken validatorRegistry rewardDispatcher)
      { st with config := config } res
  | redelegate {srcValidator : String} {redelegations : List (String × Coin)} {res : Response}
      (auth : some info.sender = st.config.validatorsRegistryContract)
      (messages_eq : res.messages = redelegations.map fun e =>
        .wrappedBeginRedelegate env.contract srcValidator e.1 e.2) :
    Effect q st env info (.redelegateProxy srcValidator redelegations) st res
  | updateGlobalIndex {dispatcher : Addr} {res : Response}
      (dispatcher_eq : st.config.rewardDispatcherContract = some dispatcher)
      (messages_eq : res.messages = (q.allDelegations env.contract).map
        (fun delegation => .withdrawDelegatorReward delegation.validator) ++
        [.wasmExecute dispatcher .dispatchRewards []]) :
    Effect q st env info .updateGlobalIndex
      { st with state := { st.state with lastIndexModification := env.block.time } } res

/-- Tokens are handed over by the token alone. -/
theorem Effect.receive_sender {q : Querier} {st st' : Storage} {env : Env} {info : MessageInfo}
    {received : Cw20ReceiveMsg} {res : Response}
    (h : Effect q st env info (.receive received) st' res) :
    st.config.lstToken = some info.sender := by
  generalize hmsg : HubMsg.receive received = msg at h
  cases h with
  | @unstake msg sender amount flow batch messages token st' res msg_eq token_eq =>
    rcases msg_eq with ⟨rfl, -⟩ | ⟨-, rfl, -⟩
    · cases hmsg
    · exact token_eq
  | @stake t => cases t <;> cases hmsg
  | @withdraw batchIds => cases batchIds <;> cases hmsg
  | _ => cases hmsg

/-- A redelegation through the hub leaves the storage as it is. -/
theorem Effect.redelegateProxy {q : Querier} {st st' : Storage} {env : Env} {info : MessageInfo}
    {src : String} {redelegations : List (String × Coin)} {res : Response}
    (h : Effect q st env info (.redelegateProxy src redelegations) st' res) :
    st' = st ∧ res.messages = redelegations.map fun e =>
      .wrappedBeginRedelegate env.contract src e.1 e.2 := by
  generalize hmsg : HubMsg.redelegateProxy src redelegations = msg at h
  cases h with
  | redelegate auth messages_eq =>
    cases hmsg
    exact ⟨rfl, messages_eq⟩
  | unstake msg_eq =>
    rcases msg_eq with ⟨rfl, -⟩ | ⟨rfl, -⟩ <;> cases hmsg
  | @stake t => cases t <;> cases hmsg
  | @withdraw batchIds => cases batchIds <;> cases hmsg
  | _ => cases hmsg

/-- A check for slashing changes the state only, and sends nothing. -/
theorem Effect.checked {q : Querier} {st st' : Storage} {env : Env} {info : MessageInfo}
    {res : Response} (h : Effect q st env info .checkSlashing st' res) :
    ∃ state, ActualState q st env st.state state ∧ st' = { st with state := state } ∧
      res.messages = [] := by
  generalize hmsg : HubMsg.checkSlashing = msg at h
  cases h with
  | checkSlashing actual messages_eq => exact ⟨_, actual, rfl, messages_eq⟩
  | unstake msg_eq =>
    rcases msg_eq with ⟨rfl, -⟩ | ⟨rfl, -⟩ <;> cases hmsg
  | @stake t => cases t <;> cases hmsg
  | @withdraw batchIds => cases batchIds <;> cases hmsg
  | _ => cases hmsg

theorem receiveCw20_ok {q : Querier} {st st' : Storage} {env : Env} {info : MessageInfo}
    {msg : Cw20ReceiveMsg} {res : Response} (h : receiveCw20 q st env info msg = .ok (st', res)) :
    Effect q st env info (.receive msg) st' res := by
  obtain ⟨sender, amount, hook⟩ := msg
  simp only [receiveCw20, bind_eq_ok, okOr_eq_ok] at h
  obtain ⟨token, htoken, hook', rfl, h⟩ := h
  cases hook' with
  | unstake =>
    simp only [require_eq_ok] at h
    obtain ⟨_, hauth, h⟩ := h
    obtain ⟨batch, messages, token', hcomp, htoken', hmsgs, hcov⟩ := executeUnstake_ok h
    obtain rfl := Option.some.inj (htoken.symm.trans htoken')
    exact .unstake (.inr ⟨rfl, hauth, rfl⟩) htoken hcomp hmsgs hcov

theorem dispatch_ok {q : Querier} {st st' : Storage} {env : Env} {info : MessageInfo}
    {msg : HubMsg} {res : Response} (h : dispatch q st env info msg = .ok (st', res)) :
    Effect q st env info msg st' res := by
  cases msg with
  | receive msg => exact receiveCw20_ok h
  | stake =>
    show Effect q st env info (stakeMsg .lstMint) st' res
    exact .stake (executeStake_ok h)
  | stakeRewards =>
    show Effect q st env info (stakeMsg .stakeRewards) st' res
    exact .stake (executeStake_ok h)
  | unstake amount =>
    obtain ⟨batch, messages, token, hcomp, htoken, hmsgs, hcov⟩ := executeUnstake_ok h
    exact .unstake (.inl ⟨rfl, rfl, rfl⟩) htoken hcomp hmsgs hcov
  | withdrawUnstaked =>
    show Effect q st env info (withdrawMsg none) st' res
    exact .withdraw (executeWithdrawUnstakedImpl_ok h)
  | withdrawUnstakedForBatches ids =>
    show Effect q st env info (withdrawMsg (some ids)) st' res
    exact .withdraw (executeWithdrawUnstakedImpl_ok h)
  | checkSlashing =>
    obtain ⟨hact, hst, hms⟩ := executeSlashing_ok h
    rw [hst]
    exact .checkSlashing hact hms
  | updateParams pause epochLength unstakingPeriod =>
    obtain ⟨hauth, hms, rfl⟩ := executeUpdateParams_ok h
    exact .updateParams hauth hms
  | updateConfig owner lstToken validatorRegistry rewardDispatcher =>
    obtain ⟨hauth, hst, htok, -, hms⟩ := executeUpdateConfig_ok h
    rw [hst]
    exact .updateConfig hauth htok hms
  | redelegateProxy srcValidator redelegations =>
    simp only [dispatch, executeRedelegateProxy, bind_eq_ok, okOr_eq_ok, require_eq_ok, pure_eq_ok,
      Prod.mk.injEq] at h
    obtain ⟨registry, hreg, _, rfl, rfl, rfl⟩ := h
    exact .redelegate hreg.symm rfl
  | updateGlobalIndex =>
    simp only [dispatch, executeUpdateGlobalIndex, bind_eq_ok, okOr_eq_ok, pure_eq_ok,
      Prod.mk.injEq] at h
    obtain ⟨dispatcher, hdisp, rfl, rfl⟩ := h
    exact .updateGlobalIndex hdisp rfl
  | processUndelegations =>
    rcases executeProcessUndelegations_ok h with ⟨hz, rfl, rfl⟩ | ⟨hne, batch, hcomp⟩
    · exact .nothingRequested hz
    · exact .processUndelegations hne hcomp
  | processWithdrawRequests =>
    obtain ⟨free, released, left, hfree, -, hun, hrel, hleft, rfl, hms⟩ :=
      executeProcessWithdrawRequests_ok h
    exact .release hfree hun hrel hleft hms

/-- **Every accepted call is one of the cases.** -/
theorem execute_ok {q : Querier} {st st' : Storage} {env : Env} {info : MessageInfo}
    {msg : HubMsg} {res : Response} (h : execute q st env info msg = .ok (st', res)) :
    Effect q st env info msg st' res := by
  cases msg with
  | updateParams pause epochLength unstakingPeriod =>
    have h' : dispatch q st env info (.updateParams pause epochLength unstakingPeriod) =
      .ok (st', res) := h
    exact dispatch_ok h'
  | _ =>
    simp only [execute, bind_eq_ok] at h
    obtain ⟨_, -, h⟩ := h
    exact dispatch_ok h

end Hub
end BabyLst
