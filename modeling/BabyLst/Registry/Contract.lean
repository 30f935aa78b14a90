/-
# The validators registry

`contracts/lst_validators_registry/src/contract.rs`, with
`convert_addr_by_prefix` of `packages/lst_common/src/address.rs`.

The registry keeps the validators the hub delegates to, by operator address, and
the list of those it was told to leave.  It answers the hub with the delegation
of each of its validators, and plans to redelegate what is with the excluded
ones, from the delegations the chain reports at that moment: it keeps no record
of what it planned before.

The `bech32` crate is not in the repository: its two functions are parameters.
-/

import BabyLst.Common.Delegation
import BabyLst.Lib.MapSum
import Mathlib.Data.List.Sort

namespace BabyLst

/-- The functions of the `bech32` crate: the prefix and the payload of an
address, and the address of a prefix and a payload. -/
structure Bech32 where
  decode : String → Option (String × List ℕ)
  encode : String → List ℕ → Option String

/-- `VALIDATOR_ADDR_PREFIX`. -/
def VALIDATOR_ADDR_PREFIX : String := "bbnvaloper"

open Lib

/-- `convert_addr_by_prefix`: it panics on an invalid address. -/
def convertAddrByPrefix (b : Bech32) (address hrp : String) : Exec String := do
  let (_, data) ← okOr (b.decode address) (.panic .unwrap)
  okOr (b.encode hrp data) (.panic .unwrap)

namespace Registry

open Std

/-- `Config`. -/
structure Config where
  owner : Addr
  hubContract : Addr
  deriving DecidableEq, Repr

/-- The registry's storage: `VALIDATOR_REGISTRY` holds, by operator address, the
address the validator was added under. -/
structure Storage where
  config : Config
  validatorRegistry : ExtTreeMap String String
  validatorExcludeList : ExtTreeMap String Bool

/-- What the registry asks: the chain's delegations, the operator address of a
validator the chain knows, and the address functions. -/
structure Deps where
  allDelegations : Addr → List Delegation
  validator : String → Option String
  bech32 : Bech32
  addrValidate : String → Bool

/-- The delegations by validator; of two entries for one validator the last
stands. -/
def delegationMap (delegations : List Delegation) : ExtTreeMap String Coin :=
  delegations.foldl (fun m d => m.insert d.validator d.amount) ∅

/-- The registered validators with their delegations, in the order of the
operator addresses. -/
def registered (delegations : ExtTreeMap String Coin) (registry : ExtTreeMap String String) :
    List ValidatorResponse :=
  registry.toList.map fun entry =>
    { address := entry.2
      totalDelegated := ((delegations[entry.2]?).map (·.amount)).getD 0 }

/-- The stable `sort_by` of the delegations. -/
def sortByDelegated (l : List ValidatorResponse) : List ValidatorResponse :=
  l.insertionSort fun v1 v2 => v1.totalDelegated ≤ v2.totalDelegated

/-- `query_validators`. -/
def queryValidators (deps : Deps) (st : Storage) : List ValidatorResponse :=
  sortByDelegated
    (registered (delegationMap (deps.allDelegations st.config.hubContract)) st.validatorRegistry)

/-- The owner's check. -/
def isOwner (st : Storage) (sender : Addr) : Exec Unit :=
  require (sender = st.config.owner) (.err .unauthorized)

/-- One validator of `instantiate`: one the chain does not know is passed over. -/
def registerInitial (deps : Deps) (registry : ExtTreeMap String String) (address : String) :
    Exec (ExtTreeMap String String) := do
  let validatorAddr ← convertAddrByPrefix deps.bech32 address VALIDATOR_ADDR_PREFIX
  match deps.validator validatorAddr with
  | some infoAddress => return registry.insert infoAddress infoAddress
  | none => return registry

/-- `instantiate`. -/
def instantiate (deps : Deps) (info : MessageInfo) (hubContract : String)
    (validators : List String) : Exec Storage := do
  require (deps.addrValidate hubContract) (.err .invalidAddress)
  let registry ← validators.foldlM (registerInitial deps) ∅
  return { config := ⟨info.sender, hubContract⟩
           validatorRegistry := registry
           validatorExcludeList := ∅ }

/-- `add_validator`. -/
def addValidator (deps : Deps) (st : Storage) (info : MessageInfo) (validator : String) :
    Exec Storage := do
  isOwner st info.sender
  let validatorAddr ← convertAddrByPrefix deps.bech32 validator VALIDATOR_ADDR_PREFIX
  match deps.validator validatorAddr with
  | some infoAddress =>
    return { st with
      validatorRegistry := st.validatorRegistry.insert infoAddress validator
      validatorExcludeList := st.validatorExcludeList.erase infoAddress }
  | none => return st

/-- `remove_validator`. -/
def removeValidator (deps : Deps) (st : Storage) (info : MessageInfo) (validatorAddr : String) :
    Exec Storage := do
  isOwner st info.sender
  let operatorAddr ← convertAddrByPrefix deps.bech32 validatorAddr VALIDATOR_ADDR_PREFIX
  return { st with
    validatorRegistry := st.validatorRegistry.erase operatorAddr
    validatorExcludeList := st.validatorExcludeList.insert operatorAddr true }

/-- The redelegations of an excluded validator: nothing without a delegation,
and the plan of `calculate_delegations`, unwrapped, for what there is. -/
def redelegationsOf (hubContract : Addr) (delegations : ExtTreeMap String Coin)
    (active : List ValidatorResponse) (validatorAddr : String) : Exec (List CosmosMsg) :=
  match delegations[validatorAddr]? with
  | none => return []
  | some delegation =>
    if delegation.amount = 0 then return []
    else do
      let plan ← unwrap (calculateDelegations delegation.amount active)
      let redelegations := ((active.zip plan).filter fun e => e.2 ≠ 0).map fun e =>
        (e.1.address, Coin.mk delegation.denom e.2)
      return [.wasmExecute hubContract (.hub (.redelegateProxy validatorAddr redelegations)) []]

/-- The loop of `process_redelegations` over the excluded validators. -/
def redelegateLoop (hubContract : Addr) (delegations : ExtTreeMap String Coin)
    (active : List ValidatorResponse) : List String → Exec (List CosmosMsg)
  | [] => return []
  | validatorAddr :: rest => do
    let messages ← redelegationsOf hubContract delegations active validatorAddr
    let others ← redelegateLoop hubContract delegations active rest
    return messages ++ others

/-- `process_redelegations`. -/
def processRedelegations (deps : Deps) (st : Storage) : Exec (List CosmosMsg) :=
  let delegations := delegationMap (deps.allDelegations st.config.hubContract)
  if st.validatorExcludeList.isEmpty then return []
  else redelegateLoop st.config.hubContract delegations
    (sortByDelegated (registered delegations st.validatorRegistry)) st.validatorExcludeList.keys

/-- `update_config`. -/
def updateConfig (deps : Deps) (st : Storage) (info : MessageInfo)
    (owner hubContract : Option String) : Exec Storage := do
  isOwner st info.sender
  require (∀ o ∈ owner, deps.addrValidate o) (.err .invalidAddress)
  require (∀ h ∈ hubContract, deps.addrValidate h) (.err .invalidAddress)
  return { st with
    config := ⟨owner.getD st.config.owner, hubContract.getD st.config.hubContract⟩ }

/-- `execute`. -/
def execute (deps : Deps) (st : Storage) (info : MessageInfo) :
    RegistryMsg → Exec (Storage × List CosmosMsg)
  | .addValidator validator => do
    let st ← addValidator deps st info validator
    return (st, [])
  | .removeValidator address => do
    let st ← removeValidator deps st info address
    return (st, [])
  | .updateConfig owner hubContract => do
    let st ← updateConfig deps st info owner hubContract
    return (st, [])
  | .processRedelegations => do
    let messages ← processRedelegations deps st
    return (st, messages)

/-! ### What the registry answers and sends -/

/-- The validators answered are the registered ones, in another order. -/
theorem queryValidators_perm (deps : Deps) (st : Storage) :
    (queryValidators deps st).Perm (registered
      (delegationMap (deps.allDelegations st.config.hubContract)) st.validatorRegistry) :=
  List.perm_insertionSort _ _

/-- What a validator has delegated. -/
def delegatedTo (delegations : ExtTreeMap String Coin) (validatorAddr : String) : ℕ :=
  ((delegations[validatorAddr]?).map (·.amount)).getD 0

/-- **The messages of one excluded validator**: where it has a delegation, all of
it is redelegated through the hub. -/
theorem redelegationsOf_ok {hubContract : Addr} {delegations : ExtTreeMap String Coin}
    {active : List ValidatorResponse} {validatorAddr : String} {messages : List CosmosMsg}
    (h : redelegationsOf hubContract delegations active validatorAddr = .ok messages) :
    delegatedTo delegations validatorAddr = 0 ∧ messages = [] ∨
    0 < delegatedTo delegations validatorAddr ∧ ∃ redelegations, messages =
        [.wasmExecute hubContract (.hub (.redelegateProxy validatorAddr redelegations)) []] ∧
      (∀ e ∈ redelegations, 0 < e.2.amount) ∧
      (redelegations.map (·.2.amount)).sum = delegatedTo delegations validatorAddr := by
  unfold redelegationsOf at h
  unfold delegatedTo
  cases hv : delegations[validatorAddr]? with
  | none =>
    simp only [hv, pure_eq_ok] at h
    exact .inl ⟨rfl, h.symm⟩
  | some delegation =>
    simp only [hv] at h
    split_ifs at h with hz
    · rw [pure_eq_ok] at h
      exact .inl ⟨hz, h.symm⟩
    · simp only [bind_eq_ok, unwrap_eq_ok, pure_eq_ok] at h
      obtain ⟨plan, hplan, rfl⟩ := h
      obtain ⟨hsum, hlen⟩ := calculateDelegations_sum hplan
      refine .inr ⟨Nat.pos_of_ne_zero hz, _, rfl, fun e he => ?_, ?_⟩
      · obtain ⟨x, hx, rfl⟩ := List.mem_map.1 he
        exact Nat.pos_of_ne_zero (of_decide_eq_true (List.mem_filter.1 hx).2)
      · rw [List.map_map, Option.map_some, Option.getD_some, ← hsum,
          ← sum_zip_filter active plan hlen]
        rfl

/-- The messages of `process_redelegations` are redelegations through the hub,
of more than nothing, from validators with a delegation. -/
theorem redelegateLoop_messages {hubContract : Addr} {delegations : ExtTreeMap String Coin}
    {active : List ValidatorResponse} {excluded : List String} :
    ∀ {messages : List CosmosMsg},
      redelegateLoop hubContract delegations active excluded = .ok messages →
      ∀ m ∈ messages, ∃ v rs, m = .wasmExecute hubContract (.hub (.redelegateProxy v rs)) [] ∧
        (∀ e ∈ rs, 0 < e.2.amount) ∧ 0 < delegatedTo delegations v := by
  induction excluded with
  | nil =>
    intro messages h
    rw [redelegateLoop, pure_eq_ok] at h
    simp [← h]
  | cons v rest ih =>
    intro messages h
    simp only [redelegateLoop, bind_eq_ok, pure_eq_ok] at h
    obtain ⟨first, hfirst, others, hothers, rfl⟩ := h
    intro m hm
    rcases List.mem_append.1 hm with hm | hm
    · rcases redelegationsOf_ok hfirst with ⟨-, rfl⟩ | ⟨hheld, rs, rfl, hpos, -⟩
      · cases hm
      · exact ⟨v, rs, List.mem_singleton.1 hm, hpos, hheld⟩
    · exact ih hothers m hm

theorem processRedelegations_messages {deps : Deps} {st : Storage} {messages : List CosmosMsg}
    (h : processRedelegations deps st = .ok messages) :
    ∀ m ∈ messages, ∃ v rs, m = .wasmExecute st.config.hubContract
      (.hub (.redelegateProxy v rs)) [] ∧ (∀ e ∈ rs, 0 < e.2.amount) ∧
        0 < delegatedTo (delegationMap (deps.allDelegations st.config.hubContract)) v := by
  unfold processRedelegations at h
  split_ifs at h
  · rw [pure_eq_ok] at h
    simp [← h]
  · exact redelegateLoop_messages h

end Registry
end BabyLst
