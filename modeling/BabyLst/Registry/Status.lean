/-
# One status per validator

The registry keeps two lists, of the validators to delegate to and of those to
leave, with the addresses converted in some places and taken from the chain's
answer in others.  Over a run of calls both are determined by what each
validator was last told (`Run.follows`): an `AddValidator` tells the operator
address that the chain answers with, a `RemoveValidator` the one its address
converts to (`Call.tells`).

* The two lists are views of one status (`validators_have_one_status`).
* The registry answers the hub with true delegations exactly when every
  validator last added was added under its operator address
  (`registry_reports_true`): `add_validator` stores the address as given, where
  `instantiate` stores the chain's.
* `process_redelegations` panics exactly when no validator is left for the
  delegation of an excluded one (`redelegations_do_not_panic`).
-/

import BabyLst.Common.Balance
import BabyLst.Lib.LastWrite
import BabyLst.Lib.Run
import BabyLst.Registry.Contract

namespace BabyLst

open Lib

/-- **`convert_addr_by_prefix` keeps the payload**: what is encoded under the
operator prefix decodes to the payload. -/
def Bech32.RoundTrips (b : Bech32) : Prop :=
  ∀ data address, b.encode VALIDATOR_ADDR_PREFIX data = some address →
    b.decode address = some (VALIDATOR_ADDR_PREFIX, data)

/-- The address is an operator address. -/
def Bech32.IsOperator (b : Bech32) (address : String) : Prop :=
  ∃ data, b.encode VALIDATOR_ADDR_PREFIX data = some address

theorem convertAddrByPrefix_isOperator {b : Bech32} {address v : String}
    (h : convertAddrByPrefix b address VALIDATOR_ADDR_PREFIX = .ok v) : b.IsOperator v := by
  simp only [convertAddrByPrefix, bind_eq_ok, okOr_eq_ok, Prod.exists] at h
  obtain ⟨-, data, -, hencode⟩ := h
  exact ⟨data, hencode⟩

/-- An operator address converts to itself. -/
theorem Bech32.IsOperator.convert {b : Bech32} (law : b.RoundTrips) {v : String}
    (h : b.IsOperator v) : convertAddrByPrefix b v VALIDATOR_ADDR_PREFIX = .ok v := by
  obtain ⟨data, hencode⟩ := h
  simp only [convertAddrByPrefix, bind_eq_ok, okOr_eq_ok]
  exact ⟨_, law data v hencode, hencode⟩

/-! ### Sample addresses -/

/-- The addresses of two validators, with their prefixes and payloads. -/
def sampleAddresses : List (String × String × List ℕ) :=
  [("bbnvaloper109x4ruspxarwt62puwcenhclw36l9v7j92f0ex", "bbnvaloper",
      [121, 77, 81, 242, 1, 55, 70, 229, 233, 65, 227, 177, 153, 223, 31, 116, 117, 242, 179, 210]),
   ("bbnvaloper1qyqszqgpqyqszqgpqyqszqgpqyqszqgpc06j7y", "bbnvaloper", List.replicate 20 1)]

/-- A validator. -/
def sampleValidator : String := "bbnvaloper109x4ruspxarwt62puwcenhclw36l9v7j92f0ex"

/-- Another validator. -/
def otherValidator : String := "bbnvaloper1qyqszqgpqyqszqgpqyqszqgpqyqszqgpc06j7y"

/-- The address functions on these addresses. -/
def sampleBech32 : Bech32 :=
  { decode := fun s => (sampleAddresses.find? fun e => e.1 = s).map Prod.snd
    encode := fun hrp data => (sampleAddresses.find? fun e => e.2 = (hrp, data)).map Prod.fst }

/-- The first validator in account form. -/
def sampleAccount : String := "bbn109x4ruspxarwt62puwcenhclw36l9v7jcgrj48"

/-- The address functions on these addresses, the account form too. -/
def accountBech32 : Bech32 :=
  { sampleBech32 with
    decode := fun s =>
      if s = sampleAccount then (sampleBech32.decode sampleValidator).map fun e => ("bbn", e.2)
      else sampleBech32.decode s }

/-- The address functions on a table of addresses, with their prefixes and
payloads. -/
def tableBech32 (table : List (String × String × List ℕ)) : Bech32 :=
  { decode := fun s => (table.find? fun e => e.1 = s).map Prod.snd
    encode := fun hrp data => (table.find? fun e => e.2 = (hrp, data)).map Prod.fst }

theorem tableBech32_roundTrips {table : List (String × String × List ℕ)}
    (decodes : ∀ e ∈ table, (tableBech32 table).decode e.1 = some e.2) :
    (tableBech32 table).RoundTrips := by
  intro data address h
  obtain ⟨e, hfind, rfl⟩ := Option.map_eq_some_iff.1 h
  have hpair : e.2 = (VALIDATOR_ADDR_PREFIX, data) := by simpa using List.find?_some hfind
  rw [← hpair]
  exact decodes e (List.mem_of_find?_eq_some hfind)

theorem sampleBech32_roundTrips : sampleBech32.RoundTrips :=
  show (tableBech32 sampleAddresses).RoundTrips from tableBech32_roundTrips (by decide)

theorem accountBech32_roundTrips : accountBech32.RoundTrips := by
  intro data address h
  have hdecode := sampleBech32_roundTrips data address h
  have hne : address ≠ sampleAccount := by
    rintro rfl
    cases hdecode
  exact (if_neg hne).trans hdecode

namespace Registry

open Std

/-- **The chain names validators by operator address**: the validator that it
answers a query with has the address it was asked for. -/
def Deps.NamesByOperator (deps : Deps) : Prop :=
  ∀ address v, deps.validator address = some v → v = address

/-! ### Calls and what they tell -/

/-- A call of the registry, with the answers it gets. -/
structure Call where
  deps : Deps
  info : MessageInfo
  msg : RegistryMsg

/-- The call is accepted. -/
def Step (st : Storage) (c : Call) (st' : Storage) : Prop :=
  ∃ messages, execute c.deps st c.info c.msg = .ok (st', messages)

/-- A chain with two validators, and the given delegations. -/
def sampleDeps (delegations : List Delegation) : Deps :=
  { allDelegations := fun _ => delegations
    validator := fun a => if a = sampleValidator ∨ a = otherValidator then some a else none
    bech32 := accountBech32
    addrValidate := fun _ => true }

theorem sampleDeps_namesByOperator (delegations : List Delegation) :
    (sampleDeps delegations).NamesByOperator := by
  intro address v h
  simp only [sampleDeps] at h
  split_ifs at h
  exact (Option.some.inj h).symm

/-- The delegation of an amount to a validator. -/
def sampleDelegation (validator : String) (amount : ℕ) : Delegation :=
  ⟨"hub", validator, ⟨"ubbn", amount⟩⟩

/-- A call of the owner. -/
def ownerCall (msg : RegistryMsg) : Call := ⟨sampleDeps [], ⟨"owner", []⟩, msg⟩

/-- The registry that the owner creates with the given validators. -/
def sampleStorage (validators : List String) : Storage :=
  ((instantiate (sampleDeps []) ⟨"owner", []⟩ "hub" validators).toOption).getD
    ⟨⟨"", ""⟩, ∅, ∅⟩

/-- The registry after a call of the owner. -/
def Storage.afterCall (st : Storage) (msg : RegistryMsg) : Storage :=
  ((execute (sampleDeps []) st ⟨"owner", []⟩ msg).toOption.map Prod.fst).getD st

/-- What a call tells of a validator. -/
inductive Telling
  | added (address : String)
  | removed
  deriving DecidableEq, Repr

/-- The validator a call is about, and what it tells: an `AddValidator` is about
the one the chain answers with, if any. -/
def Call.tells (c : Call) : Option (String × Telling) :=
  match c.msg with
  | .addValidator validator =>
    (convertAddrByPrefix c.deps.bech32 validator VALIDATOR_ADDR_PREFIX).toOption.bind fun address =>
      (c.deps.validator address).map fun v => (v, .added validator)
  | .removeValidator address =>
    (convertAddrByPrefix c.deps.bech32 address VALIDATOR_ADDR_PREFIX).toOption.map fun v =>
      (v, .removed)
  | .updateConfig _ _ => none
  | .processRedelegations => none

/-- What the calls of a run tell, in order. -/
def tellings (tr : List (Call × Storage)) : List (String × Telling) :=
  tr.filterMap fun e => e.1.tells

/-- What the validator was last told. -/
def lastTold (tr : List (Call × Storage)) (v : String) : Option Telling :=
  lastWrite (tellings tr) v

/-- **What an accepted call does to the two lists.** -/
inductive Effect (st : Storage) (c : Call) : Storage → Prop
  | added {v address : String} (tells : c.tells = some (v, .added address))
      (answer : ∃ operator, convertAddrByPrefix c.deps.bech32 address VALIDATOR_ADDR_PREFIX =
        .ok operator ∧ c.deps.validator operator = some v) :
      Effect st c { st with
        validatorRegistry := st.validatorRegistry.insert v address
        validatorExcludeList := st.validatorExcludeList.erase v }
  | removed {v address : String} (tells : c.tells = some (v, .removed))
      (converts : convertAddrByPrefix c.deps.bech32 address VALIDATOR_ADDR_PREFIX = .ok v) :
      Effect st c { st with
        validatorRegistry := st.validatorRegistry.erase v
        validatorExcludeList := st.validatorExcludeList.insert v true }
  | unchanged {config : Config} (tells : c.tells = none) : Effect st c { st with config }

theorem Step.effect {st st' : Storage} {c : Call} (h : Step st c st') : Effect st c st' := by
  obtain ⟨messages, h⟩ := h
  obtain ⟨deps, info, msg⟩ := c
  cases msg with
  | addValidator validator =>
    simp only [execute, addValidator, bind_eq_ok, pure_eq_ok, Prod.mk.injEq] at h
    obtain ⟨_, ⟨-, -, operator, hconvert, h⟩, rfl, -⟩ := h
    cases hv : deps.validator operator with
    | none =>
      rw [hv, pure_eq_ok] at h
      subst h
      refine .unchanged ?_
      simp [Call.tells, hconvert, hv, Except.toOption]
    | some v =>
      rw [hv, pure_eq_ok] at h
      subst h
      have htells : Call.tells ⟨deps, info, .addValidator validator⟩ =
        some (v, .added validator) := by simp [Call.tells, hconvert, hv, Except.toOption]
      exact .added htells ⟨operator, hconvert, hv⟩
  | removeValidator address =>
    simp only [execute, removeValidator, bind_eq_ok, pure_eq_ok, Prod.mk.injEq] at h
    obtain ⟨_, ⟨-, -, v, hconvert, rfl⟩, rfl, -⟩ := h
    exact .removed (by simp [Call.tells, hconvert, Except.toOption]) hconvert
  | updateConfig owner hubContract =>
    simp only [execute, updateConfig, bind_eq_ok, pure_eq_ok, Prod.mk.injEq] at h
    obtain ⟨_, ⟨-, -, -, -, -, -, rfl⟩, rfl, -⟩ := h
    exact .unchanged rfl
  | processRedelegations =>
    simp only [execute, bind_eq_ok, pure_eq_ok, Prod.mk.injEq] at h
    obtain ⟨-, -, rfl, -⟩ := h
    exact .unchanged rfl

/-! ### The lists follow what was told -/

/-- The registry entry of a validator by what it was last told, from its entry at
the start. -/
def registryEntry (told : Option Telling) (initial : Option String) : Option String :=
  match told with
  | some (.added address) => some address
  | some .removed => none
  | none => initial

/-- The exclude-list entry of a validator by what it was last told. -/
def excludeEntry (told : Option Telling) : Option Bool :=
  match told with
  | some .removed => some true
  | _ => none

/-- The lists are what the log makes of the registry at the start. -/
structure Storage.Follows (st st₀ : Storage) (log : List (String × Telling)) : Prop where
  registry : ∀ v, st.validatorRegistry[v]? =
    registryEntry (lastWrite log v) st₀.validatorRegistry[v]?
  excluded : ∀ v, st.validatorExcludeList[v]? = excludeEntry (lastWrite log v)

theorem tellings_snoc (tr : List (Call × Storage)) (c : Call) (st : Storage) :
    tellings (tr ++ [(c, st)]) = tellings tr ++ c.tells.toList := by
  rw [tellings, List.filterMap_append]
  cases h : c.tells with
  | none => simp [tellings, h]
  | some e => simp [tellings, h]

/-- One more telling. -/
theorem Effect.follows {st st₀ st' : Storage} {c : Call} {log : List (String × Telling)}
    (h : Effect st c st') (hst : st.Follows st₀ log) : st'.Follows st₀ (log ++ c.tells.toList) := by
  cases h with
  | @added v address tells =>
    rw [tells, Option.toList_some]
    constructor
    · intro v'
      rw [getElem?_insert_eq, lastWrite_snoc, hst.registry]
      split_ifs <;> rfl
    · intro v'
      rw [getElem?_erase_eq, lastWrite_snoc, hst.excluded]
      split_ifs <;> rfl
  | @removed v address tells =>
    rw [tells, Option.toList_some]
    constructor
    · intro v'
      rw [getElem?_erase_eq, lastWrite_snoc, hst.registry]
      split_ifs <;> rfl
    · intro v'
      rw [getElem?_insert_eq, lastWrite_snoc, hst.excluded]
      split_ifs <;> rfl
  | unchanged tells =>
    rw [tells, Option.toList_none, List.append_nil]
    exact ⟨hst.registry, hst.excluded⟩

/-- **The lists follow the calls.** -/
theorem follows {deps : Deps} {info : MessageInfo} {hubContract : String}
    {validators : List String} {st₀ st : Storage} {tr : List (Call × Storage)}
    (created : instantiate deps info hubContract validators = .ok st₀) (run : Run Step st₀ tr st) :
    st.Follows st₀ (tellings tr) := by
  refine run.history (P := fun tr st => st.Follows st₀ (tellings tr)) ?_ ?_
  · simp only [instantiate, bind_eq_ok, require_eq_ok, pure_eq_ok] at created
    obtain ⟨-, -, registry, -, rfl⟩ := created
    exact ⟨fun v => rfl, fun v => by simp [tellings, excludeEntry]⟩
  · intro tr st c st' _ hst hstep
    rw [tellings_snoc]
    exact hstep.effect.follows hst

/-- **Registry and exclude list are two views of one status**: the validator
last told to be added is registered and not excluded, the one last told to be
removed is excluded and not registered, and one that was told nothing is not
excluded, and registered if it was at the start.  No validator is ever in both
lists. -/
theorem validators_have_one_status {deps : Deps} {info : MessageInfo} {hubContract : String}
    {validators : List String} {st₀ st : Storage} {tr : List (Call × Storage)}
    (created : instantiate deps info hubContract validators = .ok st₀) (run : Run Step st₀ tr st)
    (v : String) :
    ((∃ address, lastTold tr v = some (.added address)) →
      v ∈ st.validatorRegistry ∧ v ∉ st.validatorExcludeList) ∧
    (lastTold tr v = some .removed →
      v ∉ st.validatorRegistry ∧ v ∈ st.validatorExcludeList) ∧
    (lastTold tr v = none →
      (v ∈ st.validatorRegistry ↔ v ∈ st₀.validatorRegistry) ∧ v ∉ st.validatorExcludeList) ∧
    ¬(v ∈ st.validatorRegistry ∧ v ∈ st.validatorExcludeList) := by
  have hfollows := follows created run
  have hregistry := hfollows.registry v
  have hexcluded := hfollows.excluded v
  simp only [← ExtTreeMap.isSome_getElem?_iff_mem]
  rw [hregistry, hexcluded]
  show ((∃ address, lastWrite (tellings tr) v = some (.added address)) → _) ∧
    (lastWrite (tellings tr) v = some .removed → _) ∧ (lastWrite (tellings tr) v = none → _) ∧ _
  cases lastWrite (tellings tr) v with
  | none => simp [registryEntry, excludeEntry]
  | some told =>
    cases told with
    | added address => simp [registryEntry, excludeEntry]
    | removed => simp [registryEntry, excludeEntry]

/-- A validator that is added in account form is registered. -/
theorem validators_have_one_status_sample :
    ∃ tr st, Run Step (sampleStorage []) tr st ∧
      lastTold tr sampleValidator = some (.added sampleAccount) ∧
      sampleValidator ∈ st.validatorRegistry ∧ sampleValidator ∉ st.validatorExcludeList := by
  set st := (sampleStorage []).afterCall (.addValidator sampleAccount) with hst
  have run : Run Step (sampleStorage []) [(ownerCall (.addValidator sampleAccount), st)] st :=
    .single ⟨[], rfl⟩
  have created : instantiate (sampleDeps []) ⟨"owner", []⟩ "hub" [] = .ok (sampleStorage []) := by
    rfl
  obtain ⟨hadded, -⟩ := validators_have_one_status created run sampleValidator
  have htold : lastTold [(ownerCall (.addValidator sampleAccount), st)] sampleValidator =
    some (.added sampleAccount) := by decide +kernel
  exact ⟨_, _, run, htold, hadded ⟨_, htold⟩⟩

/-- **A validator that the chain does not know is added without being added**:
the call succeeds, and nothing is stored. -/
theorem unknown_validator_is_not_added :
    ∃ c st, c.msg = .addValidator sampleValidator ∧ Step (sampleStorage []) c st ∧
      instantiate c.deps ⟨"owner", []⟩ "hub" [] = .ok (sampleStorage []) ∧
      convertAddrByPrefix c.deps.bech32 sampleValidator VALIDATOR_ADDR_PREFIX =
        .ok sampleValidator ∧
      sampleValidator ∉ st.validatorRegistry :=
  ⟨⟨{ sampleDeps [] with validator := fun _ => none }, ⟨"owner", []⟩,
      .addValidator sampleValidator⟩,
    sampleStorage [], rfl, ⟨_, rfl⟩, rfl, by decide +kernel, by decide +kernel⟩

/-! ### The names in the lists -/

/-- **The names in the lists are operator addresses**: a validator is registered
under what its stored address converts to, what is excluded is an operator
address, and nothing is both. -/
structure Storage.WellNamed (st : Storage) (b : Bech32) : Prop where
  keyed : ∀ (v : String) address, st.validatorRegistry[v]? = some address →
    convertAddrByPrefix b address VALIDATOR_ADDR_PREFIX = .ok v
  operator : ∀ (v : String) x, st.validatorExcludeList[v]? = some x → b.IsOperator v
  disjoint : ∀ v : String, st.validatorExcludeList[v]? ≠ none → st.validatorRegistry[v]? = none

/-- A call with the given address functions and an honest chain is accepted. -/
structure LawfulStep (b : Bech32) (st : Storage) (c : Call) (st' : Storage) : Prop where
  step : Step st c st'
  bech32 : c.deps.bech32 = b
  names : c.deps.NamesByOperator

theorem LawfulStep.wellNamed {b : Bech32} {st st' : Storage} {c : Call}
    (h : LawfulStep b st c st') (hst : st.WellNamed b) : st'.WellNamed b := by
  obtain ⟨hstep, rfl, names⟩ := h
  cases hstep.effect with
  | @added v address tells answer =>
    obtain ⟨operator, hconvert, hv⟩ := answer
    obtain rfl := names _ _ hv
    constructor
    · exact forall_getElem?_insert hconvert hst.keyed
    · exact forall_getElem?_erase hst.operator
    · intro v' h
      rw [getElem?_erase_eq] at h
      rw [getElem?_insert_eq]
      split_ifs at h with heq
      · exact absurd rfl h
      · rw [if_neg heq]
        exact hst.disjoint v' h
  | @removed v address tells converts =>
    constructor
    · exact forall_getElem?_erase hst.keyed
    · exact forall_getElem?_insert (convertAddrByPrefix_isOperator converts) hst.operator
    · intro v' h
      rw [getElem?_insert_eq] at h
      rw [getElem?_erase_eq]
      split_ifs at h ⊢ with heq
      · rfl
      · exact hst.disjoint v' h
  | unchanged => exact ⟨hst.keyed, hst.operator, hst.disjoint⟩

/-- **`instantiate` stores every validator under its own name.** -/
theorem instantiate_registry {deps : Deps} {info : MessageInfo} {hubContract : String}
    {validators : List String} {st₀ : Storage} (names : deps.NamesByOperator)
    (created : instantiate deps info hubContract validators = .ok st₀) :
    (∀ (v : String) address, st₀.validatorRegistry[v]? = some address →
      address = v ∧ deps.bech32.IsOperator v) ∧ st₀.validatorExcludeList = ∅ := by
  simp only [instantiate, bind_eq_ok, require_eq_ok, pure_eq_ok] at created
  obtain ⟨-, -, registry, hfold, rfl⟩ := created
  refine ⟨?_, rfl⟩
  have hkeep : ∀ (l : List String) (registry registry' : ExtTreeMap String String),
      (∀ (v : String) address, registry[v]? = some address →
        address = v ∧ deps.bech32.IsOperator v) →
      l.foldlM (registerInitial deps) registry = .ok registry' →
      ∀ (v : String) address, registry'[v]? = some address →
        address = v ∧ deps.bech32.IsOperator v := by
    intro l
    induction l with
    | nil =>
      intro registry registry' hreg h
      rw [List.foldlM_nil, pure_eq_ok] at h
      exact h ▸ hreg
    | cons address l ih =>
      intro registry registry' hreg h
      rw [List.foldlM_cons, bind_eq_ok] at h
      obtain ⟨registry₁, hone, hrest⟩ := h
      refine ih registry₁ registry' ?_ hrest
      simp only [registerInitial, bind_eq_ok] at hone
      obtain ⟨operator, hconvert, hone⟩ := hone
      cases hv : deps.validator operator with
      | none =>
        rw [hv, pure_eq_ok] at hone
        exact hone ▸ hreg
      | some v =>
        obtain rfl := names _ _ hv
        rw [hv, pure_eq_ok] at hone
        intro v' address' h
        rw [← hone, getElem?_insert_eq] at h
        split_ifs at h with heq
        · rw [← heq]
          exact ⟨(Option.some.inj h).symm, convertAddrByPrefix_isOperator hconvert⟩
        · exact hreg v' address' h
  exact hkeep validators ∅ registry (fun v address h => by simp at h) hfold

theorem instantiate_wellNamed {b : Bech32} (law : b.RoundTrips) {deps : Deps} {info : MessageInfo}
    {hubContract : String} {validators : List String} {st₀ : Storage} (bech32 : deps.bech32 = b)
    (names : deps.NamesByOperator)
    (created : instantiate deps info hubContract validators = .ok st₀) : st₀.WellNamed b := by
  subst bech32
  obtain ⟨hregistry, hexcluded⟩ := instantiate_registry names created
  constructor
  · intro v address h
    obtain ⟨rfl, hop⟩ := hregistry v address h
    exact hop.convert law
  · intro v x h
    rw [hexcluded] at h
    simp at h
  · intro v h
    rw [hexcluded] at h
    simp at h

/-! ### What the registry answers -/

/-- The hub's delegation to a validator: the amount of the chain's entry for it,
the last if there are several, and zero if there is none. -/
def hubDelegation (delegations : List Delegation) (v : String) : ℕ :=
  (lastWrite (delegations.map fun d => (d.validator, d.amount.amount)) v).getD 0

/-- The map of the delegations holds the last entry for each validator. -/
theorem delegationMap_getElem? (delegations : List Delegation) (v : String) :
    (delegationMap delegations)[v]? =
      lastWrite (delegations.map fun d => (d.validator, d.amount)) v := by
  have hmap : delegationMap delegations = (delegations.map fun d => (d.validator, d.amount)).foldl
      (fun m e => m.insert e.1 e.2) ∅ := by
    rw [List.foldl_map]
    rfl
  rw [hmap, getElem?_foldl_insert]

theorem delegatedTo_delegationMap (delegations : List Delegation) (v : String) :
    delegatedTo (delegationMap delegations) v = hubDelegation delegations v := by
  have hamounts : (delegations.map fun d => (d.validator, d.amount.amount)) =
      (delegations.map fun d => (d.validator, d.amount)).map fun e => (e.1, e.2.amount) := by
    rw [List.map_map]
    rfl
  rw [delegatedTo, hubDelegation, delegationMap_getElem?, hamounts, lastWrite_map]

/-- **The registry reports true delegations**: whatever the chain answers, each
registered validator is listed once, under the operator address that it is
registered under, with the hub's delegation to that address. -/
def Storage.ReportsTrue (st : Storage) : Prop :=
  ∀ deps : Deps, (queryValidators deps st).Perm (st.validatorRegistry.keys.map fun v =>
    { address := v
      totalDelegated := hubDelegation (deps.allDelegations st.config.hubContract) v })

/-- The reports are true when every validator is stored under its own name. -/
theorem Storage.WellNamed.reportsTrue_iff {b : Bech32} (law : b.RoundTrips) {st : Storage}
    (hst : st.WellNamed b) : st.ReportsTrue ↔
      ∀ (v : String) address, st.validatorRegistry[v]? = some address → address = v := by
  constructor
  · intro htrue v address h
    -- the stored address is listed, so it is the name of an entry, and converts to itself
    have hlisted := (htrue ⟨fun _ => [], fun _ => none, b, fun _ => true⟩).symm.trans
      (queryValidators_perm _ _)
    have hmem : address ∈ st.validatorRegistry.keys := by
      have hin : address ∈ (registered (delegationMap []) st.validatorRegistry).map
          (·.address) := by
        refine List.mem_map.2 ⟨_, List.mem_map_of_mem
          (ExtTreeMap.mem_toList_iff_getElem?_eq_some.2 h), rfl⟩
      have hin' := (hlisted.map (·.address)).mem_iff.2 hin
      rwa [List.map_map, Function.comp_def, List.map_id'] at hin'
    obtain ⟨address', h'⟩ := Option.isSome_iff_exists.1
      (ExtTreeMap.isSome_getElem?_iff_mem.2 (ExtTreeMap.mem_keys.1 hmem))
    have hself := (convertAddrByPrefix_isOperator (hst.keyed _ _ h')).convert law
    exact Except.ok.inj (hself.symm.trans (hst.keyed _ _ h))
  · intro hnames deps
    refine (queryValidators_perm deps st).trans (List.Perm.of_eq ?_)
    rw [registered, ← ExtTreeMap.map_fst_toList_eq_keys, List.map_map]
    refine List.map_congr_left fun e he => ?_
    have hname := hnames _ _ (ExtTreeMap.mem_toList_iff_getElem?_eq_some.1 he)
    show ValidatorResponse.mk (delegatedTo _ e.2) e.2 = ValidatorResponse.mk _ e.1
    rw [delegatedTo_delegationMap, hname]

section Runs

variable {b : Bech32} {deps : Deps} {info : MessageInfo} {hubContract : String}
  {validators : List String} {st₀ st : Storage} {tr : List (Call × Storage)}

theorem run_wellNamed (law : b.RoundTrips) (bech32 : deps.bech32 = b)
    (names : deps.NamesByOperator)
    (created : instantiate deps info hubContract validators = .ok st₀)
    (run : Run (LawfulStep b) st₀ tr st) : st.WellNamed b :=
  run.invariant (instantiate_wellNamed law bech32 names created) fun _ _ _ h hstep =>
    hstep.wellNamed h

theorem run_follows (created : instantiate deps info hubContract validators = .ok st₀)
    (run : Run (LawfulStep b) st₀ tr st) : st.Follows st₀ (tellings tr) :=
  follows created (run.mono fun _ _ _ _ h => h.step)

/-- **The registry reports true delegations exactly when** every validator last
added was added under its operator address. -/
theorem registry_reports_true (law : b.RoundTrips) (bech32 : deps.bech32 = b)
    (names : deps.NamesByOperator)
    (created : instantiate deps info hubContract validators = .ok st₀)
    (run : Run (LawfulStep b) st₀ tr st) :
    st.ReportsTrue ↔ ∀ v address, lastTold tr v = some (.added address) → address = v := by
  have hfollows := run_follows created run
  obtain ⟨hinitial, -⟩ := instantiate_registry names created
  rw [(run_wellNamed law bech32 names created run).reportsTrue_iff law]
  constructor
  · intro hnames v address htold
    refine hnames v address ?_
    rw [hfollows.registry]
    exact congrArg (registryEntry · _) htold
  · intro htold v address h
    rw [hfollows.registry] at h
    cases hlast : lastWrite (tellings tr) v with
    | none =>
      rw [hlast] at h
      exact (hinitial v address h).1
    | some told =>
      cases told with
      | added address' =>
        rw [hlast] at h
        rw [← Option.some.inj h]
        exact htold v address' hlast
      | removed =>
        rw [hlast] at h
        cases h

/-- A validator that is added under its operator address is reported. -/
theorem registry_reports_true_sample :
    ∃ tr st, Run (LawfulStep accountBech32) (sampleStorage []) tr st ∧
      (st.ReportsTrue ↔
        ∀ v address, lastTold tr v = some (.added address) → address = v) ∧ st.ReportsTrue := by
  set st := (sampleStorage []).afterCall (.addValidator sampleValidator) with hst
  have run : Run (LawfulStep accountBech32) (sampleStorage [])
      [(ownerCall (.addValidator sampleValidator), st)] st :=
    .single ⟨⟨[], rfl⟩, rfl, sampleDeps_namesByOperator []⟩
  have created : instantiate (sampleDeps []) ⟨"owner", []⟩ "hub" [] = .ok (sampleStorage []) := by
    rfl
  have hiff := registry_reports_true accountBech32_roundTrips rfl (sampleDeps_namesByOperator [])
    created run
  refine ⟨_, _, run, hiff, hiff.2 fun v address h => ?_⟩
  have hmem := mem_of_lastWrite h
  have hone : tellings [(ownerCall (.addValidator sampleValidator), st)] =
    [(sampleValidator, .added sampleValidator)] := by decide +kernel
  rw [hone] at hmem
  cases hmem with
  | head => rfl
  | tail _ h => cases h

/-- **A validator added in account form is misreported**: it is listed under the
account address, with no delegation. -/
theorem account_form_is_misreported :
    ∃ st, Run (LawfulStep accountBech32) (sampleStorage [])
        [(ownerCall (.addValidator sampleAccount), st)] st ∧
      instantiate (sampleDeps []) ⟨"owner", []⟩ "hub" [] = .ok (sampleStorage []) ∧
      st.validatorRegistry.keys = [sampleValidator] ∧
      hubDelegation [sampleDelegation sampleValidator 100] sampleValidator = 100 ∧
      queryValidators (sampleDeps [sampleDelegation sampleValidator 100]) st =
        [⟨0, sampleAccount⟩] ∧ ¬st.ReportsTrue := by
  refine ⟨(sampleStorage []).afterCall (.addValidator sampleAccount),
    .single ⟨⟨[], rfl⟩, rfl, sampleDeps_namesByOperator []⟩, rfl, by decide +kernel, by decide,
    by decide +kernel, fun htrue => ?_⟩
  exact absurd (htrue (sampleDeps [sampleDelegation sampleValidator 100])) (by decide +kernel)

/-! ### Redelegating -/

/-- The run leaves the validator registered: it was last told to be added, or was
registered at the start and told nothing. -/
def Stays (st₀ : Storage) (tr : List (Call × Storage)) (v : String) : Prop :=
  (∃ address, lastTold tr v = some (.added address)) ∨
    lastTold tr v = none ∧ v ∈ st₀.validatorRegistry

theorem Storage.Follows.stays_iff (h : st.Follows st₀ (tellings tr)) (v : String) :
    Stays st₀ tr v ↔ v ∈ st.validatorRegistry := by
  unfold Stays lastTold
  rw [← ExtTreeMap.isSome_getElem?_iff_mem, ← ExtTreeMap.isSome_getElem?_iff_mem, h.registry]
  cases lastWrite (tellings tr) v with
  | none => simp [registryEntry]
  | some told =>
    cases told with
    | added address => simp [registryEntry]
    | removed => simp [registryEntry]

theorem Storage.Follows.removed_iff (h : st.Follows st₀ (tellings tr)) (v : String) :
    lastTold tr v = some .removed ↔ v ∈ st.validatorExcludeList := by
  unfold lastTold
  rw [← ExtTreeMap.isSome_getElem?_iff_mem, h.excluded]
  cases lastWrite (tellings tr) v with
  | none => simp [excludeEntry]
  | some told =>
    cases told with
    | added address => simp [excludeEntry]
    | removed => simp [excludeEntry]

/-- Nobody is listed when nobody is registered. -/
theorem sortByDelegated_registered_eq_nil {delegations : ExtTreeMap String Coin}
    {registry : ExtTreeMap String String} :
    sortByDelegated (registered delegations registry) = [] ↔ ∀ v, v ∉ registry := by
  have hsort : sortByDelegated (registered delegations registry) = [] ↔ registry.toList = [] := by
    rw [← List.length_eq_zero_iff, ← List.length_eq_zero_iff, sortByDelegated,
      List.length_insertionSort, registered, List.length_map]
  rw [hsort, ExtTreeMap.toList_eq_nil_iff, ExtTreeMap.eq_empty_iff_forall_not_mem]

/-- The loop succeeds where every excluded validator is planned for. -/
theorem redelegateLoop_succeeds {delegations : ExtTreeMap String Coin}
    {active : List ValidatorResponse} (excluded : List String) :
    (∃ messages, redelegateLoop hubContract delegations active excluded = .ok messages) ↔
      ∀ v ∈ excluded, ∃ messages, redelegationsOf hubContract delegations active v =
        .ok messages := by
  induction excluded with
  | nil =>
    refine ⟨fun _ v hv => ?_, fun _ => ⟨[], rfl⟩⟩
    cases hv
  | cons v rest ih =>
    rw [List.forall_mem_cons, ← ih]
    simp only [redelegateLoop, bind_eq_ok, pure_eq_ok]
    constructor
    · rintro ⟨-, first, hfirst, others, hothers, -⟩
      exact ⟨⟨first, hfirst⟩, others, hothers⟩
    · rintro ⟨⟨first, hfirst⟩, others, hothers⟩
      exact ⟨_, first, hfirst, others, hothers, rfl⟩

/-- An excluded validator is planned for if it has nothing, or its delegation can
be split over the registered ones. -/
theorem redelegationsOf_succeeds {delegations : ExtTreeMap String Coin}
    {active : List ValidatorResponse} {v : String} :
    (∃ messages, redelegationsOf hubContract delegations active v = .ok messages) ↔
      delegatedTo delegations v = 0 ∨
        ∃ plan, calculateDelegations (delegatedTo delegations v) active = .ok plan := by
  unfold redelegationsOf delegatedTo
  cases delegations[v]? with
  | none => exact ⟨fun _ => .inl rfl, fun _ => ⟨[], rfl⟩⟩
  | some delegation =>
    simp only [Option.map_some, Option.getD_some]
    split_ifs with hz
    · exact ⟨fun _ => .inl hz, fun _ => ⟨[], rfl⟩⟩
    · simp only [bind_eq_ok, unwrap_eq_ok, pure_eq_ok]
      constructor
      · rintro ⟨-, plan, hplan, -⟩
        exact .inr ⟨plan, hplan⟩
      · rintro (hzero | ⟨plan, hplan⟩)
        · exact absurd hzero hz
        · exact ⟨_, plan, hplan, rfl⟩

/-- The addresses that the validators are registered with are different. -/
theorem Storage.WellNamed.nodup_addresses (hst : st.WellNamed b) :
    (st.validatorRegistry.toList.map Prod.snd).Nodup := by
  have hkey : ∀ e ∈ st.validatorRegistry.toList,
      convertAddrByPrefix b e.2 VALIDATOR_ADDR_PREFIX = .ok e.1 := fun e he =>
    hst.keyed _ _ (ExtTreeMap.mem_toList_iff_getElem?_eq_some.1 he)
  refine (nodup_toList _).map_on fun e he e' he' heq => ?_
  have hfst : e.1 = e'.1 := by
    have hconvert := hkey e he
    rw [heq, hkey e' he'] at hconvert
    exact (Except.ok.inj hconvert).symm
  exact Prod.ext hfst heq

/-- **The delegations the registry counts are apart**: what the registered
validators have, and what an excluded one has, is within what the chain
reports. -/
theorem Storage.WellNamed.sum_le (law : b.RoundTrips) (hst : st.WellNamed b) {v : String}
    (excluded : v ∈ st.validatorExcludeList) (delegations : List Delegation) :
    (delegationsOf (sortByDelegated
        (registered (delegationMap delegations) st.validatorRegistry))).sum +
      delegatedTo (delegationMap delegations) v ≤ (delegations.map (·.amount.amount)).sum := by
  obtain ⟨x, hx⟩ := Option.isSome_iff_exists.1 (ExtTreeMap.isSome_getElem?_iff_mem.2 excluded)
  have hself := (hst.operator v x hx).convert law
  have hunregistered : st.validatorRegistry[v]? = none := hst.disjoint v (by rw [hx]; simp)
  have hkey : ∀ e ∈ st.validatorRegistry.toList,
      convertAddrByPrefix b e.2 VALIDATOR_ADDR_PREFIX = .ok e.1 := fun e he =>
    hst.keyed _ _ (ExtTreeMap.mem_toList_iff_getElem?_eq_some.1 he)
  set names := st.validatorRegistry.toList.map Prod.snd with hnames
  have hnodup : (v :: names).Nodup := by
    refine List.nodup_cons.2 ⟨fun hmem => ?_, hst.nodup_addresses⟩
    obtain ⟨e, he, rfl⟩ := List.mem_map.1 hmem
    have hsame := Except.ok.inj (hself.symm.trans (hkey e he))
    rw [hsame, ExtTreeMap.mem_toList_iff_getElem?_eq_some.1 he] at hunregistered
    cases hunregistered
  have hsum := sum_lastWrite_le (delegations.map fun d => (d.validator, d.amount.amount)) hnodup
  rw [List.map_cons, List.sum_cons] at hsum
  have hamounts : (delegations.map (·.amount.amount)) =
      (delegations.map fun d => (d.validator, d.amount.amount)).map Prod.snd := by
    rw [List.map_map]
    rfl
  have hperm : (delegationsOf (sortByDelegated
      (registered (delegationMap delegations) st.validatorRegistry))).sum =
      (names.map fun v => hubDelegation delegations v).sum := by
    refine ((List.perm_insertionSort _ _).map _).sum_eq.trans ?_
    rw [registered, hnames, List.map_map, List.map_map]
    refine congrArg List.sum (List.map_congr_left fun e _ => ?_)
    exact delegatedTo_delegationMap delegations e.2
  rw [hperm, delegatedTo_delegationMap, Nat.add_comm, hamounts]
  exact hsum

/-- **`process_redelegations` returns `Ok` exactly when** some validator is still
registered, or no validator that was removed has a delegation. -/
theorem redelegations_do_not_panic (law : b.RoundTrips) (bech32 : deps.bech32 = b)
    (names : deps.NamesByOperator)
    (created : instantiate deps info hubContract validators = .ok st₀)
    (run : Run (LawfulStep b) st₀ tr st) (deps' : Deps)
    (fits : ((deps'.allDelegations st.config.hubContract).map (·.amount.amount)).sum < 2 ^ 128) :
    (∃ messages, processRedelegations deps' st = .ok messages) ↔
      (∃ v, Stays st₀ tr v) ∨ ∀ v, lastTold tr v = some .removed →
        hubDelegation (deps'.allDelegations st.config.hubContract) v = 0 := by
  have hfollows := run_follows created run
  have hnamed := run_wellNamed law bech32 names created run
  simp only [hfollows.stays_iff, hfollows.removed_iff]
  set delegations := deps'.allDelegations st.config.hubContract with hdelegations
  set active := sortByDelegated (registered (delegationMap delegations) st.validatorRegistry)
    with hactive
  have hloop : (∃ messages, processRedelegations deps' st = .ok messages) ↔
      ∀ v ∈ st.validatorExcludeList, hubDelegation delegations v = 0 ∨
        ∃ plan, calculateDelegations (hubDelegation delegations v) active = .ok plan := by
    unfold processRedelegations
    split_ifs with hempty
    · refine ⟨fun _ v hv => ?_, fun _ => ⟨[], rfl⟩⟩
      rw [ExtTreeMap.isEmpty_iff.1 hempty] at hv
      exact absurd hv ExtTreeMap.not_mem_empty
    · rw [redelegateLoop_succeeds]
      simp only [redelegationsOf_succeeds, delegatedTo_delegationMap, ExtTreeMap.mem_keys]
      rfl
  rw [hloop]
  constructor
  · intro hplans
    by_cases hstays : ∃ v, v ∈ st.validatorRegistry
    · exact .inl hstays
    · refine .inr fun v hv => (hplans v hv).resolve_right ?_
      -- nobody is left to take the delegation
      rintro ⟨plan, hplan⟩
      have hnone : active = [] :=
        sortByDelegated_registered_eq_nil.2 fun v hv => hstays ⟨v, hv⟩
      rw [hnone] at hplan
      cases hplan
  · rintro (⟨v₀, hv₀⟩ | hzero) v hv
    · have hne : active ≠ [] := fun hnil => sortByDelegated_registered_eq_nil.1 hnil v₀ hv₀
      have hle := hnamed.sum_le law hv delegations
      rw [delegatedTo_delegationMap] at hle
      exact .inr ⟨_, calculateDelegations_fill hne (hle.trans_lt fits)⟩
    · exact .inl (hzero v hv)

/-- A removed validator that still has a delegation, with another left to take
it. -/
theorem redelegations_do_not_panic_sample :
    ∃ tr st,
      Run (LawfulStep accountBech32) (sampleStorage [sampleValidator, otherValidator]) tr st ∧
      ((∃ messages, processRedelegations (sampleDeps [sampleDelegation sampleValidator 100]) st =
          .ok messages) ↔
        (∃ v, Stays (sampleStorage [sampleValidator, otherValidator]) tr v) ∨
          ∀ v, lastTold tr v = some .removed →
            hubDelegation [sampleDelegation sampleValidator 100] v = 0) := by
  set st := (sampleStorage [sampleValidator, otherValidator]).afterCall
    (.removeValidator sampleAccount) with hst
  have run : Run (LawfulStep accountBech32) (sampleStorage [sampleValidator, otherValidator])
      [(ownerCall (.removeValidator sampleAccount), st)] st :=
    .single ⟨⟨[], rfl⟩, rfl, sampleDeps_namesByOperator []⟩
  have created : instantiate (sampleDeps []) ⟨"owner", []⟩ "hub" [sampleValidator, otherValidator] =
    .ok (sampleStorage [sampleValidator, otherValidator]) := by rfl
  exact ⟨_, _, run, redelegations_do_not_panic accountBech32_roundTrips rfl
    (sampleDeps_namesByOperator []) created run
    (sampleDeps [sampleDelegation sampleValidator 100]) (by decide)⟩

/-- **The last validator can be removed** while it holds the hub's delegation;
`process_redelegations` then panics. -/
theorem last_validator_is_removed :
    ∃ st, Run (LawfulStep accountBech32) (sampleStorage [sampleValidator])
        [(ownerCall (.removeValidator sampleValidator), st)] st ∧
      instantiate (sampleDeps []) ⟨"owner", []⟩ "hub" [sampleValidator] =
        .ok (sampleStorage [sampleValidator]) ∧
      sampleValidator ∈ (sampleStorage [sampleValidator]).validatorRegistry ∧
      processRedelegations (sampleDeps [sampleDelegation sampleValidator 100]) st =
        .error (.panic .unwrap) :=
  ⟨_, .single ⟨⟨_, rfl⟩, rfl, sampleDeps_namesByOperator []⟩, rfl, by decide +kernel,
    by decide +kernel⟩

end Runs

end Registry
end BabyLst
