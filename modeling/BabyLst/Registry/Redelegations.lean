/-
# What a redelegation moves

`process_redelegations` sorts the registered validators once, by what the chain
reports for them, and plans for each excluded validator in turn.  With a
registered validator and sums that fit, nothing in it fails, and its messages are
one `RedelegateProxy` per excluded validator that has a delegation, with the
greedy plan for that delegation (`processRedelegations_eq`).

What such a message moves is read off the plan: the whole delegation, in positive
amounts, to different addresses that the registry stores
(`redelegations_move_everything`); the hub passes it on entry by entry.
-/

import BabyLst.Hub.Contract
import BabyLst.Registry.Status

namespace BabyLst

open Lib

/-- What the validators are short of their targets when an amount is delegated. -/
def lacks (amt : ℕ) (validators : List ValidatorResponse) : List ℕ :=
  List.zipWith (fun b t => t - b) (delegationsOf validators)
    (targetsFor ((delegationsOf validators).sum + amt) validators)

namespace Registry

open Std

/-- The message that tells the hub to move an excluded validator's delegation. -/
def proxyMsg (hubContract : Addr) (plan : String × List (String × Coin)) : CosmosMsg :=
  .wasmExecute hubContract (.hub (.redelegateProxy plan.1 plan.2)) []

/-- The greedy split of a coin over the validators, nobody being sent nothing. -/
def splitOver (active : List ValidatorResponse) (coin : Coin) : List (String × Coin) :=
  ((active.zip (fill coin.amount (lacks coin.amount active))).filter fun e => e.2 ≠ 0).map fun e =>
    (e.1.address, ⟨coin.denom, e.2⟩)

/-- What there is to move from a validator, if anything. -/
def movable (delegations : ExtTreeMap String Coin) (v : String) : Option Coin :=
  (delegations[v]?).filter fun coin => coin.amount ≠ 0

/-- The plans for the excluded validators, in their order. -/
def plansFor (delegations : ExtTreeMap String Coin) (active : List ValidatorResponse)
    (excluded : List String) : List (String × List (String × Coin)) :=
  excluded.filterMap fun v =>
    (movable delegations v).map fun coin => (v, splitOver active coin)

variable {hubContract : Addr} {delegations : ExtTreeMap String Coin}
  {active : List ValidatorResponse}

theorem delegatedTo_eq_of_movable {v : String} {coin : Coin}
    (h : movable delegations v = some coin) :
    delegations[v]? = some coin ∧ 0 < coin.amount ∧ delegatedTo delegations v = coin.amount := by
  obtain ⟨hcoin, hne⟩ := Option.filter_eq_some_iff.1 h
  refine ⟨hcoin, Nat.pos_of_ne_zero (by simpa using hne), ?_⟩
  rw [delegatedTo, hcoin]
  rfl

/-- **One excluded validator.** -/
theorem redelegationsOf_eq (hne : active ≠ []) {v : String}
    (fits : (delegationsOf active).sum + delegatedTo delegations v < 2 ^ 128) :
    redelegationsOf hubContract delegations active v =
      .ok ((plansFor delegations active [v]).map (proxyMsg hubContract)) := by
  unfold redelegationsOf plansFor movable
  unfold delegatedTo at fits
  cases hv : delegations[v]? with
  | none => simp [hv]
  | some coin =>
    dsimp only
    split_ifs with hz
    · simp [hv, hz]
    · rw [hv, Option.map_some, Option.getD_some] at fits
      have hplan := calculateDelegations_fill hne fits
      rw [bind_ok (unwrap_eq_ok.2 hplan)]
      simp only [List.filterMap_cons, hv, Option.filter_some, hz, ne_eq, not_false_eq_true,
        decide_true, if_true, Option.map_some, List.filterMap_nil, List.map_cons, List.map_nil]
      rfl

/-- **The loop over the excluded validators.** -/
theorem redelegateLoop_eq (hne : active ≠ []) {excluded : List String}
    (fits : ∀ v ∈ excluded, (delegationsOf active).sum + delegatedTo delegations v < 2 ^ 128) :
    redelegateLoop hubContract delegations active excluded =
      .ok ((plansFor delegations active excluded).map (proxyMsg hubContract)) := by
  induction excluded with
  | nil => rfl
  | cons v rest ih =>
    rw [List.forall_mem_cons] at fits
    obtain ⟨hfirst, hrest⟩ := fits
    have happ : plansFor delegations active (v :: rest) =
        plansFor delegations active [v] ++ plansFor delegations active rest := by
      rw [plansFor, plansFor, plansFor, ← List.filterMap_append]
      rfl
    rw [redelegateLoop, bind_ok (redelegationsOf_eq hne hfirst), bind_ok (ih hrest), happ,
      List.map_append]
    rfl

/-- The plans of `process_redelegations`. -/
def Storage.plans (st : Storage) (deps : Deps) : List (String × List (String × Coin)) :=
  plansFor (delegationMap (deps.allDelegations st.config.hubContract)) (queryValidators deps st)
    st.validatorExcludeList.keys

/-- **The messages of `process_redelegations`**, where a validator is registered
and the sums fit. -/
theorem processRedelegations_eq {deps : Deps} {st : Storage} (hne : queryValidators deps st ≠ [])
    (fits : ∀ v ∈ st.validatorExcludeList, (delegationsOf (queryValidators deps st)).sum +
      hubDelegation (deps.allDelegations st.config.hubContract) v < 2 ^ 128) :
    processRedelegations deps st = .ok ((st.plans deps).map (proxyMsg st.config.hubContract)) := by
  have hloop : redelegateLoop st.config.hubContract
      (delegationMap (deps.allDelegations st.config.hubContract)) (queryValidators deps st)
      st.validatorExcludeList.keys = _ := redelegateLoop_eq hne fun v hv => by
    rw [delegatedTo_delegationMap]
    exact fits v (ExtTreeMap.mem_keys.1 hv)
  unfold processRedelegations
  dsimp only
  split_ifs with hempty
  · have hkeys : st.validatorExcludeList.keys = [] :=
      ExtTreeMap.keys_eq_nil_iff.2 (ExtTreeMap.isEmpty_iff.1 hempty)
    rw [Storage.plans, hkeys]
    rfl
  · exact hloop

/-! ### What a plan moves -/

theorem length_lacks (amt : ℕ) (vs : List ValidatorResponse) :
    (lacks amt vs).length = vs.length := by
  simp [lacks]

/-- The greedy plan has an entry for each validator, and spends the amount. -/
theorem fill_lacks (hne : active ≠ []) (amt : ℕ) :
    (fill amt (lacks amt active)).length = active.length ∧
      (fill amt (lacks amt active)).sum = amt :=
  ⟨((fill_le amt _).length_eq).trans (length_lacks amt active), fill_sum (le_sum_lacks hne amt)⟩

/-- **What is sent from an excluded validator whose delegation is `coin`**: all of
it, in positive amounts of its denom, to different addresses of the registry. -/
structure MovesAll (st : Storage) (coin : Coin) (redelegations : List (String × Coin)) : Prop where
  pos : ∀ e ∈ redelegations, 0 < e.2.amount
  stored : ∀ e ∈ redelegations, ∃ v : String, st.validatorRegistry[v]? = some e.1
  nodup : (redelegations.map Prod.fst).Nodup
  denom : ∀ e ∈ redelegations, e.2.denom = coin.denom
  sum : (redelegations.map (·.2.amount)).sum = coin.amount

/-- The validators that are sent something are some of the list, in its order. -/
theorem splitOver_sublist (hne : active ≠ []) (coin : Coin) :
    ((splitOver active coin).map Prod.fst).Sublist (active.map (·.address)) := by
  have hlen := (fill_lacks hne coin.amount).1
  have hall : (active.zip (fill coin.amount (lacks coin.amount active))).map (·.1.address) =
      active.map (·.address) := by
    rw [← Function.comp_def ValidatorResponse.address Prod.fst, ← List.map_map,
      List.map_fst_zip hlen.ge]
  rw [← hall, splitOver, List.map_map]
  exact (List.filter_sublist).map _

/-- **A split moves everything.** -/
theorem splitOver_movesAll {st : Storage} (hne : active ≠ [])
    (addresses : (active.map (·.address)).Perm (st.validatorRegistry.toList.map Prod.snd))
    (distinct : (st.validatorRegistry.toList.map Prod.snd).Nodup) (coin : Coin) :
    MovesAll st coin (splitOver active coin) := by
  have hsub := splitOver_sublist hne coin
  obtain ⟨hlen, hsum⟩ := fill_lacks hne coin.amount
  constructor
  · intro e he
    obtain ⟨x, hx, rfl⟩ := List.mem_map.1 he
    exact Nat.pos_of_ne_zero (of_decide_eq_true (List.mem_filter.1 hx).2)
  · intro e he
    have hmem := addresses.mem_iff.1 (hsub.subset (List.mem_map_of_mem he))
    obtain ⟨entry, hentry, heq⟩ := List.mem_map.1 hmem
    exact ⟨entry.1, heq ▸ ExtTreeMap.mem_toList_iff_getElem?_eq_some.1 hentry⟩
  · exact hsub.nodup (addresses.nodup_iff.2 distinct)
  · intro e he
    obtain ⟨x, -, rfl⟩ := List.mem_map.1 he
    rfl
  · rw [splitOver, List.map_map]
    exact (sum_zip_filter active _ hlen).trans hsum

/-- The validators answered have the addresses that the registry stores. -/
theorem queryValidators_addresses (deps : Deps) (st : Storage) :
    ((queryValidators deps st).map (·.address)).Perm
      (st.validatorRegistry.toList.map Prod.snd) := by
  have hstored : (registered (delegationMap (deps.allDelegations st.config.hubContract))
      st.validatorRegistry).map (·.address) = st.validatorRegistry.toList.map Prod.snd := by
    rw [registered, List.map_map]
    rfl
  rw [← hstored]
  exact (queryValidators_perm deps st).map _

/-- Somebody is answered where somebody is registered. -/
theorem queryValidators_ne_nil {deps : Deps} {st : Storage} {v : String}
    (h : v ∈ st.validatorRegistry) : queryValidators deps st ≠ [] := fun hnil =>
  sortByDelegated_registered_eq_nil.1 hnil v h

/-- The plans are for the excluded validators with something to move. -/
theorem map_fst_plansFor (excluded : List String) :
    (plansFor delegations active excluded).map Prod.fst =
      excluded.filter fun v => (movable delegations v).isSome := by
  induction excluded with
  | nil => rfl
  | cons v rest ih =>
    rw [plansFor] at ih ⊢
    rw [List.filterMap_cons, List.filter_cons]
    cases hv : movable delegations v with
    | none => simpa using ih
    | some coin => simpa using ih

/-- What a plan is for, and what it is. -/
theorem mem_plansFor {excluded : List String} {plan : String × List (String × Coin)}
    (h : plan ∈ plansFor delegations active excluded) :
    ∃ coin, movable delegations plan.1 = some coin ∧ plan.2 = splitOver active coin := by
  obtain ⟨v, -, hplan⟩ := List.mem_filterMap.1 h
  obtain ⟨coin, hcoin, rfl⟩ := Option.map_eq_some_iff.1 hplan
  exact ⟨coin, hcoin, rfl⟩

/-- The hub passes a plan on, entry by entry. -/
theorem executeRedelegateProxy_eq {hub : Hub.Storage} (env : Env) {info : MessageInfo}
    (registry : hub.config.validatorsRegistryContract = some info.sender) (src : String)
    (redelegations : List (String × Coin)) :
    Hub.executeRedelegateProxy hub env info src redelegations =
      .ok (hub, { messages := redelegations.map fun e =>
        .wrappedBeginRedelegate env.contract src e.1 e.2 }) := by
  unfold Hub.executeRedelegateProxy
  rw [registry, bind_ok (okOr_eq_ok.2 rfl), bind_ok (require_ok rfl)]
  rfl

/-- What is movable from a validator that the chain reports once. -/
theorem movable_iff {reported : List Delegation} (once : (reported.map (·.validator)).Nodup)
    {v : String} {coin : Coin} : movable (delegationMap reported) v = some coin ↔
      0 < coin.amount ∧ ∃ d ∈ reported, d.validator = v ∧ d.amount = coin := by
  have honce : ((reported.map fun d => (d.validator, d.amount)).map Prod.fst).Nodup := by
    rw [List.map_map]
    exact once
  rw [movable, Option.filter_eq_some_iff, delegationMap_getElem?, lastWrite_eq_some_iff honce,
    List.mem_map]
  simp only [Prod.mk.injEq, ne_eq, decide_not, Bool.not_eq_eq_eq_not, Bool.not_true,
    decide_eq_false_iff_not, Nat.pos_iff_ne_zero]
  exact and_comm

section Runs

variable {b : Bech32} {deps : Deps} {info : MessageInfo} {validators : List String}
  {st₀ st : Storage} {tr : List (Call × Storage)}

/-- **Redelegation moves every coin of the excluded validators and nothing else.**
In every state of a registry with a registered validator, and for every list of
delegations that names each validator once, the messages are one
`RedelegateProxy` for each excluded validator with a delegation and none for any
other; each moves that delegation, whole; and the hub makes of it the
redelegations that it lists. -/
theorem redelegations_move_everything (law : b.RoundTrips) (bech32 : deps.bech32 = b)
    (names : deps.NamesByOperator)
    (created : instantiate deps info hubContract validators = .ok st₀)
    (run : Run (LawfulStep b) st₀ tr st) (active : ∃ v, v ∈ st.validatorRegistry) (deps' : Deps)
    {reported : List Delegation} (answer : deps'.allDelegations st.config.hubContract = reported)
    (once : (reported.map (·.validator)).Nodup)
    (fits : (reported.map (·.amount.amount)).sum < 2 ^ 128) :
    ∃ plans : List (String × List (String × Coin)),
      processRedelegations deps' st = .ok (plans.map (proxyMsg st.config.hubContract)) ∧
      (plans.map Prod.fst).Nodup ∧
      (∀ v, v ∈ plans.map Prod.fst ↔ v ∈ st.validatorExcludeList ∧
        ∃ d ∈ reported, d.validator = v ∧ 0 < d.amount.amount) ∧
      (∀ plan ∈ plans, ∀ d ∈ reported, d.validator = plan.1 → MovesAll st d.amount plan.2) ∧
      ∀ plan ∈ plans, ∀ (hub : Hub.Storage) (env : Env) (caller : MessageInfo),
        hub.config.validatorsRegistryContract = some caller.sender →
        Hub.executeRedelegateProxy hub env caller plan.1 plan.2 =
          .ok (hub, { messages := plan.2.map fun e =>
            .wrappedBeginRedelegate env.contract plan.1 e.1 e.2 }) := by
  have hnamed := run_wellNamed law bech32 names created run
  obtain ⟨v₀, hv₀⟩ := active
  have hne : queryValidators deps' st ≠ [] := queryValidators_ne_nil hv₀
  have hok := processRedelegations_eq hne fun v hv => by
    have hle := hnamed.sum_le law hv reported
    rw [delegatedTo_delegationMap] at hle
    rw [queryValidators, answer]
    exact hle.trans_lt fits
  refine ⟨st.plans deps', hok, ?_, fun v => ?_, fun plan hplan d hd hv => ?_,
    fun plan _ hub env caller registry => executeRedelegateProxy_eq env registry _ _⟩
  · rw [Storage.plans, map_fst_plansFor]
    exact ExtTreeMap.nodup_keys.filter _
  · rw [Storage.plans, map_fst_plansFor, List.mem_filter, ExtTreeMap.mem_keys,
      Option.isSome_iff_exists, answer]
    refine and_congr_right fun _ => ?_
    constructor
    · rintro ⟨coin, hcoin⟩
      obtain ⟨hpos, d, hd, hv, rfl⟩ := (movable_iff once).1 hcoin
      exact ⟨d, hd, hv, hpos⟩
    · rintro ⟨d, hd, hv, hpos⟩
      exact ⟨d.amount, (movable_iff once).2 ⟨hpos, d, hd, hv, rfl⟩⟩
  · obtain ⟨coin, hcoin, hsplit⟩ := mem_plansFor hplan
    rw [answer] at hcoin
    obtain ⟨-, d', hd', hv', rfl⟩ := (movable_iff once).1 hcoin
    obtain rfl := List.inj_on_of_nodup_map once hd hd' (hv.trans hv'.symm)
    rw [hsplit]
    exact splitOver_movesAll hne (queryValidators_addresses deps' st) hnamed.nodup_addresses _

/-- The sample registry after one of its two validators is removed. -/
def sampleRemoved : Storage :=
  (sampleStorage [sampleValidator, otherValidator]).afterCall (.removeValidator sampleAccount)

theorem sampleRemoved_run : Run (LawfulStep accountBech32)
    (sampleStorage [sampleValidator, otherValidator])
    [(ownerCall (.removeValidator sampleAccount), sampleRemoved)] sampleRemoved :=
  .single ⟨⟨[], rfl⟩, rfl, sampleDeps_namesByOperator []⟩

theorem sampleRemoved_created :
    instantiate (sampleDeps []) ⟨"owner", []⟩ "hub" [sampleValidator, otherValidator] =
      .ok (sampleStorage [sampleValidator, otherValidator]) := by rfl

/-- All 100 of the removed validator go to the other. -/
theorem redelegations_move_everything_sample :
    ∃ plans : List (String × List (String × Coin)),
      processRedelegations (sampleDeps [sampleDelegation sampleValidator 100]) sampleRemoved =
        .ok (plans.map (proxyMsg sampleRemoved.config.hubContract)) ∧
      plans.map Prod.fst = [sampleValidator] ∧
      ∀ plan ∈ plans, MovesAll sampleRemoved ⟨"ubbn", 100⟩ plan.2 := by
  obtain ⟨plans, hok, hnodup, hmem, hmoves, -⟩ := redelegations_move_everything
    accountBech32_roundTrips rfl (sampleDeps_namesByOperator []) sampleRemoved_created
    sampleRemoved_run
    ⟨otherValidator, by decide +kernel⟩ (sampleDeps [sampleDelegation sampleValidator 100]) rfl
    (by decide) (by decide)
  have hfirst : ∀ v, v ∈ plans.map Prod.fst ↔ v = sampleValidator := by
    intro v
    rw [hmem]
    constructor
    · rintro ⟨-, d, hd, rfl, -⟩
      rw [List.mem_singleton.1 hd]
      rfl
    · rintro rfl
      exact ⟨by decide +kernel, _, List.mem_singleton_self _, rfl, by decide⟩
  have hone : plans.map Prod.fst = [sampleValidator] :=
    List.perm_singleton.1 ((List.perm_ext_iff_of_nodup hnodup (List.nodup_singleton _)).2
      fun v => (hfirst v).trans List.mem_singleton.symm)
  refine ⟨plans, hok, hone, fun plan hplan => ?_⟩
  have hv := (hfirst plan.1).1 (List.mem_map_of_mem hplan)
  exact hmoves plan hplan _ (List.mem_singleton_self _) hv.symm

end Runs

end Registry
end BabyLst
