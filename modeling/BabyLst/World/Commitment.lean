/-
# What an epoch commits

Within a staking epoch the chain keeps the hub's messages for its end, so the
delegations that it reports stay as they are, whatever has been queued.  The hub
plans its undelegations, and the registry its redelegations, from these reported
delegations, and neither looks at what is queued: a `ProcessRedelegations` takes
all that an excluded validator has (`committed_proxiedIn`), each time it is
called, and a closing of the batch takes from the validators above their targets
(`Call.commits`).

Hence, in an epoch with at most one closing, no more is committed from a
validator than it has exactly when at most one of the calls takes from it
(`commitment_within_delegation`).
-/

import BabyLst.Common.Balance
import BabyLst.Registry.Status
import BabyLst.World.Queue

namespace BabyLst

open Lib Std

variable {T : Type} {d : Deployment T}

/-! ### What is taken from one holding -/

/-- **What calls take from a holding**: some of them all of it, which is then not
nothing, others a part of it, of which there are no more than closings. -/
def Taken (held taken closings calls : ℕ) : Prop :=
  ∃ whole parts drawn, taken = whole * held + drawn ∧ parts ≤ drawn ∧ drawn ≤ parts * held ∧
    parts ≤ closings ∧ calls = whole + parts ∧ (0 < whole → 0 < held)

theorem Taken.nothing (held closings : ℕ) : Taken held 0 closings 0 :=
  ⟨0, 0, 0, by omega, by omega, by omega, by omega, by omega, by omega⟩

/-- All of a holding that is not empty is taken. -/
theorem Taken.all {held : ℕ} (closings : ℕ) (pos : 0 < held) : Taken held held closings 1 :=
  ⟨1, 0, 0, by omega, by omega, by omega, by omega, by omega, fun _ => pos⟩

/-- A closing takes a part. -/
theorem Taken.part {held taken : ℕ} (pos : 0 < taken) (le : taken ≤ held) :
    Taken held taken 1 1 :=
  ⟨0, 1, taken, by omega, by omega, by omega, by omega, by omega, by omega⟩

theorem Taken.add {held taken taken' closings closings' calls calls' : ℕ}
    (h : Taken held taken closings calls) (h' : Taken held taken' closings' calls') :
    Taken held (taken + taken') (closings + closings') (calls + calls') := by
  obtain ⟨whole, parts, drawn, rfl, hlow, hhigh, hparts, rfl, hheld⟩ := h
  obtain ⟨whole', parts', drawn', rfl, hlow', hhigh', hparts', rfl, hheld'⟩ := h'
  refine ⟨whole + whole', parts + parts', drawn + drawn', ?_, by omega, ?_, by omega, by omega, ?_⟩
  · rw [Nat.add_mul]
    omega
  · rw [Nat.add_mul]
    omega
  · intro hpos
    rcases Nat.eq_zero_or_pos whole with hzero | hwhole
    · exact hheld' (by omega)
    · exact hheld hwhole

/-- **With at most one closing**, no more is taken than is held exactly when at
most one call takes. -/
theorem Taken.le_iff {held taken closings calls : ℕ} (h : Taken held taken closings calls)
    (once : closings ≤ 1) : taken ≤ held ↔ calls ≤ 1 := by
  obtain ⟨whole, parts, drawn, rfl, hlow, hhigh, hparts, rfl, hheld⟩ := h
  rcases Nat.eq_zero_or_pos whole with rfl | hwhole
  · -- the parts of at most one closing
    have hone : parts * held ≤ 1 * held := Nat.mul_le_mul_right held (by omega)
    constructor
    · omega
    · omega
  · have hpos := hheld hwhole
    obtain ⟨more, rfl⟩ : ∃ more, whole = 1 + more := Nat.exists_eq_add_of_le hwhole
    have hmul : (1 + more) * held = held + more * held := by rw [Nat.add_mul, Nat.one_mul]
    have hmore : more ≤ more * held := Nat.le_mul_of_pos_right more hpos
    constructor
    · intro hle
      omega
    · intro hle
      obtain rfl : more = 0 := by omega
      obtain rfl : parts = 0 := by omega
      omega

/-! ### What a queue takes from a validator -/

/-- What a message takes from a validator. -/
def StakingMsg.takes (v : String) : StakingMsg → ℕ
  | .delegate _ _ => 0
  | .undelegate validator amount => if validator = v then amount else 0
  | .redelegate src _ amount => if src = v then amount else 0

/-- What the messages of a queue take from a validator. -/
def committed (v : String) (queue : List StakingMsg) : ℕ := (queue.map (StakingMsg.takes v)).sum

@[simp] theorem committed_append (v : String) (l l' : List StakingMsg) :
    committed v (l ++ l') = committed v l + committed v l' := by
  simp [committed]

/-- Delegations take nothing. -/
theorem committed_delegate {α : Type} (v : String) (l : List α) (validator : α → String)
    (amount : α → ℕ) : committed v (l.map fun e => .delegate (validator e) (amount e)) = 0 := by
  refine List.sum_eq_zero fun n hn => ?_
  simp only [List.map_map, List.mem_map, Function.comp] at hn
  obtain ⟨e, -, rfl⟩ := hn
  rfl

/-- The redelegations from one validator take what they move, all from it. -/
theorem committed_redelegate (v src : String) (redelegations : List (String × Coin)) :
    committed v (redelegations.map fun e => .redelegate src e.1 e.2.amount) =
      if src = v then (redelegations.map (·.2.amount)).sum else 0 := by
  unfold committed
  rw [List.map_map]
  induction redelegations with
  | nil => simp
  | cons e rest ih =>
    simp only [List.map_cons, List.sum_cons, Function.comp_apply, StakingMsg.takes, ih]
    split_ifs <;> rfl

/-! ### What a plan takes from a validator -/

/-- What a plan has for a validator. -/
def drawnFrom (v : String) (validators : List ValidatorResponse) (plan : List ℕ) : ℕ :=
  ((validators.zip plan).map fun e => if e.1.address = v then e.2 else 0).sum

/-- The undelegations of a plan take what it has for the validator. -/
theorem committed_undelegate (v : String) (validators : List ValidatorResponse) (plan : List ℕ) :
    committed v (((validators.zip plan).filter fun e => e.2 ≠ 0).map
      fun e => .undelegate e.1.address e.2) = drawnFrom v validators plan := by
  unfold committed drawnFrom
  induction validators.zip plan with
  | nil => rfl
  | cons e rest ih =>
    by_cases he : e.2 = 0
    · simp [he, ← ih]
    · simp [he, ← ih, StakingMsg.takes]

/-- **A plan takes from whom it has an entry for.** -/
theorem drawnFrom_pos_iff (v : String) (validators : List ValidatorResponse) (plan : List ℕ) :
    0 < drawnFrom v validators plan ↔
      ∃ i < validators.length, (validators.map (·.address))[i]? = some v ∧ 0 < plan.getD i 0 := by
  induction validators generalizing plan with
  | nil => simp [drawnFrom]
  | cons r validators ih =>
    cases plan with
    | nil => simp [drawnFrom]
    | cons n plan =>
      have hsum : drawnFrom v (r :: validators) (n :: plan) =
        (if r.address = v then n else 0) + drawnFrom v validators plan := rfl
      rw [hsum]
      constructor
      · intro hpos
        rcases Nat.eq_zero_or_pos (drawnFrom v validators plan) with hzero | hrest
        · refine ⟨0, by simp, ?_⟩
          rw [hzero, Nat.add_zero] at hpos
          split_ifs at hpos with heq
          · exact ⟨by simp [heq], hpos⟩
          · omega
        · obtain ⟨i, hi, hv, hn⟩ := (ih plan).1 hrest
          exact ⟨i + 1, by simpa using hi, by simpa using hv, by simpa using hn⟩
      · rintro ⟨i, hi, hv, hn⟩
        cases i with
        | zero =>
          have heq : r.address = v := by simpa using hv
          have hpos : 0 < n := hn
          rw [if_pos heq]
          omega
        | succ i =>
          have hrest := (ih plan).2 ⟨i, by simpa using hi, by simpa using hv, by simpa using hn⟩
          omega

/-- **A plan that takes from nobody more than is there** takes no more from a
validator than it has, if it is listed once. -/
theorem drawnFrom_le {v : String} {validators : List ValidatorResponse} {plan : List ℕ} {held : ℕ}
    (once : (validators.map (·.address)).Nodup)
    (plan_le : List.Forall₂ (· ≤ ·) plan (delegationsOf validators))
    (held_eq : ∀ r ∈ validators, r.address = v → r.totalDelegated ≤ held) :
    drawnFrom v validators plan ≤ held := by
  induction validators generalizing plan with
  | nil => simp [drawnFrom]
  | cons r validators ih =>
    cases plan with
    | nil => simp [drawnFrom]
    | cons n plan =>
      obtain ⟨hn, hrest⟩ := List.forall₂_cons.1 plan_le
      obtain ⟨hnot, honce⟩ := List.nodup_cons.1 once
      have hsum : drawnFrom v (r :: validators) (n :: plan) =
        (if r.address = v then n else 0) + drawnFrom v validators plan := rfl
      have hle := ih honce hrest fun r' hr' => held_eq r' (List.mem_cons_of_mem _ hr')
      rw [hsum]
      by_cases heq : r.address = v
      · have hzero : drawnFrom v validators plan = 0 := by
          by_contra hne
          obtain ⟨i, -, hv, -⟩ := (drawnFrom_pos_iff v validators plan).1 (by omega)
          refine hnot ?_
          show r.address ∈ _
          rw [heq]
          exact List.mem_of_getElem? hv
        have hheld : r.totalDelegated ≤ held := held_eq r List.mem_cons_self heq
        have hn' : n ≤ r.totalDelegated := hn
        rw [if_pos heq]
        omega
      · rw [if_neg heq]
        omega

/-- **An amount that is undelegated reaches the validator**: it is listed and
above its target, and the ones listed before it do not exceed theirs by the
amount. -/
def Reaches (amt : ℕ) (validators : List ValidatorResponse) (v : String) : Prop :=
  ∃ i < validators.length, (validators.map (·.address))[i]? = some v ∧
    0 < (excesses amt validators).getD i 0 ∧ ((excesses amt validators).take i).sum < amt

instance (amt : ℕ) (validators : List ValidatorResponse) (v : String) :
    Decidable (Reaches amt validators v) := inferInstanceAs (Decidable (∃ i < _, _))

/-- A plan takes from the validators that are reached. -/
theorem drawnFrom_pos_iff_reaches {v : String} {validators : List ValidatorResponse} {amt : ℕ}
    {plan : List ℕ} (h : calculateUndelegations amt validators = .ok plan) :
    0 < drawnFrom v validators plan ↔ Reaches amt validators v := by
  rw [drawnFrom_pos_iff, calculateUndelegations_eq_fill h]
  simp only [fill_pos_iff, Reaches]

/-! ### The reported delegations -/

/-- The hub's delegation to a validator, as the chain has it. -/
def Books.delegation (b : Books) (v : String) : ℕ := b.delegations[v]?.getD 0

/-- **The registry reads what the chain has.** -/
theorem delegatedTo_registryDeps (ds : ExtTreeMap String ℕ) (hub : Addr) (v : String) :
    Registry.delegatedTo
        (Registry.delegationMap ((registryDeps d ds).allDelegations hub)) v =
      if hub = d.hub then ds[v]?.getD 0 else 0 := by
  rw [Registry.delegatedTo_delegationMap, Registry.hubDelegation]
  simp only [registryDeps]
  split_ifs with hhub
  · rw [delegationList, List.map_map]
    show (lastWrite (ds.toList.map fun e => e) v).getD 0 = _
    rw [List.map_id', lastWrite_toList]
  · rfl

/-- The registered validators, with what the chain has, or nothing if the registry
asks about another hub. -/
theorem queryValidators_held {b : Books} (v : String) :
    ∀ r ∈ Registry.queryValidators (registryDeps d b.delegations) b.registry,
      r.address = v → r.totalDelegated ≤ b.delegation v := by
  rintro r hr rfl
  have hr' := (Registry.queryValidators_perm _ _).mem_iff.1 hr
  obtain ⟨e, -, rfl⟩ := List.mem_map.1 hr'
  show Registry.delegatedTo _ e.2 ≤ _
  rw [delegatedTo_registryDeps]
  split_ifs
  · exact le_rfl
  · exact Nat.zero_le _

/-- The registered validators are listed under different addresses. -/
theorem queryValidators_nodup {b : Books} (named : b.registry.WellNamed d.bech32) :
    ((Registry.queryValidators (registryDeps d b.delegations) b.registry).map
      (·.address)).Nodup := by
  have hperm := (Registry.queryValidators_perm (registryDeps d b.delegations) b.registry).map
    (·.address)
  rw [hperm.nodup_iff, Registry.registered, List.map_map]
  exact named.nodup_addresses

/-! ### Redelegating -/

/-- What one excluded validator has is taken from it. -/
theorem committed_redelegationsOf {hubContract : Addr} {delegations : ExtTreeMap String Coin}
    {active : List ValidatorResponse} {u : String} {messages : List CosmosMsg} (v : String)
    (h : Registry.redelegationsOf hubContract delegations active u = .ok messages) :
    committed v (proxiedIn messages) = if u = v then Registry.delegatedTo delegations u else 0 := by
  rcases Registry.redelegationsOf_ok h with ⟨hzero, rfl⟩ | ⟨-, rs, rfl, -, hsum⟩
  · rw [hzero, ite_self]
    rfl
  · rw [← hsum, ← committed_redelegate]
    simp [proxiedIn]

/-- Each excluded validator is gone through once. -/
theorem committed_redelegateLoop {hubContract : Addr} {delegations : ExtTreeMap String Coin}
    {active : List ValidatorResponse} {excluded : List String} (v : String)
    (once : excluded.Nodup) :
    ∀ {messages : List CosmosMsg},
      Registry.redelegateLoop hubContract delegations active excluded = .ok messages →
      committed v (proxiedIn messages) =
        if v ∈ excluded then Registry.delegatedTo delegations v else 0 := by
  induction excluded with
  | nil =>
    intro messages h
    rw [Registry.redelegateLoop, pure_eq_ok] at h
    rw [← h]
    rfl
  | cons u rest ih =>
    intro messages h
    obtain ⟨hnot, hrest⟩ := List.nodup_cons.1 once
    simp only [Registry.redelegateLoop, bind_eq_ok, pure_eq_ok] at h
    obtain ⟨first, hfirst, others, hothers, rfl⟩ := h
    have happend : proxiedIn (first ++ others) = proxiedIn first ++ proxiedIn others :=
      List.flatMap_append
    rw [happend, committed_append, committed_redelegationsOf v hfirst, ih hrest hothers]
    by_cases heq : u = v
    · subst heq
      simp [hnot]
    · simp [heq, Ne.symm heq]

/-- **A redelegation takes all that an excluded validator has**, if the registry
asks about the hub. -/
theorem committed_proxiedIn {b : Books} {messages : List CosmosMsg} (v : String)
    (h : Registry.processRedelegations (registryDeps d b.delegations) b.registry = .ok messages) :
    committed v (proxiedIn messages) =
      if v ∈ b.registry.validatorExcludeList ∧ b.registry.config.hubContract = d.hub then
        b.delegation v else 0 := by
  have hsplit : ∀ held : ℕ, (if v ∈ b.registry.validatorExcludeList then
      if b.registry.config.hubContract = d.hub then held else 0 else 0) =
        if v ∈ b.registry.validatorExcludeList ∧ b.registry.config.hubContract = d.hub then held
        else 0 := fun held => by rw [← ite_and]
  rw [← hsplit, Books.delegation, ← delegatedTo_registryDeps]
  unfold Registry.processRedelegations at h
  split_ifs at h with hempty
  · rw [pure_eq_ok] at h
    have hnot : v ∉ b.registry.validatorExcludeList := by
      rw [ExtTreeMap.isEmpty_iff.1 hempty]
      exact ExtTreeMap.not_mem_empty
    rw [← h, if_neg hnot]
    rfl
  · rw [committed_redelegateLoop v ExtTreeMap.nodup_keys h]
    simp only [ExtTreeMap.mem_keys]

/-! ### Closing the batch -/

/-- The rate that the check for slashing finds. -/
def Accounts.checkedRate (a : Accounts) : Decimal :=
  if a.listed = false ∨ a.staked - a.toStake + a.toUnstake = 0 then a.rate
  else Hub.rateOf
    (if a.delegated < a.staked - a.toStake + a.toUnstake then a.delegated + a.toStake - a.toUnstake
      else a.staked) (a.supply + a.requested)

theorem Accounts.Check.checkedRate_eq {a a' : Accounts} (h : a.Check a') :
    a'.rate = a.checkedRate := by
  unfold checkedRate
  cases h with
  | unlisted hl => rw [if_pos (.inl hl)]
  | nothing hl le zero => rw [if_pos (.inr zero)]
  | @full staked hl le pos staked_eq =>
    rw [if_neg (not_or_intro (by simp [hl]) pos)]
    show Hub.rateOf staked (a.supply + a.requested) = _
    split_ifs at staked_eq ⊢
    · rw [staked_eq.2]
    · rw [staked_eq]

/-- The validators that the registry reports to the hub. -/
def Books.validators (d : Deployment T) (b : Books) : List ValidatorResponse :=
  Registry.queryValidators (registryDeps d b.delegations) b.registry

/-- The coins that are undelegated for the batch and an amount requested on top,
at the rate that the check for slashing finds. -/
def Books.undelegated (b : Books) (amount : ℕ) : ℕ :=
  b.accounts.checkedRate.mulFloor (b.hub.currentBatch.requestedLstTokenAmount + amount)

/-- What a call requests on top of the batch that it closes, if it closes one. -/
def Books.closing (b : Books) : Action → Option ℕ
  | .transact _ _ (.hub msg) _ => b.hub.closing b.block.time msg
  | .transact sender _ (.token (.send _ amount msg)) _ =>
    b.hub.closing b.block.time (.receive ⟨sender, amount, msg⟩)
  | .transact sender _ (.token (.sendFrom _ _ amount msg)) _ =>
    b.hub.closing b.block.time (.receive ⟨sender, amount, msg⟩)
  | _ => none

/-- **A closing takes from a validator** that what is undelegated reaches. -/
def Books.Draws (d : Deployment T) (b : Books) (v : String) (closing : Option ℕ) : Prop :=
  ∃ amount ∈ closing, Reaches (b.undelegated amount) (b.validators d) v

instance (b : Books) (v : String) (closing : Option ℕ) : Decidable (b.Draws d v closing) :=
  inferInstanceAs (Decidable (∃ amount ∈ closing, _))

/-- The action is a call of `ProcessRedelegations`. -/
def Action.redelegates : Action → Bool
  | .transact _ _ (.registry .processRedelegations) _ => true
  | _ => false

/-- **An action takes from a validator**: it is a call of `ProcessRedelegations`
while the validator is excluded and has a delegation, or it closes the batch and
what is undelegated reaches the validator. -/
def Books.Takes (d : Deployment T) (b : Books) (act : Action) (v : String) : Prop :=
  (act.redelegates = true ∧ v ∈ b.registry.validatorExcludeList ∧
    b.registry.config.hubContract = d.hub ∧ 0 < b.delegation v) ∨
  b.Draws d v (b.closing act)

instance (b : Books) (act : Action) (v : String) : Decidable (b.Takes d act v) :=
  inferInstanceAs (Decidable (_ ∨ _))

/-- **What a step commits from a validator**, with the closings and the calls that
it is taken by. -/
def Books.Commits (v : String) (b b' : Books) (calls : ℕ) : Prop :=
  ∃ taken closings, committed v b'.queue = committed v b.queue + taken ∧
    b'.hub.currentBatch.id = b.hub.currentBatch.id + closings ∧
    Taken (b.delegation v) taken closings calls

/-- What queues nothing and leaves the batch commits nothing. -/
theorem Books.Commits.still {v : String} {b b' : Books} (hqueue : b'.queue = b.queue)
    (hid : b'.hub.currentBatch.id = b.hub.currentBatch.id) : b.Commits v b' 0 :=
  ⟨0, 0, by rw [hqueue, Nat.add_zero], hid, .nothing _ 0⟩

/-- The batch is the next one after a closing. -/
theorem Hub.Effect.closing_id {q : Querier} {st hub : Hub.Storage} {env : Env} {info : MessageInfo}
    {msg : HubMsg} {res : Response} (h : Hub.Effect q st env info msg hub res) :
    hub.currentBatch.id = st.currentBatch.id +
      if (st.closing env.block.time msg).isSome then 1 else 0 := by
  have looked : ∀ {st₀ : Hub.Storage} {batch : Hub.CurrentBatch} {amount : ℕ}
      {messages : List CosmosMsg}, st₀.parameters = st.parameters → st₀.state = st.state →
      Hub.Completion q st₀ env (st.currentBatch.plus amount) hub batch messages →
      hub.currentBatch.id = st.currentBatch.id +
        if (if st.Due env.block.time then some amount else none).isSome then 1 else 0 := by
    intro st₀ batch amount messages hparams hstate h
    cases h with
    | stillOpen actual le early =>
      rw [hstate, hparams] at early
      have hopen : ¬st.Due env.block.time := Nat.not_lt.2 early
      simp [hopen, Hub.CurrentBatch.plus]
    | closed actual le due =>
      rw [hstate, hparams] at due
      have hdue : st.Due env.block.time := due
      simp [hdue, Hub.CurrentBatch.plus]
  cases h with
  | @stake t st' res h =>
    obtain ⟨-⟩ := h
    cases t <;> rfl
  | @unstake msg sender amount flow batch messages token st' res msg_eq token_eq h =>
    have hnoted := looked (show (st.noted sender amount).parameters = st.parameters from rfl)
      (show (st.noted sender amount).state = st.state from rfl) h
    rcases msg_eq with ⟨rfl, -⟩ | ⟨rfl, -⟩
    · exact hnoted
    · exact hnoted
  | @withdraw batchIds st' res h =>
    obtain ⟨-⟩ := h
    cases batchIds <;> rfl
  | nothingRequested hz =>
    have hclosing : st.closing env.block.time .processUndelegations = none :=
      if_neg fun hdue => hdue.1 hz
    rw [hclosing]
    rfl
  | @processUndelegations batch st' res ne h =>
    have h' : Hub.Completion q st env (st.currentBatch.plus 0) hub batch res.messages := h
    have hclosing : st.closing env.block.time .processUndelegations =
        if st.Due env.block.time then some 0 else none :=
      if_congr (and_iff_right ne) rfl rfl
    rw [hclosing]
    exact looked rfl rfl h'
  | _ => rfl

/-- **A call of the hub commits** what a closing draws, and nothing otherwise. -/
theorem Call.commits {b b' : Books} {info : MessageInfo} {msg : HubMsg} (h : Call d b info msg b')
    (direct : msg.Direct) (regular : b.Regular d) (named : b.registry.WellNamed d.bech32)
    (v : String) :
    b.Commits v b' (if b.Draws d v (b.hub.closing b.block.time msg) then 1 else 0) := by
  obtain @⟨q, hub, res, answers, effect, -, -⟩ := h
  have hid : hub.currentBatch.id = b.hub.currentBatch.id +
    if (b.hub.closing b.block.time msg).isSome then 1 else 0 := effect.closing_id
  have hq : Hub.Queues q b.hub ⟨b.block, d.hub⟩ msg hub (b.hub.closing b.block.time msg)
    (queuedIn res.messages) := effect.queues
  have hqueue : ∀ queued,
      committed v (b.queue ++ queued) = committed v b.queue + committed v queued :=
    committed_append v b.queue
  show ∃ taken closings, committed v (b.queue ++ queuedIn res.messages) = _ ∧
    hub.currentBatch.id = _ ∧ _
  rw [hqueue, hid]
  generalize queuedIn res.messages = queued at hq
  generalize b.hub.closing b.block.time msg = closing at hq
  -- without a closing nothing is drawn
  have open' : ∀ queued, committed v queued = 0 → ∃ taken closings,
      committed v b.queue + committed v queued = committed v b.queue + taken ∧
      b.hub.currentBatch.id + (if (none : Option ℕ).isSome then 1 else 0) =
        b.hub.currentBatch.id + closings ∧
      Taken (b.delegation v) taken closings (if b.Draws d v none then 1 else 0) := by
    intro queued hzero
    have hnot : ¬b.Draws d v none := by
      rintro ⟨amount, hamount, -⟩
      cases hamount
    rw [hzero, if_neg hnot]
    exact ⟨0, 0, rfl, rfl, .nothing _ 0⟩
  cases hq with
  | nothing => exact open' [] rfl
  | stake => exact open' _ (committed_delegate v _ _ _)
  | redelegate msg_eq => exact absurd msg_eq (direct _ _)
  | @close amount state registry validators plan start_le actual answer plan_eq =>
    obtain ⟨-, rfl⟩ := answers.validators _ _ answer
    have hcheck := actual.accounts answers regular rfl rfl rfl
    have hrate : state.lstExchangeRate = b.accounts.checkedRate := hcheck.checkedRate_eq
    rw [hrate] at plan_eq
    have hle := (calculateUndelegations_sum plan_eq).2.2.2.2
    have hheld := drawnFrom_le (queryValidators_nodup named) hle (queryValidators_held v)
    have hpos := drawnFrom_pos_iff_reaches (v := v) plan_eq
    have hdraws : b.Draws d v (some amount) ↔ 0 < drawnFrom v (b.validators d) plan :=
      ⟨fun ⟨_, hamount, hreach⟩ => hpos.2 (Option.some.inj hamount ▸ hreach),
        fun h => ⟨amount, rfl, hpos.1 h⟩⟩
    rw [committed_undelegate]
    refine ⟨_, 1, rfl, rfl, ?_⟩
    split_ifs with hd
    · exact .part (hdraws.1 hd) hheld
    · have hzero : drawnFrom v (b.validators d) plan = 0 := by
        rw [hdraws] at hd
        omega
      show Taken _ (drawnFrom v (b.validators d) plan) 1 0
      rw [hzero]
      exact .nothing _ 1

/-! ### Transactions -/

theorem Books.Commits.trans {v : String} {b b₁ b' : Books} {calls calls' : ℕ}
    (h : b.Commits v b₁ calls) (h' : b₁.Commits v b' calls')
    (same : b₁.delegations = b.delegations) : b.Commits v b' (calls + calls') := by
  obtain ⟨taken, closings, hqueue, hid, htaken⟩ := h
  obtain ⟨taken', closings', hqueue', hid', htaken'⟩ := h'
  have hheld : b₁.delegation v = b.delegation v := by rw [delegation, same, delegation]
  rw [hheld] at htaken'
  exact ⟨taken + taken', closings + closings', by omega, by omega, htaken.add htaken'⟩

/-- A call changes neither the registry nor the delegations. -/
theorem Call.outside {b b' : Books} {info : MessageInfo} {msg : HubMsg} (h : Call d b info msg b') :
    b'.registry = b.registry ∧ b'.delegations = b.delegations := by
  obtain ⟨-⟩ := h
  exact ⟨rfl, rfl⟩

/-- A check closes no batch. -/
theorem Check.commits {b b' : Books} (h : Check d b b') (regular : b.Regular d)
    (named : b.registry.WellNamed d.bech32) (v : String) : b.Commits v b' 0 := by
  have hcommits := Call.commits h (fun _ _ h => by cases h) regular named v
  have hnot : ¬b.Draws d v (b.hub.closing b.block.time .checkSlashing) := by
    rintro ⟨amount, hamount, -⟩
    cases hamount
  rwa [if_neg hnot] at hcommits

/-- A request commits what its closing draws; the check that follows adds
nothing. -/
theorem Call.commits_checked {b b₁ b' : Books} {info : MessageInfo} {msg : HubMsg}
    (call : Call d b info msg b₁) (check : Check d b₁ b') (direct : msg.Direct)
    (regular : b.Regular d) (named : b.registry.WellNamed d.bech32) (v : String) :
    b.Commits v b' (if b.Draws d v (b.hub.closing b.block.time msg) then 1 else 0) := by
  obtain ⟨hregistry, hsame⟩ := call.outside
  have hcheck := Check.commits check (call.accounts regular).2 (hregistry ▸ named) v
  exact (call.commits direct regular named v).trans hcheck hsame

/-- What is no redelegation takes what its closing draws. -/
theorem Books.takes_iff_draws {b : Books} {act : Action} {v : String}
    (plain : act.redelegates = false) : b.Takes d act v ↔ b.Draws d v (b.closing act) := by
  refine or_iff_right fun h => ?_
  rw [plain] at h
  cases h.1

/-- What closes no batch and is no redelegation takes nothing. -/
theorem Books.not_takes {b : Books} {act : Action} {v : String} (plain : act.redelegates = false)
    (still : b.closing act = none) : ¬b.Takes d act v := by
  rw [takes_iff_draws plain, still]
  rintro ⟨amount, hamount, -⟩
  cases hamount

/-- **A call of `ProcessRedelegations`** takes all that an excluded validator
has. -/
theorem commits_redelegation {b : Books} {messages : List CosmosMsg} (sender contract : Addr)
    (funds : List Coin) (v : String)
    (h : Registry.processRedelegations (registryDeps d b.delegations) b.registry = .ok messages) :
    b.Commits v { b with queue := b.queue ++ proxiedIn messages }
      (if b.Takes d (.transact sender contract (.registry .processRedelegations) funds) v
        then 1 else 0) := by
  have htakes : b.Takes d (.transact sender contract (.registry .processRedelegations) funds) v ↔
      (v ∈ b.registry.validatorExcludeList ∧ b.registry.config.hubContract = d.hub) ∧
        0 < b.delegation v := by
    unfold Books.Takes
    rw [and_assoc]
    constructor
    · rintro (⟨-, hall⟩ | ⟨amount, hamount, -⟩)
      · exact hall
      · cases hamount
    · exact fun hall => .inl ⟨rfl, hall⟩
  refine ⟨committed v (proxiedIn messages), 0, committed_append v _ _, rfl, ?_⟩
  rw [committed_proxiedIn v h, if_congr htakes rfl rfl]
  by_cases hasks : v ∈ b.registry.validatorExcludeList ∧ b.registry.config.hubContract = d.hub
  · rw [if_pos hasks]
    rcases Nat.eq_zero_or_pos (b.delegation v) with hzero | hpos
    · rw [if_neg (by omega), hzero]
      exact .nothing _ 0
    · rw [if_pos ⟨hasks, hpos⟩]
      exact .all 0 hpos
  · rw [if_neg hasks, if_neg fun hall => hasks hall.1]
    exact .nothing _ 0

/-- **What a transaction commits.** -/
theorem Tx.commits {b b' : Books} {sender contract : Addr} {msg : ContractMsg} {funds : List Coin}
    (h : Tx d b msg b') (direct : ∀ m, msg = .hub m → m.Direct) (regular : b.Regular d)
    (named : b.registry.WellNamed d.bech32) (v : String) :
    b.Commits v b' (if b.Takes d (.transact sender contract msg funds) v then 1 else 0) := by
  cases h with
  | hub user plain call =>
    rw [if_congr (Books.takes_iff_draws rfl) rfl rfl]
    exact call.commits (direct _ rfl) regular named v
  | unstake user call check =>
    rw [if_congr (Books.takes_iff_draws rfl) rfl rfl]
    exact call.commits_checked check (direct _ rfl) regular named v
  | send sends call check =>
    have hcommits := call.commits_checked check (fun _ _ h => by cases h) regular named v
    rcases sends with ⟨c, m, rfl⟩ | ⟨o, c, m, rfl⟩
    · rw [if_congr (Books.takes_iff_draws rfl) rfl rfl]
      exact hcommits
    · rw [if_congr (Books.takes_iff_draws rfl) rfl rfl]
      exact hcommits
  | @burn m amount b' burns le check =>
    have hnone : b.closing (.transact sender contract (.token m) funds) = none := by
      rcases burns with rfl | ⟨owner, rfl⟩
      · rfl
      · rfl
    rw [if_neg (Books.not_takes rfl hnone)]
    exact Check.commits check (regular.burn amount) named v
  | @still m quiet =>
    have hnone : b.closing (.transact sender contract (.token m) funds) = none := by
      cases m with
      | send => cases quiet
      | sendFrom => cases quiet
      | _ => rfl
    rw [if_neg (Books.not_takes rfl hnone)]
    exact .still rfl rfl
  | @registry info m registry hx =>
    cases m with
    | processRedelegations =>
      simp only [Registry.execute, bind_eq_ok, pure_eq_ok, Prod.mk.injEq] at hx
      obtain ⟨messages, hx, rfl, rfl⟩ := hx
      have hcommits := commits_redelegation sender contract funds v hx
      have hnil : b.queue ++ proxiedIn [] = b.queue := List.append_nil _
      rwa [hnil] at hcommits
    | _ =>
      rw [if_neg (Books.not_takes rfl rfl)]
      exact .still rfl rfl
  | redelegate hx => exact commits_redelegation sender contract funds v hx

/-! ### Within an epoch -/

/-- The registry's calls keep its lists well named. -/
theorem Tx.wellNamed {b b' : Books} {msg : ContractMsg} (h : Tx d b msg b')
    (names : (registryDeps d b.delegations).NamesByOperator)
    (named : b.registry.WellNamed d.bech32) : b'.registry.WellNamed d.bech32 := by
  cases h with
  | hub user plain call => exact call.outside.1 ▸ named
  | unstake user call check => exact check.outside.1 ▸ call.outside.1 ▸ named
  | send sends call check => exact check.outside.1 ▸ call.outside.1 ▸ named
  | burn burns le check => exact (Call.outside check).1 ▸ named
  | still => exact named
  | @registry info m registry hx =>
    have hstep : Registry.LawfulStep d.bech32 b.registry ⟨registryDeps d b.delegations, info, m⟩
      registry := ⟨⟨[], hx⟩, rfl, names⟩
    exact hstep.wellNamed named
  | redelegate => exact named

/-- Transactions leave the delegations to the end of the epoch. -/
theorem Tx.delegations_eq {b b' : Books} {msg : ContractMsg} (h : Tx d b msg b') :
    b'.delegations = b.delegations := by
  cases h with
  | hub user plain call => exact call.outside.2
  | unstake user call check => exact (Call.outside check).2.trans call.outside.2
  | send sends call check => exact (Call.outside check).2.trans call.outside.2
  | burn burns le check => exact (Call.outside check).2
  | _ => rfl

theorem World.Step.wellNamed {w w' : World T} {act : Action} (h : w.Step d act w')
    (reached : w.Reached d) (names : (registryDeps d ∅).NamesByOperator)
    (named : w.registry.WellNamed d.bech32) : w'.registry.WellNamed d.bech32 := by
  obtain ⟨hmove, -, -⟩ := reached.exec h
  show (w'.books d).registry.WellNamed d.bech32
  generalize w'.books d = b' at hmove
  cases hmove with
  | transact tx => exact tx.wellNamed names named
  | _ => exact named

/-- **One step within an epoch**: no `RedelegateProxy` of a user, and where the
chain goes on, it stays in the epoch and keeps the delegations. -/
structure EpochStep (d : Deployment T) (w : World T) (act : Action) (w' : World T) : Prop where
  step : w.Step d act w'
  direct : act.Direct
  within : ∀ block delegations, act = .advance block delegations →
    d.epoch block.height = d.epoch w.block.height ∧ delegations = w.delegations

/-- **What a step within an epoch commits.** -/
theorem EpochStep.commits {w w' : World T} {act : Action} (h : EpochStep d w act w')
    (reached : w.Reached d) (named : w.registry.WellNamed d.bech32) (v : String) :
    (w.books d).Commits v (w'.books d) (if (w.books d).Takes d act v then 1 else 0) ∧
      w'.delegations = w.delegations := by
  obtain ⟨hmove, -, -⟩ := reached.exec h.step
  show _ ∧ (w'.books d).delegations = w.delegations
  have hwithin := h.within
  generalize w'.books d = b' at hmove
  cases hmove with
  | transact tx => exact ⟨tx.commits h.direct.msg reached.regular named v, tx.delegations_eq⟩
  | credit =>
    rw [if_neg (Books.not_takes rfl rfl)]
    exact ⟨.still rfl rfl, rfl⟩
  | @within block delegations height_le time_le same =>
    rw [if_neg (Books.not_takes rfl rfl)]
    exact ⟨.still rfl rfl, (hwithin block delegations rfl).2⟩
  | @enter block delegations height_le time_le later =>
    exact absurd (hwithin block delegations rfl).1 later

/-- The action, if it takes from the validator. -/
def takings (d : Deployment T) (v : String) (w : World T) (act : Action) : List Action :=
  if (w.books d).Takes d act v then [act] else []

theorem length_takings (v : String) (w : World T) (act : Action) :
    (takings d v w act).length = if (w.books d).Takes d act v then 1 else 0 := by
  unfold takings
  split_ifs <;> rfl

/-- **What an epoch commits is within the delegation exactly when** at most one of
its calls takes from the validator: in a part of an epoch with at most one
closing of a batch, the messages queued with a validator as their source move no
more than its delegation if and only if no two calls take from it. -/
theorem commitment_within_delegation {w₀ w w' : World T} {tr₀ tr : List (Action × World T)}
    (law : d.bech32.RoundTrips) (names : (registryDeps d ∅).NamesByOperator)
    (created : w₀.Created d) (run : Run (World.Step d) w₀ tr₀ w)
    (epoch : Run (EpochStep d) w tr w')
    (once : w'.hub.currentBatch.id ≤ w.hub.currentBatch.id + 1) (v : String) :
    committed v w'.queue ≤ committed v w.queue + w.delegations[v]?.getD 0 ↔
      (along (takings d v) w tr).length ≤ 1 := by
  obtain ⟨info, validators, hinst⟩ := created.registry_created
  have start : w.Reached d ∧ w.registry.WellNamed d.bech32 :=
    created.reached.1.invariant run id (Registry.instantiate_wellNamed law rfl names hinst)
      fun hreached hnamed hstep => World.Step.wellNamed hstep hreached names hnamed
  obtain ⟨-, -, hcommits, -⟩ := epoch.history (P := fun tr u => u.Reached d ∧
    u.registry.WellNamed d.bech32 ∧
    (w.books d).Commits v (u.books d) (along (takings d v) w tr).length ∧
    u.delegations = w.delegations) ⟨start.1, start.2, .still rfl rfl, rfl⟩ (by
      rintro tr t act u epoch ⟨hreached, hnamed, hcommits, hsame⟩ hstep
      obtain ⟨hnext, hkept⟩ := hstep.commits hreached hnamed v
      rw [epoch.along_concat, List.length_append, length_takings]
      exact ⟨(hreached.exec hstep.step).2.2,
        World.Step.wellNamed hstep.step hreached names hnamed, hcommits.trans hnext hsame,
        hkept.trans hsame⟩)
  obtain ⟨taken, closings, hqueue, hid, htaken⟩ := hcommits
  have hqueue' : committed v w'.queue = committed v w.queue + taken := hqueue
  have hid' : w'.hub.currentBatch.id = w.hub.currentBatch.id + closings := hid
  rw [← htaken.le_iff (by omega), hqueue']
  exact Nat.add_le_add_iff_left

/-! ### A sample epoch -/

theorem sampleDeployment_names : (registryDeps sampleDeployment ∅).NamesByOperator := by
  intro address v h
  simp only [registryDeps, sampleDeployment] at h
  split_ifs at h
  exact (Option.some.inj h).symm

/-- The line stays within the epoch. -/
def ScriptLine.inEpoch (w : World Token.Ledger) : ScriptLine → Bool
  | .send sender contract msg funds => (ScriptLine.send sender contract msg funds).direct
  | .credit _ => true
  | .passes block => sampleDeployment.epoch block.height = sampleDeployment.epoch w.block.height
  | .ends _ => false
  | .slashes _ _ _ => false

theorem World.line_inEpoch {w w' : World Token.Ledger} {line : ScriptLine} {act : Action}
    (h : w.line (fun w line => line.inEpoch w) line = some (act, w')) :
    EpochStep sampleDeployment w act w' := by
  obtain ⟨hstep, rfl, hin⟩ := World.line_sound h
  refine ⟨hstep, ?_, ?_⟩
  · cases line with
    | send => exact ScriptLine.direct_sound hin
    | _ => exact ScriptLine.direct_sound rfl
  · intro block delegations hact
    cases line with
    | passes block' =>
      obtain ⟨rfl, rfl⟩ := Action.advance.inj hact
      exact ⟨of_decide_eq_true hin, rfl⟩
    | ends => cases hin
    | slashes => cases hin
    | send => cases hact
    | credit => cases hact

/-- A message of a user to the registry. -/
def toRegistry (sender : Addr) (msg : RegistryMsg) : ScriptLine :=
  .send sender "registry" (.registry msg) []

/-- A new epoch, with 100 delegated to the validator. -/
def sampleEpoch : World Token.Ledger :=
  sampleEnd (sampleStake ++ [toToken "alice" (.increaseAllowance "hub" 100), .ends ⟨900, 8000⟩])

/-- In it the batch is closed with a request of 60, and the owner replaces the
validator. -/
def sampleReplaced : List ScriptLine :=
  [toHub "alice" (.unstake 60), .passes ⟨905, 8050⟩,
    toRegistry "owner" (.addValidator otherValidator),
    toRegistry "owner" (.removeValidator sampleValidator)]

/-- The 60 of the closing are all that is taken of the 100. -/
theorem commitment_within_delegation_sample :
    ∃ tr w, Run (EpochStep sampleDeployment) sampleEpoch tr w ∧
      committed sampleValidator w.queue = 60 ∧
      committed sampleValidator w.queue ≤ committed sampleValidator sampleEpoch.queue +
        sampleEpoch.delegations[sampleValidator]?.getD 0 := by
  have before := sampleRun (sampleStake ++ [toToken "alice" (.increaseAllowance "hub" 100),
    .ends ⟨900, 8000⟩]) (by decide +kernel)
  have epoch := playedFrom sampleEpoch sampleReplaced World.line_inEpoch (by decide +kernel)
  exact ⟨_, _, epoch, by decide +kernel,
    (commitment_within_delegation sampleBech32_roundTrips sampleDeployment_names
      sampleWorld_created before epoch (by decide +kernel) sampleValidator).2 (by decide +kernel)⟩

/-- **A closing and a redelegation commit more than there is**: after the 60 of
the closing, any user makes the registry redelegate all 100 that the chain still
reports. -/
theorem epoch_commits_more_than_delegated :
    ∃ tr₀ tr w, sampleWorld.Created sampleDeployment ∧
      Run (World.Step sampleDeployment) sampleWorld tr₀ sampleEpoch ∧
      Run (EpochStep sampleDeployment) sampleEpoch tr w ∧
      w.hub.currentBatch.id = sampleEpoch.hub.currentBatch.id + 1 ∧
      w.queue = [.undelegate sampleValidator 60, .redelegate sampleValidator otherValidator 100] ∧
      committed sampleValidator w.queue = 160 ∧
      sampleEpoch.delegations[sampleValidator]?.getD 0 = 100 := by
  have before := sampleRun (sampleStake ++ [toToken "alice" (.increaseAllowance "hub" 100),
    .ends ⟨900, 8000⟩]) (by decide +kernel)
  have epoch := playedFrom sampleEpoch
    (sampleReplaced ++ [toRegistry "bob" .processRedelegations]) World.line_inEpoch
    (by decide +kernel)
  exact ⟨_, _, _, sampleWorld_created, before, epoch, by decide +kernel⟩

end BabyLst
