/-
# The accounts

What the accounting of the hub comes down to is ten numbers: what it records as
staked, the rate, what is requested in the current batch, the token's supply,
the unclaimed and the bank balance, the pending amounts, and what the chain
reports as delegated.  `Accounts` is an abstract machine on these numbers, with
the six things a call of the hub can do to them (`Accounts.Call`) and the ways
out of the check for slashing (`Accounts.Check`).

`Call.accounts` connects it to the books, under what every world keeps
(`Books.Regular`): the pending record is that of the chain's staking epoch, and
its two amounts are what the queue of the chain holds.
-/

import BabyLst.World.Simulation

namespace BabyLst

open Lib Std

/-- The numbers of the hub's accounting. -/
@[ext] structure Accounts where
  /-- `total_staked_amount`. -/
  staked : ℕ
  /-- `lst_exchange_rate`. -/
  rate : Decimal
  /-- What is requested in the current batch. -/
  requested : ℕ
  /-- The supply of the token. -/
  supply : ℕ
  /-- `unclaimed_unstaked_balance`. -/
  unclaimed : ℕ
  /-- The hub's balance. -/
  bank : ℕ
  /-- The pending staking amount. -/
  toStake : ℕ
  /-- The pending unstaking amount. -/
  toUnstake : ℕ
  /-- What the chain reports as delegated. -/
  delegated : ℕ
  /-- The chain reports a delegation. -/
  listed : Bool

namespace Accounts

/-- Coins reach the hub. -/
def credit (a : Accounts) (funds : ℕ) : Accounts := { a with bank := a.bank + funds }

/-- The accounts with another stake, and the rate of it. -/
def restaked (a : Accounts) (staked : ℕ) : Accounts :=
  { a with
    staked := staked
    rate := Hub.rateOf staked (a.supply + a.requested) }

/-- A payment is staked and tokens are minted for it. -/
def stake (a : Accounts) (payment mint : ℕ) : Accounts :=
  { a with
    staked := a.staked + payment
    rate := Hub.rateOf (a.staked + payment) (a.supply + mint + a.requested)
    supply := a.supply + mint
    bank := a.bank + payment
    toStake := a.toStake + payment }

/-- Tokens are burned for a request that waits in the batch. -/
def request (a : Accounts) (amount : ℕ) : Accounts :=
  { a with
    requested := a.requested + amount
    supply := a.supply - amount }

/-- What the batch with `amount` more requested is worth. -/
def claim (a : Accounts) (amount : ℕ) : ℕ := a.rate.mulFloor (a.requested + amount)

/-- The batch is closed with `amount` more requested, whose tokens are burned. -/
def close (a : Accounts) (amount : ℕ) : Accounts :=
  { a with
    staked := a.staked - a.claim amount
    requested := 0
    supply := a.supply - amount
    toUnstake := a.toUnstake + a.claim amount }

/-- **The check for slashing.** -/
inductive Check (a : Accounts) : Accounts → Prop
  | unlisted (h : a.listed = false) : Check a a
  | nothing (h : a.listed = true) (le : a.toStake ≤ a.staked)
      (zero : a.staked - a.toStake + a.toUnstake = 0) : Check a a
  | full {staked : ℕ} (h : a.listed = true) (le : a.toStake ≤ a.staked)
      (pos : a.staked - a.toStake + a.toUnstake ≠ 0)
      (staked_eq : if a.delegated < a.staked - a.toStake + a.toUnstake then
          a.toUnstake ≤ a.delegated + a.toStake ∧ staked = a.delegated + a.toStake - a.toUnstake
        else staked = a.staked) : Check a (a.restaked staked)

/-- A check for slashing is about what is staked. -/
theorem Check.frame {a a' : Accounts} (h : a.Check a') :
    a'.requested = a.requested ∧ a'.supply = a.supply ∧ a'.unclaimed = a.unclaimed ∧
      a'.bank = a.bank ∧ a'.toStake = a.toStake ∧ a'.toUnstake = a.toUnstake ∧
      a'.delegated = a.delegated ∧ a'.listed = a.listed := by
  cases h <;> exact ⟨rfl, rfl, rfl, rfl, rfl, rfl, rfl, rfl⟩

/-- **A call of the hub**, and whether it checks for slashing. -/
inductive Call (a : Accounts) : Bool → Accounts → Prop
  | stake {t : Hub.StakeType} {payment mint : ℕ} {a₁ : Accounts} (check : a.Check a₁)
      (pos : 0 < payment) (minted : Hub.mintAmountOf t payment a₁.rate = .ok mint) :
      Call a true (a₁.stake payment mint)
  | request {amount : ℕ} {a₁ : Accounts} (funds : ℕ) (check : a.Check a₁)
      (le : amount ≤ a.supply) : Call a true ((a₁.request amount).credit funds)
  | close {amount : ℕ} {a₁ : Accounts} (funds : ℕ) (check : a.Check a₁) (le : amount ≤ a.supply)
      (enough : a₁.claim amount ≤ a₁.staked) (listed : a.listed = true) :
      Call a true ((a₁.close amount).credit funds)
  | check {a₁ : Accounts} (funds : ℕ) (check : a.Check a₁) : Call a true (a₁.credit funds)
  | pay {unclaimed sent : ℕ} (funds : ℕ)
      (enough : unclaimed + sent + a.toStake ≤ a.bank + funds) :
      Call a false { a with
        unclaimed := unclaimed
        bank := a.bank + funds - sent }
  | quiet (funds : ℕ) : Call a false (a.credit funds)

end Accounts

/-- What the delegations add up to. -/
def delegated (delegations : ExtTreeMap String ℕ) : ℕ := total (fun _ amount => amount) delegations

/-- **The accounts of the books.** -/
def Books.accounts (b : Books) : Accounts :=
  { staked := b.hub.state.totalStakedAmount
    rate := b.hub.state.lstExchangeRate
    requested := b.hub.currentBatch.requestedLstTokenAmount
    supply := b.supply
    unclaimed := b.hub.state.unclaimedUnstakedBalance
    bank := b.bank
    toStake := (b.hub.pendingDelegation.current b.block.height).1
    toUnstake := (b.hub.pendingDelegation.current b.block.height).2
    delegated := delegated b.delegations
    listed := !b.delegations.isEmpty }

variable {T : Type} {d : Deployment T}

/-- **What the books of a world keep**: the hub's denom is the chain's, and its
pending record is that of the chain's staking epoch, with the amounts of the
queue. -/
structure Books.Regular (d : Deployment T) (b : Books) : Prop where
  denom_eq : b.hub.parameters.stakingCoinDenom = d.denom
  length_eq : b.hub.pendingDelegation.stakingEpochLengthBlocks = d.init.stakingEpochLengthBlocks
  aligned : Aligned d.init.stakingEpochStartBlockHeight d.init.stakingEpochLengthBlocks
    b.hub.pendingDelegation.stakingEpochStartBlockHeight
  started : b.hub.pendingDelegation.stakingEpochStartBlockHeight ≤ b.block.height ∨
    b.hub.pendingDelegation.pendingStakingAmount = 0 ∧
      b.hub.pendingDelegation.pendingUnstakingAmount = 0
  pending_eq : b.hub.pendingDelegation.current b.block.height =
    (queuedStake b.queue, queuedUnstake b.queue)

/-! ### What the messages of the hub do -/

@[simp] theorem queuedStake_append (l l' : List StakingMsg) :
    queuedStake (l ++ l') = queuedStake l + queuedStake l' := by
  simp [queuedStake]

@[simp] theorem queuedUnstake_append (l l' : List StakingMsg) :
    queuedUnstake (l ++ l') = queuedUnstake l + queuedUnstake l' := by
  simp [queuedUnstake]

/-- **What messages do**: what they stake and unstake, send, mint and burn. -/
structure Emits (messages : List CosmosMsg) (stake unstake sent minted burned : ℕ) : Prop where
  stake_eq : queuedStake (queuedIn messages) = stake
  unstake_eq : queuedUnstake (queuedIn messages) = unstake
  sent_eq : sentIn messages = sent
  minted_eq : mintedIn messages = minted
  burned_eq : burnedIn messages = burned

theorem Emits.append {l l' : List CosmosMsg} {s u c m n s' u' c' m' n' : ℕ}
    (h : Emits l s u c m n) (h' : Emits l' s' u' c' m' n') :
    Emits (l ++ l') (s + s') (u + u') (c + c') (m + m') (n + n') := by
  constructor
  · rw [queuedIn_append, queuedStake_append, h.stake_eq, h'.stake_eq]
  · rw [queuedIn_append, queuedUnstake_append, h.unstake_eq, h'.unstake_eq]
  · rw [sentIn_append, h.sent_eq, h'.sent_eq]
  · rw [mintedIn_append, h.minted_eq, h'.minted_eq]
  · rw [burnedIn_append, h.burned_eq, h'.burned_eq]

theorem emits_nil : Emits [] 0 0 0 0 0 := ⟨rfl, rfl, rfl, rfl, rfl⟩

theorem emits_of_nil {l : List CosmosMsg} (h : l = []) : Emits l 0 0 0 0 0 := h ▸ emits_nil

/-- Messages that each do nothing do nothing. -/
theorem emits_none {l : List CosmosMsg} (h : ∀ m ∈ l, Emits [m] 0 0 0 0 0) :
    Emits l 0 0 0 0 0 := by
  induction l with
  | nil => exact emits_nil
  | cons m l ih =>
    exact (h m (List.mem_cons_self ..)).append (ih fun m' hm' => h m' (List.mem_cons_of_mem _ hm'))

theorem emits_delegateMsgs (denom : String) (a : Addr) {vs : List ValidatorResponse}
    {plan : List ℕ} {payment : ℕ} (h : calculateDelegations payment vs = .ok plan) :
    Emits (Hub.delegateMsgs denom a vs plan) payment 0 0 0 0 := by
  obtain ⟨hsum, hlen⟩ := calculateDelegations_sum h
  rw [← sum_zip_filter vs plan hlen] at hsum
  unfold Hub.delegateMsgs
  subst hsum
  induction (vs.zip plan).filter fun e => e.2 ≠ 0 with
  | nil => exact emits_nil
  | cons e l ih =>
    have hone : Emits [.wrappedDelegate a e.1.address ⟨denom, e.2⟩] e.2 0 0 0 0 :=
      ⟨rfl, rfl, rfl, rfl, rfl⟩
    exact hone.append ih

theorem emits_undelegateMsgs (denom : String) (a : Addr) {vs : List ValidatorResponse}
    {plan : List ℕ} {claim : ℕ} (h : calculateUndelegations claim vs = .ok plan) :
    Emits (Hub.undelegateMsgs denom a vs plan) 0 claim 0 0 0 := by
  obtain ⟨hsum, hlen, -⟩ := calculateUndelegations_sum h
  rw [← sum_zip_filter vs plan hlen] at hsum
  unfold Hub.undelegateMsgs
  subst hsum
  induction (vs.zip plan).filter fun e => e.2 ≠ 0 with
  | nil => exact emits_nil
  | cons e l ih =>
    have hone : Emits [.wrappedUndelegate a e.1.address ⟨denom, e.2⟩] 0 e.2 0 0 0 :=
      ⟨rfl, rfl, rfl, rfl, rfl⟩
    exact hone.append ih

theorem emits_mintMsgs {t : Hub.StakeType} {payment mint : ℕ} {rate : Decimal} (token : Addr)
    (recipient : Addr) (h : Hub.mintAmountOf t payment rate = .ok mint) :
    Emits (Hub.mintMsgs t (some token) recipient mint) 0 0 0 mint 0 := by
  cases t with
  | lstMint => exact ⟨rfl, rfl, rfl, rfl, rfl⟩
  | stakeRewards =>
    rw [Hub.mintAmountOf, pure_eq_ok] at h
    subst h
    exact emits_nil

theorem emits_burn (token sender : Addr) (amount : ℕ) (flow : Hub.UnstakeType) :
    Emits [.wasmExecute token (.token (Hub.burnMsg sender amount flow)) []] 0 0 0 0 amount := by
  cases flow <;> exact ⟨rfl, rfl, rfl, rfl, rfl⟩

theorem emits_beginRedelegate (a : Addr) (src : String) (rs : List (String × Coin)) :
    Emits (rs.map fun e => .wrappedBeginRedelegate a src e.1 e.2) 0 0 0 0 0 := by
  refine emits_none fun m hm => ?_
  obtain ⟨e, -, rfl⟩ := List.mem_map.1 hm
  exact ⟨rfl, rfl, rfl, rfl, rfl⟩

theorem emits_rewards (delegations : List Delegation) (dispatcher : Addr) :
    Emits (delegations.map (fun delegation => .withdrawDelegatorReward delegation.validator) ++
      [.wasmExecute dispatcher .dispatchRewards []]) 0 0 0 0 0 := by
  refine emits_none fun m hm => ?_
  rcases List.mem_append.1 hm with hm | hm
  · obtain ⟨e, -, rfl⟩ := List.mem_map.1 hm
    exact ⟨rfl, rfl, rfl, rfl, rfl⟩
  · rw [List.mem_singleton.1 hm]
    exact ⟨rfl, rfl, rfl, rfl, rfl⟩

/-! ### The check -/

/-- The delegations as the hub reads them add up to what is delegated. -/
theorem delegatedTotal_delegationList (st : Hub.Storage) (ds : ExtTreeMap String ℕ)
    (h : st.parameters.stakingCoinDenom = d.denom) :
    Hub.delegatedTotal st (delegationList d ds) = delegated ds := by
  have hall : (delegationList d ds).filter
      (fun x => x.amount.denom = st.parameters.stakingCoinDenom) = delegationList d ds := by
    refine List.filter_eq_self.2 fun x hx => ?_
    obtain ⟨e, -, rfl⟩ := List.mem_map.1 hx
    simp [h]
  rw [Hub.delegatedTotal, hall, delegationList, List.map_map]
  rfl

theorem delegationList_eq_nil (ds : ExtTreeMap String ℕ) :
    delegationList d ds = [] ↔ ds.isEmpty = true := by
  rw [delegationList, List.map_eq_nil_iff, ExtTreeMap.toList_eq_nil_iff, ExtTreeMap.isEmpty_iff]

/-- The accounts with the stake and the rate of a state. -/
def Accounts.withState (a : Accounts) (state : Hub.State) : Accounts :=
  { a with
    staked := state.totalStakedAmount
    rate := state.lstExchangeRate }

/-- **The check of the hub is that of its accounts.** -/
theorem Hub.ActualState.accounts {b : Books} {q : Querier} {st : Hub.Storage} {state : Hub.State}
    {info : MessageInfo} (h : Hub.ActualState q st ⟨b.block, d.hub⟩ b.hub.state state)
    (answers : Answers d (b.paid d info) q) (regular : b.Regular d)
    (hparams : st.parameters = b.hub.parameters)
    (hpending : st.pendingDelegation = b.hub.pendingDelegation)
    (hbatch : st.currentBatch = b.hub.currentBatch) :
    b.accounts.Check (b.accounts.withState state) := by
  have hlist : q.allDelegations d.hub = delegationList d b.delegations := answers.delegations
  have hlisted : q.allDelegations d.hub ≠ [] → b.accounts.listed = true := by
    intro hne
    rw [hlist, Ne, delegationList_eq_nil] at hne
    simpa [Books.accounts] using hne
  have htotal : Hub.delegatedTotal st (q.allDelegations d.hub) = b.accounts.delegated := by
    rw [hlist, delegatedTotal_delegationList _ _ (by rw [hparams]; exact regular.denom_eq)]
    rfl
  cases h with
  | noDelegations hnil =>
    refine .unlisted ?_
    have hempty := (delegationList_eq_nil (d := d) b.delegations).1 (hlist ▸ hnil)
    simp [Books.accounts, hempty]
  | nothingStaked hne pending le zero =>
    rw [Hub.getPendingDelegationAmount_eq_ok, hpending] at pending
    have h₁ : b.accounts.toStake = _ := congrArg Prod.fst pending.2
    have h₂ : b.accounts.toUnstake = _ := congrArg Prod.snd pending.2
    dsimp only at h₁ h₂
    rw [← h₁] at le
    rw [← h₁, ← h₂] at zero
    exact .nothing (hlisted hne) le zero
  | @full hne ps pu supply staked pending le pos staked_eq issued =>
    rw [Hub.getPendingDelegationAmount_eq_ok, hpending] at pending
    have h₁ : b.accounts.toStake = _ := congrArg Prod.fst pending.2
    have h₂ : b.accounts.toUnstake = _ := congrArg Prod.snd pending.2
    dsimp only at h₁ h₂
    rw [htotal, ← h₁, ← h₂] at staked_eq
    rw [← h₁] at le
    rw [← h₁, ← h₂] at pos
    have hsupply : supply = b.supply := by
      simp only [Hub.queryTotalLstTokenIssued, bind_eq_ok] at issued
      obtain ⟨token, -, hs⟩ := issued
      exact answers.supply token supply hs
    have hfull := Accounts.Check.full (hlisted hne) le pos staked_eq
    rw [hsupply, hbatch]
    exact hfull

/-! ### What a call keeps -/

/-- Nothing is staked or unstaked: the pending record stays as it is. -/
theorem Books.Regular.kept {b b' : Books} (h : b.Regular d) (hblock : b'.block = b.block)
    (hdenom : b'.hub.parameters.stakingCoinDenom = b.hub.parameters.stakingCoinDenom)
    (hpending : b'.hub.pendingDelegation = b.hub.pendingDelegation)
    (hstake : queuedStake b'.queue = queuedStake b.queue)
    (hunstake : queuedUnstake b'.queue = queuedUnstake b.queue) : b'.Regular d := by
  constructor
  · exact hdenom.trans h.denom_eq
  · rw [hpending]
    exact h.length_eq
  · rw [hpending]
    exact h.aligned
  · rw [hpending, hblock]
    exact h.started
  · rw [hpending, hblock, hstake, hunstake]
    exact h.pending_eq

/-- What is staked and unstaked is written to the pending record and queued. -/
theorem Books.Regular.written {b b' : Books} {s u : ℕ} (h : b.Regular d)
    (hblock : b'.block = b.block)
    (hdenom : b'.hub.parameters.stakingCoinDenom = b.hub.parameters.stakingCoinDenom)
    (hwritten : b.hub.pendingDelegation.Written b'.hub.pendingDelegation b.block.height s u)
    (hstake : queuedStake b'.queue = queuedStake b.queue + s)
    (hunstake : queuedUnstake b'.queue = queuedUnstake b.queue + u) : b'.Regular d := by
  have hlen := hwritten.length_pos
  constructor
  · exact hdenom.trans h.denom_eq
  · rw [hwritten.length_eq]
    exact h.length_eq
  · have hroll := (aligned_roll (h.length_eq ▸ hlen) h.aligned hwritten.start_le).1
    rw [hwritten.start_eq, Hub.PendingDelegation.rolledStart, h.length_eq]
    exact hroll
  · rw [hblock]
    exact .inl hwritten.inside.1
  · rw [hblock, hwritten.current_eq, h.pending_eq, hstake, hunstake]

theorem fundsIn_singleton (denom : String) (amount : ℕ) :
    fundsIn denom [⟨denom, amount⟩] = amount := by
  simp [fundsIn]

/-- The hub's address may be asked for nothing that the registry does not know
to be delegated. -/
theorem listed_of_drawn {b : Books} {registry : Addr} {q : Querier} {info : MessageInfo}
    {vs : List ValidatorResponse} (answers : Answers d (b.paid d info) q)
    (answer : q.validatorsDelegation registry = .ok vs)
    (hpos : 0 < (vs.map (·.totalDelegated)).sum) : b.accounts.listed = true := by
  obtain ⟨-, rfl⟩ := answers.validators registry vs answer
  by_contra hnot
  have hempty : b.delegations.isEmpty = true := by simpa [Books.accounts] using hnot
  have hnone : ∀ a, (registryDeps d b.delegations).allDelegations a = [] := by
    intro a
    have hnil := (delegationList_eq_nil (d := d) b.delegations).2 hempty
    simp only [registryDeps, hnil, ite_self]
  have hperm := (Registry.queryValidators_perm (registryDeps d b.delegations) b.registry).map
    (·.totalDelegated)
  rw [show Registry.queryValidators (registryDeps d (b.paid d info).delegations)
    (b.paid d info).registry = Registry.queryValidators (registryDeps d b.delegations) b.registry
    from rfl, hperm.sum_eq, hnone] at hpos
  have hzero : ((Registry.registered (Registry.delegationMap []) b.registry.validatorRegistry).map
      (·.totalDelegated)).sum = 0 := by
    refine List.sum_eq_zero fun n hn => ?_
    obtain ⟨v, hv, rfl⟩ := List.mem_map.1 hn
    obtain ⟨e, -, rfl⟩ := List.mem_map.1 hv
    simp [Registry.delegationMap]
  omega

/-- Whether a message checks for slashing; `ProcessUndelegations` does not where
nothing is requested. -/
def HubMsg.reconciles (requested : ℕ) : HubMsg → Bool
  | .stake => true
  | .stakeRewards => true
  | .unstake _ => true
  | .receive _ => true
  | .checkSlashing => true
  | .processUndelegations => requested ≠ 0
  | _ => false

/-- **The accounts after a response of the hub.** -/
theorem Books.accounts_after {b : Books} {info : MessageInfo} {hub : Hub.Storage}
    {messages : List CosmosMsg} {s u sent minted burned : ℕ}
    (h : Emits messages s u sent minted burned) :
    ((b.paid d info).after hub messages).accounts =
      { staked := hub.state.totalStakedAmount
        rate := hub.state.lstExchangeRate
        requested := hub.currentBatch.requestedLstTokenAmount
        supply := b.supply + minted - burned
        unclaimed := hub.state.unclaimedUnstakedBalance
        bank := b.bank + fundsIn d.denom info.funds - sent
        toStake := (hub.pendingDelegation.current b.block.height).1
        toUnstake := (hub.pendingDelegation.current b.block.height).2
        delegated := delegated b.delegations
        listed := !b.delegations.isEmpty } := by
  rw [← h.minted_eq, ← h.burned_eq, ← h.sent_eq]
  rfl

/-- A completion on the accounts: the batch waits or is closed, with `amount`
more requested. -/
theorem Hub.Completion.accounts {b : Books} {q : Querier} {st hub : Hub.Storage}
    {info : MessageInfo} {amount : ℕ} {batch : Hub.CurrentBatch} {messages tail : List CosmosMsg}
    (h : Hub.Completion q st ⟨b.block, d.hub⟩ (b.hub.currentBatch.plus amount) hub batch messages)
    (answers : Answers d (b.paid d info) q) (regular : b.Regular d)
    (hst : st = { b.hub with unstakeWaitList := st.unstakeWaitList })
    (htail : Emits tail 0 0 0 0 amount) (le : amount ≤ b.supply) :
    b.accounts.Call true (((b.paid d info).after hub (messages ++ tail)).accounts) ∧
      ((b.paid d info).after hub (messages ++ tail)).Regular d := by
  have hstate : st.state = b.hub.state := by rw [hst]
  have hparams : st.parameters = b.hub.parameters := by rw [hst]
  have hpending : st.pendingDelegation = b.hub.pendingDelegation := by rw [hst]
  have hbatch : st.currentBatch = b.hub.currentBatch := by rw [hst]
  cases h with
  | @stillOpen state actual le' early =>
    rw [hstate] at actual
    have hcheck := actual.accounts answers regular hparams hpending hbatch
    have hemits := emits_nil.append htail
    refine ⟨?_, regular.kept rfl ?_ hpending ?_ ?_⟩
    · have hcall := Accounts.Call.request (fundsIn d.denom info.funds) hcheck le
      rw [Books.accounts_after hemits]
      convert hcall using 1
      simp [Accounts.withState, Accounts.request, Accounts.credit, Books.accounts,
        Hub.CurrentBatch.plus, hpending, actual.frame.2.1]
    · exact congrArg _ hparams
    · show queuedStake (b.queue ++ queuedIn ([] ++ tail)) = queuedStake b.queue
      rw [queuedStake_append, hemits.stake_eq]
      rfl
    · show queuedUnstake (b.queue ++ queuedIn ([] ++ tail)) = queuedUnstake b.queue
      rw [queuedUnstake_append, hemits.unstake_eq]
      rfl
  | @closed state pending registry validators plan actual le' due registry_eq answer plan_eq enough
      written =>
    rw [hstate] at actual
    rw [hpending] at written
    have hcheck := actual.accounts answers regular hparams hpending hbatch
    have hemits := (emits_undelegateMsgs st.parameters.stakingCoinDenom d.hub
      plan_eq).append htail
    obtain ⟨-, -, hpos, hle, -⟩ := calculateUndelegations_sum plan_eq
    have hlisted := listed_of_drawn answers answer (Nat.lt_of_lt_of_le hpos hle)
    refine ⟨?_, regular.written rfl ?_ written ?_ ?_⟩
    · have hcall := Accounts.Call.close (fundsIn d.denom info.funds) hcheck le enough hlisted
      rw [Books.accounts_after hemits]
      have hcurrent := written.current_eq
      convert hcall using 1
      simp [Accounts.withState, Accounts.close, Accounts.claim, Accounts.credit, Books.accounts,
        Hub.CurrentBatch.plus, hcurrent, actual.frame.2.1]
    · exact congrArg _ hparams
    · show queuedStake (b.queue ++ queuedIn _) = queuedStake b.queue + 0
      rw [queuedStake_append, hemits.stake_eq]
    · show queuedUnstake (b.queue ++ queuedIn _) = queuedUnstake b.queue + _
      rw [queuedUnstake_append, hemits.unstake_eq]
      rfl

/-- The free balance is the balance less the pending stake. -/
theorem Answers.free {b : Books} {q : Querier} {info : MessageInfo} {free : ℕ}
    (answers : Answers d (b.paid d info) q) (regular : b.Regular d)
    (h : Hub.actualFreeBalance q b.hub ⟨b.block, d.hub⟩ = .ok free) :
    free + b.accounts.toStake = b.accounts.bank + fundsIn d.denom info.funds := by
  rw [Hub.actualFreeBalance_eq_ok, regular.denom_eq, answers.balance] at h
  obtain ⟨-, hps, rfl⟩ := h
  exact Nat.sub_add_cancel hps

/-- A response that stakes and unstakes nothing keeps what the books keep. -/
theorem Books.Regular.silent {b : Books} {info : MessageInfo} {hub : Hub.Storage}
    {messages : List CosmosMsg} {sent minted burned : ℕ} (regular : b.Regular d)
    (emits : Emits messages 0 0 sent minted burned)
    (hdenom : hub.parameters.stakingCoinDenom = b.hub.parameters.stakingCoinDenom)
    (hpending : hub.pendingDelegation = b.hub.pendingDelegation) :
    ((b.paid d info).after hub messages).Regular d := by
  refine regular.kept rfl hdenom hpending ?_ ?_
  · show queuedStake (b.queue ++ queuedIn _) = queuedStake b.queue
    rw [queuedStake_append, emits.stake_eq, Nat.add_zero]
  · show queuedUnstake (b.queue ++ queuedIn _) = queuedUnstake b.queue
    rw [queuedUnstake_append, emits.unstake_eq, Nat.add_zero]

/-- A response that does nothing, with a storage that accounts for the same. -/
theorem Books.quiet_call {b : Books} {info : MessageInfo} {hub : Hub.Storage}
    {messages : List CosmosMsg} (regular : b.Regular d) (emits : Emits messages 0 0 0 0 0)
    (hstaked : hub.state.totalStakedAmount = b.hub.state.totalStakedAmount)
    (hrate : hub.state.lstExchangeRate = b.hub.state.lstExchangeRate)
    (hunclaimed : hub.state.unclaimedUnstakedBalance = b.hub.state.unclaimedUnstakedBalance)
    (hbatch : hub.currentBatch = b.hub.currentBatch)
    (hdenom : hub.parameters.stakingCoinDenom = b.hub.parameters.stakingCoinDenom)
    (hpending : hub.pendingDelegation = b.hub.pendingDelegation) :
    b.accounts.Call false (((b.paid d info).after hub messages).accounts) ∧
      ((b.paid d info).after hub messages).Regular d := by
  refine ⟨?_, regular.silent emits hdenom hpending⟩
  rw [Books.accounts_after emits, hstaked, hrate, hunclaimed, hbatch, hpending]
  exact .quiet _

/-- A stake on the accounts. -/
theorem Hub.Staked.accounts {b : Books} {q : Querier} {t : Hub.StakeType} {hub : Hub.Storage}
    {info : MessageInfo} {res : Response}
    (h : Hub.Staked q b.hub ⟨b.block, d.hub⟩ info t hub res)
    (answers : Answers d (b.paid d info) q) (regular : b.Regular d) :
    b.accounts.Call true (((b.paid d info).after hub res.messages).accounts) ∧
      ((b.paid d info).after hub res.messages).Regular d := by
  obtain @⟨payment, supply, mint, state, pending, validators, plan, registry, token, res, -, funds,
    pos, actual, issued, minted, token_eq, -, written, -, answer, plan_eq, messages_eq⟩ := h
  have hcheck := actual.accounts answers regular rfl rfl rfl
  have hemits := (emits_delegateMsgs b.hub.parameters.stakingCoinDenom d.hub
    plan_eq).append (emits_mintMsgs token info.sender minted)
  rw [← messages_eq] at hemits
  have hsupply : supply = b.supply := by
    simp only [Hub.queryTotalLstTokenIssued, bind_eq_ok] at issued
    obtain ⟨token, -, hs⟩ := issued
    exact answers.supply token supply hs
  have hpaid : fundsIn d.denom info.funds = payment := by
    rw [funds, regular.denom_eq, fundsIn_singleton]
  refine ⟨?_, regular.written rfl rfl written ?_ ?_⟩
  · have hcall := Accounts.Call.stake hcheck pos minted
    have hcurrent := written.current_eq
    rw [Books.accounts_after hemits]
    convert hcall using 1
    simp [Accounts.withState, Accounts.stake, Books.accounts, hsupply, hpaid, hcurrent,
      actual.frame.2.1]
  · show queuedStake (b.queue ++ queuedIn _) = queuedStake b.queue + payment
    rw [queuedStake_append, hemits.stake_eq, Nat.add_zero]
  · show queuedUnstake (b.queue ++ queuedIn _) = queuedUnstake b.queue + 0
    rw [queuedUnstake_append, hemits.unstake_eq]

/-- A withdrawal on the accounts. -/
theorem Hub.Withdrawn.accounts {b : Books} {q : Querier} {batchIds : Option (List ℕ)}
    {hub : Hub.Storage} {info : MessageInfo} {res : Response}
    (h : Hub.Withdrawn q b.hub ⟨b.block, d.hub⟩ info batchIds hub res)
    (answers : Answers d (b.paid d info) q) (regular : b.Regular d) :
    b.accounts.Call false (((b.paid d info).after hub res.messages).accounts) ∧
      ((b.paid d info).after hub res.messages).Regular d := by
  obtain @⟨free, left, amount, released, res, free_eq, -, -, -, -, -, enough, messages_eq, -⟩ := h
  have hemits : Emits res.messages 0 0 amount 0 0 := by
    rw [messages_eq]
    exact ⟨rfl, rfl, rfl, rfl, rfl⟩
  refine ⟨?_, regular.silent hemits rfl rfl⟩
  have hfree := answers.free regular free_eq
  have hpay : (free - amount - left) + amount + b.accounts.toStake ≤
    b.accounts.bank + fundsIn d.denom info.funds := by omega
  rw [Books.accounts_after hemits]
  exact .pay _ hpay

/-- **A call of the hub is one of the accounts**, and keeps what the books keep. -/
theorem Call.accounts {b b' : Books} {info : MessageInfo} {msg : HubMsg}
    (h : Call d b info msg b') (regular : b.Regular d) :
    b.accounts.Call (msg.reconciles b.accounts.requested) b'.accounts ∧ b'.Regular d := by
  obtain @⟨q, hub, res, answers, effect, burned_le, sent_le⟩ := h
  generalize hst : b.hub = st at effect
  cases effect with
  | @stake t st' res h =>
    subst hst
    have hran : (Hub.stakeMsg t).reconciles b.accounts.requested = true := by cases t <;> rfl
    rw [hran]
    exact h.accounts answers regular
  | @unstake msg sender amount flow batch messages token st' res msg_eq token_eq h messages_eq =>
    subst hst
    have hran : msg.reconciles b.accounts.requested = true := by
      rcases msg_eq with ⟨rfl, -⟩ | ⟨rfl, -⟩ <;> rfl
    have hchain := toChain_tokens h.toChain
    have htail := emits_burn token sender amount flow
    have hle : amount ≤ b.supply := by
      rw [messages_eq, burnedIn_append, mintedIn_append, htail.burned_eq, htail.minted_eq,
        hchain.1, hchain.2] at burned_le
      omega
    rw [hran, messages_eq]
    exact h.accounts answers regular rfl htail hle
  | @withdraw batchIds st' res h =>
    subst hst
    have hran : (Hub.withdrawMsg batchIds).reconciles b.accounts.requested = false := by
      cases batchIds <;> rfl
    rw [hran]
    exact h.accounts answers regular
  | @release free left released res free_eq unclaimed_le h left_le messages_eq =>
    subst hst
    have hemits := emits_of_nil messages_eq
    refine ⟨?_, regular.silent hemits rfl rfl⟩
    have hfree := answers.free regular free_eq
    have hpay : (free - left) + 0 + b.accounts.toStake ≤
      b.accounts.bank + fundsIn d.denom info.funds := by omega
    rw [Books.accounts_after hemits]
    exact .pay _ hpay
  | @checkSlashing state res h messages_eq =>
    subst hst
    have hemits := emits_of_nil messages_eq
    refine ⟨?_, regular.silent hemits rfl rfl⟩
    have hcall := Accounts.Call.check (fundsIn d.denom info.funds)
      (h.accounts answers regular rfl rfl rfl)
    have hran : HubMsg.checkSlashing.reconciles b.accounts.requested = true := rfl
    rw [hran, Books.accounts_after hemits]
    convert hcall using 1
    simp [Accounts.withState, Accounts.credit, Books.accounts, h.frame.2.1]
  | nothingRequested hz =>
    subst hst
    have hran : HubMsg.processUndelegations.reconciles b.accounts.requested = false := by
      simp [HubMsg.reconciles, Books.accounts, hz]
    rw [hran]
    exact Books.quiet_call regular emits_nil rfl rfl rfl rfl rfl rfl
  | @processUndelegations batch st' res ne h =>
    subst hst
    have hran : HubMsg.processUndelegations.reconciles b.accounts.requested = true := by
      simp [HubMsg.reconciles, Books.accounts, ne]
    have h' : Hub.Completion q b.hub ⟨b.block, d.hub⟩ (b.hub.currentBatch.plus 0) hub batch
      res.messages := h
    have hcompletion := h'.accounts answers regular rfl emits_nil (Nat.zero_le _)
    rw [List.append_nil] at hcompletion
    rw [hran]
    exact hcompletion
  | updateParams auth messages_eq =>
    subst hst
    exact Books.quiet_call regular (emits_of_nil messages_eq) rfl rfl rfl rfl rfl rfl
  | updateConfig auth token messages_eq =>
    subst hst
    refine Books.quiet_call regular (emits_none fun m hm => ?_) rfl rfl rfl rfl rfl rfl
    obtain ⟨a, rfl⟩ := messages_eq m hm
    exact ⟨rfl, rfl, rfl, rfl, rfl⟩
  | redelegate auth messages_eq =>
    subst hst
    exact Books.quiet_call regular (messages_eq ▸ emits_beginRedelegate _ _ _)
      rfl rfl rfl rfl rfl rfl
  | updateGlobalIndex dispatcher_eq messages_eq =>
    subst hst
    exact Books.quiet_call regular (messages_eq ▸ emits_rewards _ _) rfl rfl rfl rfl rfl rfl

end BabyLst
