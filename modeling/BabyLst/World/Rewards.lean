/-
# The reward cycle

`UpdateGlobalIndex` goes round: the hub has the chain pay out its rewards and
calls the dispatcher, which sends the fee of its whole balance to the fee
address and the rest back to the hub with `StakeRewards`.  `GlobalIndexUpdate` is
what an accepted update does (`System.globalIndex_ok`).

On the books it is a call of the hub, coins for the hub where the fee or the
rewards are paid to it, and a stake of the dispatcher (`Turn`), so an action of
the system is a run of moves of its books (`System.exec_books`).
-/

import BabyLst.World.Rate
import BabyLst.World.System

namespace BabyLst

open Lib Std

variable {T : Type} {d : Protocol T}

/-- The system once the chain has paid out what the validators have accrued. -/
def System.collects (d : Protocol T) (s : System T) (validators : List String) : System T :=
  validators.foldl (System.paysOut d) s

/-- The system once the dispatcher has sent a fee. -/
def System.sendsFee (d : Protocol T) (s : System T) (fee : ℕ) : System T :=
  System.receives d
    { s with
      rewards := s.rewards - fee
      fees := s.fees + if s.dispatcher.feeAddr = d.dispatcher then 0 else fee }
    s.dispatcher.feeAddr fee

/-- The system once the hub is called to update the global index. -/
def System.indexed (d : Protocol T) (s : System T) (funds : List Coin) : System T :=
  { s with
    world := { s.world with
      bank := s.world.bank + fundsIn d.denom funds
      hub := { s.world.hub with
        state := { s.world.hub.state with lastIndexModification := s.world.block.time } } } }

/-- The validators the hub delegates to. -/
def World.validators (w : World T) : List String := w.delegations.toList.map (·.1)

/-! ### Coins on their way -/

theorem Protocol.dispatcher_ne_hub (d : Protocol T) : d.dispatcher ≠ d.hub := d.dispatcher_isUser.1

/-- **Coins that reach an account** are the hub's, the dispatcher's or neither's. -/
theorem System.receives_eq (s : System T) (a : Addr) (amount : ℕ) :
    s.receives d a amount =
      { s with
        world := { s.world with bank := s.world.bank + if a = d.hub then amount else 0 }
        rewards := s.rewards + if a = d.dispatcher then amount else 0 } := by
  unfold System.receives
  split_ifs with hhub hdisp hdisp
  · exact absurd (hdisp.symm.trans hhub) d.dispatcher_ne_hub
  · rfl
  · rfl
  · rfl

theorem System.paysOut_eq (s : System T) (v : String) :
    s.paysOut d v =
      { s with
        world := { s.world with
          bank := s.world.bank + if s.withdrawAddress = d.hub then s.accrued[v]?.getD 0 else 0 }
        accrued := s.accrued.erase v
        rewards := s.rewards +
          if s.withdrawAddress = d.dispatcher then s.accrued[v]?.getD 0 else 0 } := by
  rw [System.paysOut, System.receives_eq]

/-- What the chain pays out reaches the hub, the dispatcher or neither. -/
theorem System.collects_eq (validators : List String) (s : System T) :
    ∃ accrued rewards coins, s.collects d validators =
      { s with
        world := { s.world with bank := s.world.bank + coins }
        accrued := accrued
        rewards := s.rewards + rewards } := by
  induction validators generalizing s with
  | nil => exact ⟨s.accrued, 0, 0, rfl⟩
  | cons v validators ih =>
    obtain ⟨accrued, rewards, coins, heq⟩ := ih (s.paysOut d v)
    refine ⟨accrued, (if s.withdrawAddress = d.dispatcher then s.accrued[v]?.getD 0 else 0) +
      rewards, (if s.withdrawAddress = d.hub then s.accrued[v]?.getD 0 else 0) + coins, ?_⟩
    rw [System.collects, List.foldl_cons]
    refine Eq.trans heq ?_
    simp only [System.paysOut_eq, Nat.add_assoc]

/-- Where rewards are paid to the dispatcher, what the chain pays out is added to
the dispatcher's balance, and the world does not change. -/
theorem System.collects_dispatcher (validators : List String) (s : System T)
    (h : s.withdrawAddress = d.dispatcher) :
    ∃ accrued rewards, s.collects d validators =
        { s with
          accrued := accrued
          rewards := s.rewards + rewards } ∧
      total (fun _ n => n) accrued + rewards = total (fun _ n => n) s.accrued := by
  induction validators generalizing s with
  | nil => exact ⟨s.accrued, 0, rfl, rfl⟩
  | cons v validators ih =>
    have hpaid : s.paysOut d v =
        { s with
          accrued := s.accrued.erase v
          rewards := s.rewards + s.accrued[v]?.getD 0 } := by
      rw [System.paysOut_eq, h, if_neg d.dispatcher_ne_hub, if_pos rfl]
      rfl
    obtain ⟨accrued, rewards, heq, htotal⟩ := ih (s.paysOut d v) (by rw [hpaid]; exact h)
    rw [hpaid] at heq htotal
    refine ⟨accrued, s.accrued[v]?.getD 0 + rewards, ?_, ?_⟩
    · rw [← Nat.add_assoc]
      exact (congrArg (System.collects d · validators) hpaid).trans heq
    · have herase := delegated_erase s.accrued v
      unfold delegated at herase
      dsimp only at htotal
      omega

theorem System.sendsFee_zero (s : System T) : s.sendsFee d 0 = s := by
  rw [System.sendsFee, System.receives_eq]
  simp

/-- **An accepted `UpdateGlobalIndex`**: the rewards are collected, the fee is
sent, and what is left is staked, if anything is. -/
inductive GlobalIndexUpdate (d : Protocol T) (s : System T) (sender : Addr)
    (funds : List Coin) : System T → Prop
  | intro {s₂ s' : System T} {fee rest : ℕ}
      (call : Call d.toDeployment (s.world.books d.toDeployment) ⟨sender, funds⟩
        .updateGlobalIndex ((s.indexed d funds).world.books d.toDeployment))
      (collected : s₂ = (s.indexed d funds).collects d s.world.validators)
      (paused : s.world.hub.parameters.paused = false)
      (fee_eq : Dispatcher.computeFee s₂.rewards s.dispatcher.feeRate = .ok fee)
      (split : fee + rest = s₂.rewards)
      (staked : (rest = 0 ∧ s' = s₂.sendsFee d fee) ∨
        (0 < rest ∧ rest ≤ (s₂.sendsFee d fee).rewards ∧ (∃ w₁ messages,
          callContract d.toDeployment (s₂.sendsFee d fee).world d.dispatcher d.hub
            [⟨d.denom, rest⟩] (.hub .stakeRewards) = .ok (w₁, messages) ∧
          BabyLst.deliverAll d.toDeployment 3 w₁ d.hub messages = .ok s'.world) ∧
        s' = { s₂.sendsFee d fee with
          world := s'.world
          rewards := (s₂.sendsFee d fee).rewards - rest
          restaked := s.restaked + rest })) :
      GlobalIndexUpdate d s sender funds s'

/-! ### Following an update -/

theorem System.deliverAll_collect {n : ℕ} {s' : System T} (validators : List String) :
    ∀ {s : System T}, s.deliverAll d (n + 1) d.hub
      (validators.map .withdrawDelegatorReward) = .ok s' → s' = s.collects d validators := by
  induction validators with
  | nil =>
    intro s h
    rw [List.map_nil, System.deliverAll, delivered_nil] at h
    cases h
    rfl
  | cons v validators ih =>
    intro s h
    rw [List.map_cons, System.deliverAll, delivered_cons] at h
    obtain ⟨s₁, callee, inner, s₂, hm, hinner, hrest⟩ := h
    simp only [System.deliver, bind_eq_ok, require_eq_ok, pure_eq_ok, Prod.mk.injEq] at hm
    obtain ⟨_, -, rfl, rfl, rfl⟩ := hm
    rw [delivered_nil] at hinner
    cases hinner
    exact ih hrest

/-- Rewards are staked without a message to the token. -/
theorem Hub.Effect.stakeRewards {q : Querier} {st st' : Hub.Storage} {env : Env}
    {info : MessageInfo} {res : Response} (h : Hub.Effect q st env info .stakeRewards st' res) :
    Hub.Staked q st env info .stakeRewards st' res := by
  generalize hmsg : HubMsg.stakeRewards = msg at h
  cases h with
  | @stake t st' res h =>
    cases t with
    | lstMint => cases hmsg
    | stakeRewards => exact h
  | unstake msg_eq =>
    rcases msg_eq with ⟨rfl, -⟩ | ⟨rfl, -⟩ <;> cases hmsg
  | @withdraw batchIds => cases batchIds <;> cases hmsg
  | _ => cases hmsg

/-- Staking rewards sends delegations only. -/
theorem Hub.Staked.delegates {q : Querier} {st st' : Hub.Storage} {env : Env}
    {info : MessageInfo} {res : Response} (h : Hub.Staked q st env info .stakeRewards st' res) :
    ∀ m ∈ res.messages, ∃ validator coin, m = .wrappedDelegate env.contract validator coin := by
  obtain @⟨payment, supply, mint, state, pending, validators, plan, registry, token, res, -, -, -,
    -, -, -, -, -, -, -, -, -, messages_eq⟩ := h
  intro m hm
  rw [messages_eq] at hm
  rcases List.mem_append.1 hm with hm | hm
  · obtain ⟨e, -, rfl⟩ := List.mem_map.1 hm
    exact ⟨_, _, rfl⟩
  · cases hm

/-- Delegations change the world only. -/
theorem System.deliverAll_delegate {n : ℕ} {s s' : System T} {messages : List CosmosMsg}
    (h : s.deliverAll d n d.hub messages = .ok s')
    (hms : ∀ m ∈ messages, ∃ validator coin, m = .wrappedDelegate d.hub validator coin) :
    s' = { s with world := s'.world } ∧
      BabyLst.deliverAll d.toDeployment n s.world d.hub messages = .ok s'.world := by
  have hplain : ∀ m ∈ messages, d.Plain d.hub m := by
    intro m hm
    obtain ⟨validator, coin, rfl⟩ := hms m hm
    exact ⟨d.dispatcher_ne_hub.symm, rfl, fun _ _ h => by cases h⟩
  obtain ⟨hbeside, hworld⟩ := System.deliverAll_plain h hplain
  have haddress : s'.withdrawAddress = s.withdrawAddress := by
    refine delivered_keep (P := fun t => t.withdrawAddress = s.withdrawAddress)
      (Q := fun _ m => ∃ validator coin, m = .wrappedDelegate d.hub validator coin)
      (fun {t t' sender callee m inner} ht hm h => ?_) n h hms rfl
    obtain ⟨validator, coin, rfl⟩ := hm
    simp only [System.deliver, bind_eq_ok, pure_eq_ok, Prod.mk.injEq] at h
    obtain ⟨_, -, rfl, -, rfl⟩ := h
    exact ⟨ht, by simp⟩
  refine ⟨?_, hworld⟩
  rw [System.Beside, haddress] at hbeside
  exact hbeside

/-- **The dispatcher's messages**: the fee is sent, and the rest staked. -/
theorem System.deliverAll_split {s s' : System T} {fee rest : ℕ}
    (hhub : s.dispatcher.hubContract = d.hub) (hdenom : s.dispatcher.rewardDenom = d.denom)
    (h : s.deliverAll d 4 d.dispatcher (s.dispatcher.split fee rest) = .ok s') :
    (rest = 0 ∧ s' = s.sendsFee d fee) ∨
      (0 < rest ∧ rest ≤ (s.sendsFee d fee).rewards ∧ (∃ w₁ messages,
        callContract d.toDeployment (s.sendsFee d fee).world d.dispatcher d.hub
          [⟨d.denom, rest⟩] (.hub .stakeRewards) = .ok (w₁, messages) ∧
        BabyLst.deliverAll d.toDeployment 3 w₁ d.hub messages = .ok s'.world) ∧
      s' = { s.sendsFee d fee with
        world := s'.world
        rewards := (s.sendsFee d fee).rewards - rest
        restaked := s.restaked + rest }) := by
  rw [Dispatcher.Config.split, System.deliverAll, delivered_append] at h
  obtain ⟨s₁, hfee, hrest⟩ := h
  -- the fee, if there is one
  have hsent : s₁ = s.sendsFee d fee := by
    split_ifs at hfee with hz
    · rw [delivered_nil] at hfee
      cases hfee
      rw [hz, System.sendsFee_zero]
    · rw [delivered_cons] at hfee
      obtain ⟨s₂, callee, inner, s₃, hm, hinner, hnil⟩ := hfee
      simp only [System.deliver, ↓reduceIte, bind_eq_ok, require_eq_ok, checkedSub_eq_ok,
        pure_eq_ok, Prod.mk.injEq] at hm
      obtain ⟨_, -, _, ⟨-, rfl⟩, rfl, rfl, rfl⟩ := hm
      rw [delivered_nil] at hinner hnil
      cases hinner
      cases hnil
      rfl
  subst hsent
  split_ifs at hrest with hz
  · rw [delivered_nil] at hrest
    cases hrest
    exact .inl ⟨hz, rfl⟩
  · refine .inr ⟨Nat.pos_of_ne_zero hz, ?_⟩
    rw [delivered_cons] at hrest
    obtain ⟨s₂, callee, inner, s₃, hm, hinner, hnil⟩ := hrest
    rw [delivered_nil] at hnil
    cases hnil
    have hfields : (s.sendsFee d fee).restaked = s.restaked := by
      rw [System.sendsFee, System.receives_eq]
    simp only [System.deliver, System.attaches, System.call, ↓reduceIte, hhub, hdenom,
      fundsIn_singleton, bind_eq_ok, checkedSub_eq_ok, pure_eq_ok, Prod.exists,
      Prod.mk.injEq] at hm
    obtain ⟨_, ⟨_, ⟨hle, rfl⟩, rfl⟩, s₄, messages, ⟨w₁, ms, hcall, rfl, rfl⟩, rfl, rfl, rfl⟩ := hm
    -- what the hub answers with are delegations
    obtain ⟨-, q, hub, res, -, hx, rfl, -⟩ := callContract_hub hcall
    have hstaked := (Hub.execute_ok hx).stakeRewards
    obtain ⟨heq, hworld⟩ := System.deliverAll_delegate hinner hstaked.delegates
    refine ⟨hle, ⟨w₁, res.messages, hcall, hworld⟩, ?_⟩
    rw [heq, ← hfields]

/-- **What every system keeps**: the contracts are wired, and the dispatcher
splits the staking denom at a rate within the bound. -/
structure System.Wired (d : Protocol T) (s : System T) : Prop where
  world : s.world.Wired d.toDeployment
  denom_eq : s.dispatcher.rewardDenom = d.denom
  feeRate_le : s.dispatcher.feeRate.atomics ≤ Dispatcher.MAX_FEE_RATE.atomics

/-- **A call of the dispatcher** is one of an unpaused hub; the whole balance is
split. -/
theorem System.call_dispatch {s s' : System T} {sender contract : Addr} {funds : List Coin}
    {messages : List CosmosMsg} (hdenom : s.dispatcher.rewardDenom = d.denom)
    (bare : fundsIn d.denom funds = 0)
    (h : s.call d sender contract funds .dispatchRewards = .ok (s', messages)) :
    contract = d.dispatcher ∧ sender = d.hub ∧ s.dispatcher.hubContract = d.hub ∧ s' = s ∧
      ∃ fee rest, Dispatcher.computeFee s.rewards s.dispatcher.feeRate = .ok fee ∧
        fee + rest = s.rewards ∧ messages = s.dispatcher.split fee rest := by
  have hzero : s.receives d d.dispatcher 0 = s := by
    rw [System.receives_eq]
    simp
  simp only [System.call, bare, hzero, Dispatcher.execute, Dispatcher.executeDispatchRewards,
    bind_eq_ok, require_eq_ok, checkedSub_eq_ok, pure_eq_ok, Prod.exists, Prod.mk.injEq] at h
  obtain ⟨_, rfl, config, response, ⟨_, ⟨paused, hpaused, _, -, _, hhub, fee, hfee, _, ⟨hle, rfl⟩,
    rfl⟩, rfl, rfl⟩, rfl, rfl⟩ := h
  -- only the hub answers for the parameters
  have hcontract : s.dispatcher.hubContract = d.hub := by
    simp only [System.querier, World.querier, answerAt] at hpaused
    split_ifs at hpaused with heq
    exact heq
  have hbalance : (s.querier d).balance (s.world.env d.dispatcher).contract
      s.dispatcher.rewardDenom = s.rewards := if_pos ⟨rfl, hdenom⟩
  rw [hbalance] at hfee hle ⊢
  exact ⟨rfl, hhub.symm.trans hcontract, hcontract, rfl, fee, _, hfee, Nat.add_sub_of_le hle, rfl⟩

/-- The call of the hub, as one of the books: it queues and moves nothing. -/
theorem called_index {b : Books} {q : Querier} {info : MessageInfo} {hub : Hub.Storage}
    {res : Response} (answers : Answers d.toDeployment (b.paid d.toDeployment info) q)
    (h : Hub.Effect q b.hub ⟨b.block, d.hub⟩ info .updateGlobalIndex hub res) :
    Call d.toDeployment b info .updateGlobalIndex
      { b.paid d.toDeployment info with hub := hub } := by
  have hmessages : ∃ dispatcher, res.messages = (q.allDelegations d.hub).map
      (fun delegation => .withdrawDelegatorReward delegation.validator) ++
      [.wasmExecute dispatcher .dispatchRewards []] := by
    generalize hmsg : HubMsg.updateGlobalIndex = msg at h
    cases h with
    | updateGlobalIndex dispatcher_eq messages_eq => exact ⟨_, messages_eq⟩
    | unstake msg_eq =>
      rcases msg_eq with ⟨rfl, -⟩ | ⟨rfl, -⟩ <;> cases hmsg
    | @stake t => cases t <;> cases hmsg
    | @withdraw batchIds => cases batchIds <;> cases hmsg
    | _ => cases hmsg
  obtain ⟨dispatcher, hmessages⟩ := hmessages
  have hemits := emits_rewards (q.allDelegations d.hub) dispatcher
  have hqueued : queuedIn ((q.allDelegations d.hub).map
      (fun delegation => .withdrawDelegatorReward delegation.validator) ++
      [.wasmExecute dispatcher .dispatchRewards []]) = [] := by
    refine List.filterMap_eq_nil_iff.2 fun m hm => ?_
    rcases List.mem_append.1 hm with hm | hm
    · obtain ⟨e, -, rfl⟩ := List.mem_map.1 hm
      rfl
    · rw [List.mem_singleton.1 hm]
      rfl
  rw [← hmessages] at hemits hqueued
  have hcall := Call.intro answers h (by rw [hemits.burned_eq]; exact Nat.zero_le _)
    (by rw [hemits.sent_eq]; exact Nat.zero_le _)
  have heq : (b.paid d.toDeployment info).after hub res.messages =
      { b.paid d.toDeployment info with hub := hub } := by
    simp [Books.after, hqueued, hemits.sent_eq, hemits.minted_eq, hemits.burned_eq]
  exact heq ▸ hcall

/-- **What an accepted `UpdateGlobalIndex` does.** -/
theorem System.globalIndex_ok {s s' : System T} {sender contract : Addr} {funds : List Coin}
    (hdenom : s.dispatcher.rewardDenom = d.denom) (user : sender ≠ d.dispatcher)
    (h : s.deliverAll d CALL_DEPTH sender
      [.wasmExecute contract (.hub .updateGlobalIndex) funds] = .ok s') :
    contract = d.hub ∧ GlobalIndexUpdate d s sender funds s' := by
  rw [System.deliverAll, CALL_DEPTH, delivered_cons] at h
  obtain ⟨s₁, callee, inner, s₂, hm, hinner, hnil⟩ := h
  rw [delivered_nil] at hnil
  cases hnil
  simp only [System.deliver, System.attaches, if_neg user, System.call, bind_eq_ok, pure_eq_ok,
    Prod.exists, Prod.mk.injEq] at hm
  obtain ⟨_, rfl, _, messages, ⟨w₁, ms, hcall, rfl, rfl⟩, rfl, rfl, rfl⟩ := hm
  -- the call of the hub
  obtain ⟨rfl, q, hub, res, answers, hx, rfl, rfl⟩ := callContract_hub hcall
  have heffect := Hub.execute_ok hx
  simp only [Hub.execute, Hub.dispatch, Hub.executeUpdateGlobalIndex, bind_eq_ok, require_eq_ok,
    okOr_eq_ok, pure_eq_ok, Prod.mk.injEq] at hx
  obtain ⟨_, hpaused, dispatcher, -, rfl, rfl⟩ := hx
  have hvalidators : (q.allDelegations d.hub).map
      (fun delegation => CosmosMsg.withdrawDelegatorReward delegation.validator) =
      s.world.validators.map .withdrawDelegatorReward := by
    rw [answers.delegations]
    simp only [delegationList, World.validators, List.map_map]
    rfl
  have hcalled := called_index answers heffect
  refine ⟨rfl, ?_⟩
  rw [hvalidators, delivered_append] at hinner
  obtain ⟨s₂, hcollect, hdispatch⟩ := hinner
  have hcollected : s₂ = (s.indexed d funds).collects d s.world.validators :=
    System.deliverAll_collect _ hcollect
  obtain ⟨accrued, rewards, coins, heq⟩ := System.collects_eq s.world.validators (s.indexed d funds)
  have hfields : s₂.dispatcher = s.dispatcher ∧ s₂.restaked = s.restaked := by
    rw [hcollected, heq]
    exact ⟨rfl, rfl⟩
  -- the call of the dispatcher
  rw [delivered_cons] at hdispatch
  obtain ⟨s₃, callee, inner, s₄, hm, hinner, hnil⟩ := hdispatch
  rw [delivered_nil] at hnil
  cases hnil
  simp only [System.deliver, System.attaches, if_neg d.dispatcher_ne_hub.symm, bind_eq_ok,
    pure_eq_ok, Prod.exists, Prod.mk.injEq] at hm
  obtain ⟨_, rfl, _, messages, hcall, rfl, rfl, rfl⟩ := hm
  obtain ⟨rfl, -, hhub, rfl, fee, rest, hfee, hsplit, rfl⟩ :=
    System.call_dispatch (hfields.1 ▸ hdenom) rfl hcall
  have hstaked := System.deliverAll_split hhub (hfields.1 ▸ hdenom) hinner
  rw [hfields.1] at hfee
  rw [hfields.2] at hstaked
  exact .intro hcalled hcollected hpaused hfee hsplit hstaked

/-! ### The books of a system -/

/-- Coins reach the hub. -/
def Books.credit (b : Books) (coins : ℕ) : Books := { b with bank := b.bank + coins }

/-- **What an action of the system does to its books**: a move, coins for the
hub, or an update of the global index, which is a call of the hub, coins for the
hub, and where there are rewards a stake of the dispatcher. -/
inductive Turn (d : Protocol T) (b : Books) : SystemAction → Books → Prop
  | world {a : Action} {b' : Books} (move : Move d.toDeployment b a b') : Turn d b (.act a) b'
  | credit {act : SystemAction} (coins : ℕ) (outside : ∀ a, act ≠ .act a) :
    Turn d b act (b.credit coins)
  | index {sender : Addr} {funds : List Coin} {b₁ : Books} (coins : ℕ)
      (user : d.toDeployment.IsUser sender)
      (call : Call d.toDeployment b ⟨sender, funds⟩ .updateGlobalIndex b₁) :
      Turn d b (.act (.transact sender d.hub (.hub .updateGlobalIndex) funds)) (b₁.credit coins)
  | rewards {sender : Addr} {funds : List Coin} {b₁ b' : Books} (coins rest : ℕ)
      (user : d.toDeployment.IsUser sender)
      (call : Call d.toDeployment b ⟨sender, funds⟩ .updateGlobalIndex b₁)
      (stake : Call d.toDeployment (b₁.credit coins) ⟨d.dispatcher, [⟨d.denom, rest⟩]⟩
        .stakeRewards b') :
      Turn d b (.act (.transact sender d.hub (.hub .updateGlobalIndex) funds)) b'

/-- **A turn is a run of moves.** -/
theorem Turn.run {b b' : Books} {act : SystemAction} (h : Turn d b act b') :
    ∃ tr, Run (Move d.toDeployment) b tr b' := by
  cases h with
  | world move => exact ⟨_, .single move⟩
  | credit coins outside => exact ⟨_, .single (.credit coins)⟩
  | @index sender funds b₁ coins user call =>
    have first : Move d.toDeployment b
        (.transact sender d.hub (.hub .updateGlobalIndex) funds) b₁ :=
      .transact (.hub user rfl call)
    exact ⟨_, .tail (.single first) (.credit coins)⟩
  | @rewards sender funds b₁ b' coins rest user call stake =>
    have first : Move d.toDeployment b
        (.transact sender d.hub (.hub .updateGlobalIndex) funds) b₁ :=
      .transact (.hub user rfl call)
    have last : Move d.toDeployment (b₁.credit coins)
        (.transact d.dispatcher d.hub (.hub .stakeRewards) [⟨d.denom, rest⟩]) b' :=
      .transact (.hub d.dispatcher_isUser rfl stake)
    exact ⟨_, .tail (.tail (.single first) (.credit coins)) last⟩

/-- **An update of the global index is a turn**, and keeps the wiring. -/
theorem GlobalIndexUpdate.turn {s s' : System T} {sender : Addr} {funds : List Coin}
    (h : GlobalIndexUpdate d s sender funds s') (user : d.toDeployment.IsUser sender)
    (wired : s.Wired d) :
    Turn d (s.world.books d.toDeployment)
      (.act (.transact sender d.hub (.hub .updateGlobalIndex) funds))
      (s'.world.books d.toDeployment) ∧ s'.Wired d := by
  obtain @⟨s₂, s', fee, rest, call, collected, paused, -, -, staked⟩ := h
  obtain ⟨accrued, rewards, coins, heq⟩ := System.collects_eq s.world.validators (s.indexed d funds)
  rw [heq] at collected
  -- the world once the fee is sent
  obtain ⟨coins', hfee⟩ : ∃ coins', (s₂.sendsFee d fee).world =
      { (s.indexed d funds).world with
        bank := (s.indexed d funds).world.bank + coins' } := by
    rw [System.sendsFee, System.receives_eq, collected]
    exact ⟨_, by rw [← Nat.add_assoc]⟩
  have hbooks : (s₂.sendsFee d fee).world.books d.toDeployment =
      ((s.indexed d funds).world.books d.toDeployment).credit coins' := by
    rw [hfee]
    rfl
  have hdispatcher : (s₂.sendsFee d fee).dispatcher = s.dispatcher := by
    rw [System.sendsFee, System.receives_eq, collected]
    rfl
  have hwired : (s₂.sendsFee d fee).world.Wired d.toDeployment := by
    rw [hfee]
    exact ⟨wired.world.token_hub, wired.world.minter_eq, wired.world.hub_token⟩
  rcases staked with ⟨-, rfl⟩ | ⟨-, -, ⟨w₁, messages, hcall, hdeliver⟩, heq⟩
  · refine ⟨?_, hwired, ?_, ?_⟩
    · rw [hbooks]
      exact .index _ user call
    · rw [hdispatcher]
      exact wired.denom_eq
    · rw [hdispatcher]
      exact wired.feeRate_le
  · have hsame : s'.dispatcher = s.dispatcher := by
      rw [heq]
      exact hdispatcher
    have hstaked := deliver_response hwired hcall hdeliver
    refine ⟨?_, deliverAll_wired _ hdeliver (callContract_wired hcall hwired), ?_, ?_⟩
    · rcases hstaked with ⟨-, stake⟩ | ⟨hplain, -⟩
      · rw [hbooks] at stake
        exact .rewards _ _ user call stake
      · cases hplain
    · rw [hsame]
      exact wired.denom_eq
    · rw [hsame]
      exact wired.feeRate_le

/-! ### The refinement -/

/-- **A transaction of a user** is one of the world, or updates the global index. -/
theorem System.transact_cases {s s' : System T} {sender contract : Addr} {msg : ContractMsg}
    {funds : List Coin} (wired : s.Wired d)
    (h : s.Step d (.act (.transact sender contract msg funds)) s') :
    d.IsUser sender ∧
      ((msg ≠ .hub .updateGlobalIndex ∧ s.Beside s' s'.world ∧
          BabyLst.deliverAll d.toDeployment CALL_DEPTH s.world sender
            [.wasmExecute contract msg funds] = .ok s'.world) ∨
        (msg = .hub .updateGlobalIndex ∧ contract = d.hub ∧
          GlobalIndexUpdate d s sender funds s')) := by
  simp only [System.Step, System.exec, bind_eq_ok, require_eq_ok] at h
  obtain ⟨_, user, h⟩ := h
  refine ⟨user, ?_⟩
  by_cases hindex : msg = .hub .updateGlobalIndex
  · subst hindex
    exact .inr ⟨rfl, System.globalIndex_ok wired.denom_eq user.2 h⟩
  · refine .inl ⟨hindex, System.deliverAll_plain h fun m hm => ?_⟩
    rw [List.mem_singleton] at hm
    subst hm
    refine ⟨user.2, ?_, fun _ _ h => by cases h⟩
    cases msg with
    | hub msg => cases msg <;> first | rfl | exact absurd rfl hindex
    | token msg => rfl
    | registry msg => rfl
    | dispatchRewards =>
      -- the dispatcher is called by the hub alone
      exfalso
      rw [System.deliverAll, CALL_DEPTH, delivered_cons] at h
      obtain ⟨s₁, callee, inner, s₂, hm, -, -⟩ := h
      simp only [System.deliver, System.attaches, if_neg user.2, System.call, Dispatcher.execute,
        Dispatcher.executeDispatchRewards, bind_eq_ok, require_eq_ok, pure_eq_ok,
        Prod.exists] at hm
      obtain ⟨_, -, _, _, ⟨_, -, _, _, ⟨_, ⟨_, hpaused, _, -, _, hhub, -⟩, -⟩, -⟩, -⟩ := hm
      simp only [System.querier, World.querier, answerAt] at hpaused
      split_ifs at hpaused with heq
      exact user.1.1 (hhub.symm.trans heq)

/-- **Every accepted action of the system is a turn of its books**, and the
contracts stay wired. -/
theorem System.exec_books {s s' : System T} {act : SystemAction} (wired : s.Wired d)
    (h : s.Step d act s') :
    Turn d (s.world.books d.toDeployment) act (s'.world.books d.toDeployment) ∧ s'.Wired d := by
  cases act with
  | act a =>
    cases a with
    | transact sender contract msg funds =>
      obtain ⟨user, ⟨-, hbeside, hdeliver⟩ | ⟨rfl, rfl, hupdate⟩⟩ :=
        System.transact_cases wired h
      · have hdispatcher : s'.dispatcher = s.dispatcher := by rw [hbeside]
        refine ⟨.world (.transact (transact_books wired.world user.1 hdeliver)),
          deliverAll_wired _ hdeliver wired.world, ?_, ?_⟩
        · rw [hdispatcher]
          exact wired.denom_eq
        · rw [hdispatcher]
          exact wired.feeRate_le
      · exact hupdate.turn user.1 wired
    | credit amount =>
      simp only [System.Step, System.exec, bind_eq_ok, pure_eq_ok] at h
      obtain ⟨w, hw, rfl⟩ := h
      obtain ⟨hmove, hwired⟩ := World.exec_books hw wired.world
      exact ⟨.world hmove, hwired, wired.denom_eq, wired.feeRate_le⟩
    | advance block delegations =>
      simp only [System.Step, System.exec, bind_eq_ok, pure_eq_ok] at h
      obtain ⟨w, hw, rfl⟩ := h
      obtain ⟨hmove, hwired⟩ := World.exec_books hw wired.world
      exact ⟨.world hmove, hwired, wired.denom_eq, wired.feeRate_le⟩
  | configure sender owner hubContract feeAddr feeRate =>
    simp only [System.Step, System.exec, Dispatcher.execute, bind_eq_ok, require_eq_ok, pure_eq_ok,
      Prod.exists, Prod.mk.injEq] at h
    obtain ⟨_, -, config, response, ⟨config', hconfig, rfl, rfl⟩, rfl⟩ := h
    refine ⟨.credit 0 (fun _ h => by cases h), wired.world, ?_,
      Dispatcher.executeUpdateConfig_feeRate_le wired.feeRate_le hconfig⟩
    simp only [Dispatcher.executeUpdateConfig, bind_eq_ok, pure_eq_ok] at hconfig
    obtain ⟨-, -, -, -, -, -, -, -, -, -, rfl⟩ := hconfig
    exact wired.denom_eq
  | gift amount =>
    simp only [System.Step, System.exec, pure_eq_ok] at h
    subst h
    rw [System.receives_eq, if_neg d.dispatcher_ne_hub]
    exact ⟨.credit 0 (fun _ h => by cases h), wired.world.congr rfl rfl, wired.denom_eq,
      wired.feeRate_le⟩
  | accrue validator amount =>
    simp only [System.Step, System.exec, pure_eq_ok] at h
    subst h
    exact ⟨.credit 0 (fun _ h => by cases h), wired.world, wired.denom_eq, wired.feeRate_le⟩
  | payout validator =>
    simp only [System.Step, System.exec, pure_eq_ok] at h
    subst h
    rw [System.paysOut_eq]
    exact ⟨.credit _ (fun _ h => by cases h), wired.world.congr rfl rfl, wired.denom_eq,
      wired.feeRate_le⟩

theorem System.Created.wired {s : System T} (h : s.Created d) : s.Wired d := by
  obtain ⟨q, info, msg, hinst, -, hdenom⟩ := h.dispatcher_created
  refine ⟨h.world.wired, ?_, Dispatcher.Run.feeRate_le hinst .refl⟩
  simp only [Dispatcher.instantiate, bind_eq_ok, pure_eq_ok] at hinst
  obtain ⟨_, -, _, -, _, -, heq⟩ := hinst
  rw [← heq]
  exact hdenom

/-- Every system that a run leads to is wired, and its books are regular. -/
theorem System.Created.regular {s s' : System T} {tr : List (SystemAction × System T)}
    (created : s.Created d) (run : Run (System.Step d) s tr s') :
    s'.Wired d ∧ (s'.world.books d.toDeployment).Regular d.toDeployment := by
  refine run.invariant (P := fun t => t.Wired d ∧
    (t.world.books d.toDeployment).Regular d.toDeployment)
    ⟨created.wired, created.world.reached.1.regular⟩ fun t act u ht hstep => ?_
  obtain ⟨turn, wired⟩ := System.exec_books ht.1 hstep
  obtain ⟨moves, hmoves⟩ := turn.run
  exact ⟨wired, hmoves.invariant (P := Books.Regular d.toDeployment) ht.2
    fun _ _ _ hb hmove => (hmove.accounts hb).2⟩

/-- **The system refines its books**: whatever the four contracts, their users
and the chain do, rewards and the dispatcher included, is a run of the moves of
the books, which know no dispatcher. -/
theorem system_refines_books {s s' : System T} {tr : List (SystemAction × System T)}
    (created : s.Created d) (run : Run (System.Step d) s tr s') :
    s'.Wired d ∧ ∃ moves, Run (Move d.toDeployment) (s.world.books d.toDeployment) moves
      (s'.world.books d.toDeployment) := by
  refine run.invariant (P := fun t => t.Wired d ∧ ∃ moves, Run (Move d.toDeployment)
    (s.world.books d.toDeployment) moves (t.world.books d.toDeployment))
    ⟨created.wired, [], .refl⟩ fun t act u ht hstep => ?_
  obtain ⟨hwired, moves, hmoves⟩ := ht
  obtain ⟨hturn, hwired'⟩ := System.exec_books hwired hstep
  obtain ⟨moves', hmoves'⟩ := hturn.run
  exact ⟨hwired', _, hmoves.append hmoves'⟩

/-- 65 are split: 7 are sent as the fee and 58 staked. -/
theorem system_refines_books_sample :
    (systemEnd sampleRewards).fees = 7 ∧ (systemEnd sampleRewards).restaked = 58 ∧
      (systemEnd sampleRewards).Wired sampleProtocol ∧
      ∃ moves, Run (Move sampleDeployment) (sampleSystem.world.books sampleDeployment) moves
        ((systemEnd sampleRewards).world.books sampleDeployment) := by
  have run := systemRun sampleRewards (by decide +kernel)
  have facts : (systemEnd sampleRewards).fees = 7 ∧ (systemEnd sampleRewards).restaked = 58 := by
    decide +kernel
  exact ⟨facts.1, facts.2, system_refines_books sampleSystem_created run⟩

end BabyLst
