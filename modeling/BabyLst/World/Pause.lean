/-
# A paused hub

While the hub is paused it accepts nothing but the owner's `UpdateParams`.  The
token, the registry and the dispatcher have no pause of their own, but what they
do for the accounting they do through the hub: a burn asks it to check for
slashing, tokens sent to it are handed over to it, a redelegation is passed
through it, and the dispatcher asks it whether it is paused.  So all of that is
refused too, and what is left changes nothing that the accounting depends on
(`paused_hub_is_frozen`).
-/

import BabyLst.World.Authority

namespace BabyLst

open Lib Std

variable {T : Type} {d : Protocol T}

/-- A paused hub accepts `UpdateParams` only. -/
theorem Hub.execute_paused {q : Querier} {st : Hub.Storage} {env : Env} {info : MessageInfo}
    {msg : HubMsg} {r : Hub.Storage × Response} (h : Hub.execute q st env info msg = .ok r)
    (paused : st.parameters.paused = true) :
    ∃ pause epochLength unstakingPeriod, msg = .updateParams pause epochLength unstakingPeriod := by
  cases msg with
  | updateParams pause epochLength unstakingPeriod => exact ⟨_, _, _, rfl⟩
  | _ =>
    simp only [Hub.execute, bind_eq_ok, require_eq_ok] at h
    obtain ⟨_, hunpaused, -⟩ := h
    rw [paused] at hunpaused
    cases hunpaused

/-- A message for the hub, other than its owner's, is refused while the hub is
paused. -/
theorem System.deliver_paused {s s' : System T} {sender callee contract : Addr} {msg : HubMsg}
    {funds : List Coin} {inner : List CosmosMsg}
    (h : s.deliver d sender (.wasmExecute contract (.hub msg) funds) = .ok (s', callee, inner))
    (paused : s.world.hub.parameters.paused = true) :
    ∃ pause epochLength unstakingPeriod, msg = .updateParams pause epochLength unstakingPeriod := by
  have hcalled := System.deliver_called h
  generalize hmsg : ContractMsg.hub msg = m at hcalled
  cases hcalled with
  | @called msg' c env_eq sender_eq msg_eq same accepted =>
    cases hmsg
    rw [← msg_eq]
    exact Hub.execute_paused accepted paused
  | other same kept not_hub => exact absurd hmsg.symm (not_hub msg)

/-- The action is the owner's `UpdateParams`. -/
def SystemAction.setsParams (owner : Addr) : SystemAction → Bool
  | .act (.transact sender _ (.hub (.updateParams _ _ _)) _) => sender = owner
  | _ => false

/-- **What the accounting depends on stays**: the hub and the supply are as they
were, nothing more is queued, and no coin has left the hub but the stake that was
queued before; the dispatcher has sent nothing. -/
structure System.Frozen (d : Protocol T) (s s' : System T) : Prop where
  hub_eq : s'.world.hub = s.world.hub
  supply_eq : d.cw20.totalSupply s'.world.token.cw20 = d.cw20.totalSupply s.world.token.cw20
  queue_eq : s'.world.queue = s.world.queue ∨ s'.world.queue = []
  bank_le : s.world.bank + queuedStake s'.world.queue ≤ s'.world.bank + queuedStake s.world.queue
  fees_eq : s'.fees = s.fees
  restaked_eq : s'.restaked = s.restaked
  rewards_le : s.rewards ≤ s'.rewards

theorem System.Frozen.refl (s : System T) : s.Frozen d s :=
  ⟨rfl, rfl, .inl rfl, le_rfl, rfl, rfl, le_rfl⟩

theorem System.Frozen.trans {s t u : System T} (h : s.Frozen d t) (h' : t.Frozen d u) :
    s.Frozen d u := by
  refine ⟨h'.hub_eq.trans h.hub_eq, h'.supply_eq.trans h.supply_eq, ?_, ?_,
    h'.fees_eq.trans h.fees_eq, h'.restaked_eq.trans h.restaked_eq,
    h.rewards_le.trans h'.rewards_le⟩
  · rcases h'.queue_eq with hq | hq
    · rw [hq]
      exact h.queue_eq
    · exact .inr hq
  · have := h.bank_le
    have := h'.bank_le
    omega

/-- A system with more coins for the hub or the dispatcher. -/
theorem System.Frozen.receives (s : System T) (a : Addr) (amount : ℕ) :
    s.Frozen d (s.receives d a amount) := by
  rw [System.receives_eq]
  refine ⟨rfl, rfl, .inl rfl, ?_, rfl, rfl, Nat.le_add_right ..⟩
  dsimp only
  omega

/-- A message that asks the hub for something else than `UpdateParams`. -/
def CosmosMsg.AsksHub (m : CosmosMsg) : Prop :=
  ∃ contract msg funds, m = .wasmExecute contract (.hub msg) funds ∧
    ∀ pause epochLength unstakingPeriod, msg ≠ .updateParams pause epochLength unstakingPeriod

/-- What the token answers with asks the hub. -/
theorem Token.messagesOf_asksHub {st : Token.Storage T} {sender : Addr} {msg : Cw20Msg} :
    ∀ m ∈ Token.messagesOf st sender msg, m.AsksHub := by
  intro m hm
  cases msg with
  | burn => exact ⟨_, _, _, List.mem_singleton.1 hm, fun _ _ _ h => by cases h⟩
  | burnFrom => exact ⟨_, _, _, List.mem_singleton.1 hm, fun _ _ _ h => by cases h⟩
  | send => exact ⟨_, _, _, List.mem_singleton.1 hm, fun _ _ _ h => by cases h⟩
  | sendFrom => exact ⟨_, _, _, List.mem_singleton.1 hm, fun _ _ _ h => by cases h⟩
  | _ => cases hm

/-- A token that answers with nothing has burned nothing. -/
theorem Token.burned_of_silent {st : Token.Storage T} {sender : Addr} {msg : Cw20Msg}
    (silent : Token.messagesOf st sender msg = []) : msg.burned = 0 := by
  cases msg with
  | burn => cases silent
  | burnFrom => cases silent
  | _ => rfl

/-- What the registry answers with asks the hub. -/
theorem Registry.execute_asksHub {deps : Registry.Deps} {st st' : Registry.Storage}
    {info : MessageInfo} {msg : RegistryMsg} {messages : List CosmosMsg}
    (h : Registry.execute deps st info msg = .ok (st', messages)) :
    ∀ m ∈ messages, m.AsksHub := by
  intro m hm
  cases msg with
  | processRedelegations =>
    simp only [Registry.execute, bind_eq_ok, pure_eq_ok, Prod.mk.injEq] at h
    obtain ⟨ms, hp, -, rfl⟩ := h
    obtain ⟨v, rs, rfl, -⟩ := Registry.processRedelegations_messages hp m hm
    exact ⟨_, _, _, rfl, fun _ _ _ h => by cases h⟩
  | _ =>
    simp only [Registry.execute, bind_eq_ok, pure_eq_ok, Prod.mk.injEq] at h
    obtain ⟨_, -, -, rfl⟩ := h
    cases hm

/-- A paused hub refuses what it is asked, so a transaction that went through has
asked it nothing. -/
theorem System.delivered_silent {s s' : System T} {depth : ℕ} {sender : Addr}
    {messages : List CosmosMsg}
    (h : delivered (System.deliver d) .diverges (depth + 1) s sender messages = .ok s')
    (paused : s.world.hub.parameters.paused = true) (asks : ∀ m ∈ messages, m.AsksHub) :
    messages = [] ∧ s' = s := by
  cases messages with
  | nil =>
    rw [delivered_nil] at h
    cases h
    exact ⟨rfl, rfl⟩
  | cons m ms =>
    obtain ⟨contract, msg, funds, rfl, hne⟩ := asks m List.mem_cons_self
    rw [delivered_cons] at h
    obtain ⟨_, _, _, _, hfirst, -, -⟩ := h
    obtain ⟨_, _, _, rfl⟩ := System.deliver_paused hfirst paused
    exact absurd rfl (hne _ _ _)

/-- **A call of the token that asks the hub nothing**: it has burned nothing and,
for a user, minted nothing. -/
theorem System.token_frozen {s s' : System T} {sender contract callee : Addr} {msg : Cw20Msg}
    {funds : List Coin} {inner : List CosmosMsg} (wired : s.Wired d) (user : d.IsUser sender)
    (h : s.deliver d sender (.wasmExecute contract (.token msg) funds) = .ok (s', callee, inner)) :
    s'.world.hub = s.world.hub ∧ (∀ m ∈ inner, m.AsksHub) ∧ (inner = [] → s.Frozen d s') := by
  simp only [System.deliver, System.attaches, if_neg user.2, System.call, bind_eq_ok, pure_eq_ok,
    Prod.exists, Prod.mk.injEq] at h
  obtain ⟨_, rfl, _, ms, ⟨w', ms', hcall, rfl, rfl⟩, rfl, rfl, rfl⟩ := h
  obtain ⟨-, rfl, ⟨token, rfl⟩, hsupply, hminter⟩ := callContract_token hcall
  refine ⟨rfl, Token.messagesOf_asksHub, fun silent => ?_⟩
  have hminted : msg.minted = 0 := by
    cases msg with
    | mint recipient amount =>
      have hsender := hminter recipient amount rfl
      rw [wired.world.minter_eq] at hsender
      exact absurd (Option.some.inj hsender).symm user.1.1
    | _ => rfl
  refine ⟨rfl, ?_, .inl rfl, le_rfl, rfl, rfl, le_rfl⟩
  rw [hminted, Token.burned_of_silent silent] at hsupply
  exact hsupply

/-- A call of the registry changes nothing but the registry. -/
theorem System.registry_frozen {s s' : System T} {sender contract callee : Addr}
    {msg : RegistryMsg} {funds : List Coin} {inner : List CosmosMsg} (user : d.IsUser sender)
    (h : s.deliver d sender (.wasmExecute contract (.registry msg) funds) =
      .ok (s', callee, inner)) :
    s'.world.hub = s.world.hub ∧ (∀ m ∈ inner, m.AsksHub) ∧ s.Frozen d s' := by
  simp only [System.deliver, System.attaches, if_neg user.2, System.call, callContract,
    bind_eq_ok, pure_eq_ok, Prod.exists, Prod.mk.injEq] at h
  obtain ⟨_, rfl, _, ms, ⟨w', ms', ⟨_, -, registry, ms'', hx, rfl, rfl⟩, rfl, rfl⟩, rfl, rfl,
    rfl⟩ := h
  exact ⟨rfl, Registry.execute_asksHub hx, rfl, rfl, .inl rfl, le_rfl, rfl, rfl, le_rfl⟩

/-- The dispatcher takes `DispatchRewards` from the hub only. -/
theorem System.dispatchRewards_refused {s : System T} {sender contract : Addr}
    {funds : List Coin} {r : System T × Addr × List CosmosMsg} (user : d.IsUser sender) :
    s.deliver d sender (.wasmExecute contract .dispatchRewards funds) ≠ .ok r := by
  intro h
  simp only [System.deliver, System.attaches, if_neg user.2, System.call, Dispatcher.execute,
    Dispatcher.executeDispatchRewards, bind_eq_ok, require_eq_ok, pure_eq_ok,
    Prod.exists] at h
  obtain ⟨_, -, _, _, ⟨_, -, _, _, ⟨_, ⟨_, hpaused, _, -, _, hhub, -⟩, -⟩, -⟩, -⟩ := h
  simp only [System.querier, World.querier, answerAt] at hpaused
  split_ifs at hpaused with heq
  exact absurd (hhub.symm.trans heq) user.1.1

/-- **A transaction while the hub is paused** is the owner's `UpdateParams`, or
calls the token or the registry without a message to the hub. -/
theorem System.paused_transact {s s' : System T} {sender contract : Addr} {msg : ContractMsg}
    {funds : List Coin} (wired : s.Wired d) (paused : s.world.hub.parameters.paused = true)
    (h : s.Step d (.act (.transact sender contract msg funds)) s') :
    (SystemAction.act (.transact sender contract msg funds)).setsParams
        s.world.hub.config.owner = true ∨ s.Frozen d s' := by
  simp only [System.Step, System.exec, bind_eq_ok, require_eq_ok] at h
  obtain ⟨_, user, h⟩ := h
  rw [System.deliverAll, CALL_DEPTH, delivered_cons] at h
  obtain ⟨s₁, callee, inner, s₂, hm, hinner, hnil⟩ := h
  rw [delivered_nil] at hnil
  cases hnil
  cases msg with
  | hub msg =>
    obtain ⟨pause, epochLength, unstakingPeriod, rfl⟩ := System.deliver_paused hm paused
    obtain ⟨-, -, hgoverned⟩ := System.deliver_call hm
    exact .inl (decide_eq_true (hgoverned.governor _ rfl rfl))
  | token msg =>
    obtain ⟨hhub, hasks, hfrozen⟩ := System.token_frozen wired user hm
    obtain ⟨hnone, rfl⟩ := System.delivered_silent hinner (hhub ▸ paused) hasks
    exact .inr (hfrozen hnone)
  | registry msg =>
    obtain ⟨hhub, hasks, hfrozen⟩ := System.registry_frozen user hm
    obtain ⟨-, rfl⟩ := System.delivered_silent hinner (hhub ▸ paused) hasks
    exact .inr hfrozen
  | dispatchRewards => exact absurd hm (System.dispatchRewards_refused user)

/-- **One action while the hub is paused.** -/
theorem System.Step.paused {s s' : System T} {act : SystemAction} (h : s.Step d act s')
    (wired : s.Wired d) (paused : s.world.hub.parameters.paused = true)
    (steady : act.setsParams s.world.hub.config.owner = false) : s.Frozen d s' := by
  cases act with
  | act a =>
    cases a with
    | transact sender contract msg funds =>
      rcases System.paused_transact wired paused h with hset | hfrozen
      · rw [steady] at hset
        cases hset
      · exact hfrozen
    | credit amount =>
      simp only [System.Step, System.exec, World.exec, bind_eq_ok, pure_eq_ok] at h
      obtain ⟨_, rfl, rfl⟩ := h
      refine ⟨rfl, rfl, .inl rfl, ?_, rfl, rfl, le_rfl⟩
      dsimp only
      omega
    | advance block delegations =>
      simp only [System.Step, System.exec, World.exec, advance, bind_eq_ok, require_eq_ok,
        pure_eq_ok] at h
      obtain ⟨w, ⟨_, -, hw⟩, rfl⟩ := h
      split_ifs at hw
      · cases hw
        exact ⟨rfl, rfl, .inl rfl, le_rfl, rfl, rfl, le_rfl⟩
      · simp only [bind_eq_ok, checkedSub_eq_ok, pure_eq_ok] at hw
        obtain ⟨_, ⟨hle, rfl⟩, rfl⟩ := hw
        refine ⟨rfl, rfl, .inr rfl, ?_, rfl, rfl, le_rfl⟩
        have hnone : queuedStake [] = 0 := rfl
        dsimp only
        omega
  | configure sender owner hubContract feeAddr feeRate =>
    simp only [System.Step, System.exec, bind_eq_ok, pure_eq_ok, Prod.exists] at h
    obtain ⟨_, -, config, response, -, rfl⟩ := h
    exact ⟨rfl, rfl, .inl rfl, le_rfl, rfl, rfl, le_rfl⟩
  | gift amount =>
    simp only [System.Step, System.exec, pure_eq_ok] at h
    subst h
    exact .receives s _ amount
  | accrue validator amount =>
    simp only [System.Step, System.exec, pure_eq_ok] at h
    subst h
    exact ⟨rfl, rfl, .inl rfl, le_rfl, rfl, rfl, le_rfl⟩
  | payout validator =>
    simp only [System.Step, System.exec, pure_eq_ok] at h
    subst h
    exact System.Frozen.trans (t := { s with accrued := s.accrued.erase validator })
      ⟨rfl, rfl, .inl rfl, le_rfl, rfl, rfl, le_rfl⟩ (.receives _ s.withdrawAddress _)

/-- **A paused hub is frozen**: from any system reached with the hub paused, and
until its owner sends `UpdateParams`, whatever the users and the other owners
send and the chain does, its storage and the supply of the token do not change,
nothing is staked, unstaked or redelegated, and no coin leaves the hub or the
dispatcher but the stake that was queued before. -/
theorem paused_hub_is_frozen {s₀ s s' : System T} {tr₀ tr : List (SystemAction × System T)}
    (created : s₀.Created d) (before : Run (System.Step d) s₀ tr₀ s)
    (paused : s.world.hub.parameters.paused = true) (run : Run (System.Step d) s tr s')
    (steady : ∀ e ∈ tr, e.1.setsParams s.world.hub.config.owner = false) : s.Frozen d s' := by
  have wired : s.Wired d := (created.regular before).1
  have frozen : s'.Wired d ∧ s.Frozen d s' := by
    induction run with
    | refl => exact ⟨wired, .refl s⟩
    | tail run last ih =>
      obtain ⟨hwired, hfrozen⟩ := ih fun e he => steady e (List.mem_append_left _ he)
      have hlast := steady _ (List.mem_append_right _ (List.mem_singleton_self _))
      refine ⟨(System.exec_books hwired last).2, hfrozen.trans (last.paused hwired ?_ ?_)⟩
      · rw [hfrozen.hub_eq]
        exact paused
      · rw [hfrozen.hub_eq]
        exact hlast
  exact frozen.2

/-- The hub is paused with a stake of 100 queued, and tokens are handed on: the
stake is taken at the end of the epoch, and nothing else happens. -/
theorem paused_hub_is_frozen_sample :
    let s := systemEnd [acts (stakes "alice" 100),
      acts (toHub "owner" (.updateParams (some true) none none))]
    let s' := playEnd (System.line anyAct) s
      [acts (toToken "alice" (.transfer "bob" 30)), acts (.ends ⟨460, 3600⟩), fun _ => .gift 5]
    s.world.bank = 100 ∧ s'.world.bank = 0 ∧ s'.rewards = 5 ∧
      s'.world.delegations[sampleValidator]? = some 100 ∧ s.Frozen sampleProtocol s' := by
  intro s s'
  have before := systemRun [acts (stakes "alice" 100),
    acts (toHub "owner" (.updateParams (some true) none none))] (by decide +kernel)
  have run := System.playedFrom s
    [acts (toToken "alice" (.transfer "bob" 30)), acts (.ends ⟨460, 3600⟩), fun _ => .gift 5]
    (fun {s s' act} (h : s.Step sampleProtocol act s') (_ : anyAct s act = true) => h)
    (by decide +kernel)
  have facts : s.world.bank = 100 ∧ s'.world.bank = 0 ∧ s'.rewards = 5 ∧
      s'.world.delegations[sampleValidator]? = some 100 ∧
      s.world.hub.parameters.paused = true ∧
      ∀ e ∈ playTrace (System.line anyAct) s
          [acts (toToken "alice" (.transfer "bob" 30)), acts (.ends ⟨460, 3600⟩), fun _ => .gift 5],
        e.1.setsParams s.world.hub.config.owner = false := by
    decide +kernel
  obtain ⟨hbank, hbank', hrewards, hdelegated, hpaused, hsteady⟩ := facts
  exact ⟨hbank, hbank', hrewards, hdelegated,
    paused_hub_is_frozen sampleSystem_created before hpaused run hsteady⟩

end BabyLst
