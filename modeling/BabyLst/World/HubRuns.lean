/-
# The hub inside the system

The modules of the hub prove what they prove about its runs alone: `Hub.Step` is
an accepted call, whatever the outside answers.  In the system the hub is called
by users, by the token, the registry and the dispatcher, within one transaction
and several times.  `system_refines_hub` is the simulation: every run of the
system is, for the hub, a run of its calls, in blocks that do not go back, and
each of these calls is a user's message, a request that the token hands over for
a user, or one of the three that the contracts make among themselves
(`SystemAction.Makes`).  So what the hub keeps over its runs it keeps here.
-/

import BabyLst.Hub.Ledger
import BabyLst.World.Rewards

namespace BabyLst

open Lib Std

variable {T : Type} {d : Protocol T}

/-- What the hub and the chain's block look like after a call of the hub, or of
another contract. -/
inductive HubCalled (d : Deployment T) (w w' : World T) (sender : Addr) :
    ContractMsg → Prop
  | called {msg : HubMsg} {c : Hub.Call} (env_eq : c.env = w.env d.hub)
      (sender_eq : c.info.sender = sender) (msg_eq : c.msg = msg) (same : w'.block = w.block)
      (accepted : Hub.execute c.querier w.hub c.env c.info c.msg = .ok (w'.hub, c.response)) :
      HubCalled d w w' sender (.hub msg)
  | other {msg : ContractMsg} (same : w'.block = w.block) (kept : w'.hub = w.hub)
      (not_hub : ∀ m, msg ≠ .hub m) : HubCalled d w w' sender msg

theorem callContract_called {d : Deployment T} {w w' : World T} {sender contract : Addr}
    {funds : List Coin} {msg : ContractMsg} {messages : List CosmosMsg}
    (h : callContract d w sender contract funds msg = .ok (w', messages)) :
    HubCalled d w w' sender msg := by
  cases msg with
  | hub msg =>
    obtain ⟨-, q, hub, res, -, hx, -, rfl⟩ := callContract_hub h
    exact .called (c := ⟨q, w.env d.hub, ⟨sender, funds⟩, msg, res⟩) rfl rfl rfl rfl hx
  | token msg =>
    obtain ⟨-, -, ⟨token, rfl⟩, -⟩ := callContract_token h
    exact .other rfl rfl fun _ h => by cases h
  | registry msg =>
    simp only [callContract, bind_eq_ok, require_eq_ok, Prod.exists, pure_eq_ok,
      Prod.mk.injEq] at h
    obtain ⟨_, -, registry, ms, hx, rfl, rfl⟩ := h
    exact .other rfl rfl fun _ h => by cases h
  | dispatchRewards => simp [callContract] at h

/-- A call in the system is a call of the hub, or leaves the hub alone. -/
theorem System.call_called {s s' : System T} {sender contract : Addr} {funds : List Coin}
    {msg : ContractMsg} {messages : List CosmosMsg}
    (h : s.call d sender contract funds msg = .ok (s', messages)) :
    HubCalled d.toDeployment s.world s'.world sender msg := by
  have hworld : (∃ w', callContract d.toDeployment s.world sender contract funds msg =
      .ok (w', messages) ∧ s' = { s with world := w' }) →
      HubCalled d.toDeployment s.world s'.world sender msg := by
    rintro ⟨w', hcall, rfl⟩
    exact callContract_called hcall
  cases msg with
  | dispatchRewards =>
    simp only [System.call, bind_eq_ok, require_eq_ok, pure_eq_ok, Prod.exists, Prod.mk.injEq,
      System.receives_eq] at h
    obtain ⟨_, rfl, config, response, -, rfl, rfl⟩ := h
    exact .other rfl rfl fun _ h => by cases h
  | hub msg =>
    simp only [System.call, bind_eq_ok, Prod.exists, pure_eq_ok, Prod.mk.injEq] at h
    obtain ⟨w', ms, hcall, rfl, rfl⟩ := h
    exact hworld ⟨w', hcall, rfl⟩
  | token msg =>
    simp only [System.call, bind_eq_ok, Prod.exists, pure_eq_ok, Prod.mk.injEq] at h
    obtain ⟨w', ms, hcall, rfl, rfl⟩ := h
    exact hworld ⟨w', hcall, rfl⟩
  | registry msg =>
    simp only [System.call, bind_eq_ok, Prod.exists, pure_eq_ok, Prod.mk.injEq] at h
    obtain ⟨w', ms, hcall, rfl, rfl⟩ := h
    exact hworld ⟨w', hcall, rfl⟩

/-- The dispatcher's coins are attached without a change of the world. -/
theorem System.attaches_ok {s s' : System T} {sender : Addr} {amount : ℕ}
    (h : s.attaches d sender amount = .ok s') :
    ∃ rewards restaked, s' = { s with
      rewards := rewards
      restaked := restaked } := by
  unfold System.attaches at h
  split_ifs at h
  · simp only [bind_eq_ok, pure_eq_ok] at h
    obtain ⟨rest, -, rfl⟩ := h
    exact ⟨_, _, rfl⟩
  · cases h
    exact ⟨_, _, rfl⟩

/-- What the chain takes itself changes no storage of a contract, and is answered
with nothing. -/
theorem System.deliver_toChain {s s' : System T} {sender callee : Addr} {m : CosmosMsg}
    {inner : List CosmosMsg} (hm : m.toChain = true)
    (h : s.deliver d sender m = .ok (s', callee, inner)) :
    inner = [] ∧ s'.world.block = s.world.block ∧ s'.world.hub = s.world.hub ∧
      s'.world.registry = s.world.registry ∧ s'.world.token = s.world.token ∧
      s'.dispatcher = s.dispatcher ∧
      (s'.withdrawAddress = s.withdrawAddress ∨ ∃ a, m = .setWithdrawAddress a) := by
  have staking : ∀ r, BabyLst.deliver d.toDeployment s.world sender m = .ok r →
      ({ s with world := r.1 }, sender, []) = (s', callee, inner) →
      inner = [] ∧ s'.world.block = s.world.block ∧ s'.world.hub = s.world.hub ∧
        s'.world.registry = s.world.registry ∧ s'.world.token = s.world.token ∧
        s'.dispatcher = s.dispatcher ∧
        (s'.withdrawAddress = s.withdrawAddress ∨ ∃ a, m = .setWithdrawAddress a) := by
    rintro ⟨w', callee', inner'⟩ hr heq
    simp only [Prod.mk.injEq] at heq
    obtain ⟨rfl, -, rfl⟩ := heq
    obtain ⟨rfl, -, -⟩ := deliver_chain hm hr
    exact ⟨rfl, rfl, rfl, rfl, rfl, rfl, .inl rfl⟩
  cases m with
  | wasmExecute => cases hm
  | wrappedDelegate =>
    simp only [System.deliver, bind_eq_ok, pure_eq_ok] at h
    obtain ⟨r, hr, heq⟩ := h
    exact staking r hr heq
  | wrappedUndelegate =>
    simp only [System.deliver, bind_eq_ok, pure_eq_ok] at h
    obtain ⟨r, hr, heq⟩ := h
    exact staking r hr heq
  | wrappedBeginRedelegate =>
    simp only [System.deliver, bind_eq_ok, pure_eq_ok] at h
    obtain ⟨r, hr, heq⟩ := h
    exact staking r hr heq
  | withdrawDelegatorReward =>
    simp only [System.deliver, bind_eq_ok, pure_eq_ok, Prod.mk.injEq, System.paysOut_eq] at h
    obtain ⟨_, -, rfl, -, rfl⟩ := h
    exact ⟨rfl, rfl, rfl, rfl, rfl, rfl, .inl rfl⟩
  | setWithdrawAddress a =>
    simp only [System.deliver, bind_eq_ok, pure_eq_ok, Prod.mk.injEq] at h
    obtain ⟨_, -, rfl, -, rfl⟩ := h
    exact ⟨rfl, rfl, rfl, rfl, rfl, rfl, .inr ⟨a, rfl⟩⟩
  | bankSend toAddress amount =>
    by_cases hsender : sender = d.dispatcher
    · simp only [System.deliver, if_pos hsender, bind_eq_ok, pure_eq_ok, Prod.mk.injEq,
        System.receives_eq] at h
      obtain ⟨_, -, rest, -, rfl, -, rfl⟩ := h
      exact ⟨rfl, rfl, rfl, rfl, rfl, rfl, .inl rfl⟩
    · simp only [System.deliver, if_neg hsender, bind_eq_ok, pure_eq_ok, Prod.mk.injEq,
        System.receives_eq] at h
      obtain ⟨⟨w', callee', inner'⟩, hr, rfl, -, rfl⟩ := h
      obtain ⟨rfl, -, -⟩ := deliver_chain hm hr
      exact ⟨rfl, rfl, rfl, rfl, rfl, rfl, .inl rfl⟩

/-- **One message of the system** is for the chain, or a call of a contract. -/
theorem System.deliver_called {s s' : System T} {sender callee contract : Addr}
    {funds : List Coin} {msg : ContractMsg} {inner : List CosmosMsg}
    (h : s.deliver d sender (.wasmExecute contract msg funds) = .ok (s', callee, inner)) :
    HubCalled d.toDeployment s.world s'.world sender msg := by
  simp only [System.deliver, bind_eq_ok, Prod.exists, pure_eq_ok, Prod.mk.injEq] at h
  obtain ⟨s₁, hattach, s₂, ms, hcall, rfl, rfl, rfl⟩ := h
  obtain ⟨rewards, restaked, rfl⟩ := System.attaches_ok hattach
  have hcalled := System.call_called hcall
  exact hcalled

/-- The chain going on changes no storage of a contract. -/
theorem advance_ok {d : Deployment T} {w w' : World T} {block : Block}
    {delegations : ExtTreeMap String ℕ} (h : advance d w block delegations = .ok w') :
    (w.block.height ≤ block.height ∧ w.block.time ≤ block.time ∧ w'.block = block) ∧
      w'.hub = w.hub ∧ w'.registry = w.registry ∧ w'.token = w.token := by
  simp only [advance, bind_eq_ok, require_eq_ok] at h
  obtain ⟨_, ⟨hheight, htime⟩, h⟩ := h
  split_ifs at h
  · cases h
    exact ⟨⟨hheight, htime, rfl⟩, rfl, rfl, rfl⟩
  · simp only [bind_eq_ok, pure_eq_ok] at h
    obtain ⟨bank, -, rfl⟩ := h
    exact ⟨⟨hheight, htime, rfl⟩, rfl, rfl, rfl⟩

/-! ### The hub's calls -/

/-- The messages that the other contracts send the hub on their own account. -/
def HubMsg.between : HubMsg → Bool
  | .checkSlashing => true
  | .stakeRewards => true
  | .redelegateProxy _ _ => true
  | _ => false

/-- The messages by which tokens are sent to a contract. -/
def Cw20Msg.sends : Cw20Msg → Bool
  | .send _ _ _ => true
  | .sendFrom _ _ _ _ => true
  | _ => false

/-- A message to the chain, to the dispatcher, or to the hub or the token that
hands nothing over. -/
def CosmosMsg.between : CosmosMsg → Bool
  | .wasmExecute _ (.hub msg) _ => msg.between
  | .wasmExecute _ (.token msg) _ => !msg.sends
  | .wasmExecute _ (.registry _) _ => false
  | _ => true

/-- **The calls of the hub that an action may lead to**: the message of a user,
who is not the token and so hands nothing over; what a user has sent to the hub
through the token; and what contracts send on their own account. -/
inductive SystemAction.Makes (d : Protocol T) : SystemAction → Hub.Call → Prop
  | direct {sender contract : Addr} {msg : HubMsg} {funds : List Coin} {c : Hub.Call}
      (user : d.IsUser sender) (msg_eq : c.msg = msg) (sender_eq : c.info.sender = sender)
      (own : ∀ received, msg ≠ .receive received) :
      Makes d (.act (.transact sender contract (.hub msg) funds)) c
  | handed {sender contract : Addr} {msg : Cw20Msg} {funds : List Coin} {c : Hub.Call}
      {received : Cw20ReceiveMsg} (sends : msg.sends = true) (msg_eq : c.msg = .receive received)
      (sender_eq : received.sender = sender) :
      Makes d (.act (.transact sender contract (.token msg) funds)) c
  | between {act : SystemAction} {c : Hub.Call} (between : c.msg.between = true) : Makes d act c

/-- The calls of the hub that a message of a sender may lead to at once. -/
inductive CosmosMsg.LeadsTo (token sender : Addr) : CosmosMsg → Hub.Call → Prop
  | direct {contract : Addr} {msg : HubMsg} {funds : List Coin} {c : Hub.Call}
      (msg_eq : c.msg = msg) (sender_eq : c.info.sender = sender)
      (hands : ∀ received, msg = .receive received → sender = token) :
      LeadsTo token sender (.wasmExecute contract (.hub msg) funds) c
  | handed {contract : Addr} {msg : Cw20Msg} {funds : List Coin} {c : Hub.Call}
      {received : Cw20ReceiveMsg} (sends : msg.sends = true) (msg_eq : c.msg = .receive received)
      (sender_eq : received.sender = sender) :
      LeadsTo token sender (.wasmExecute contract (.token msg) funds) c

theorem CosmosMsg.LeadsTo.between {token sender : Addr} {m : CosmosMsg} {c : Hub.Call}
    (h : m.LeadsTo token sender c) (hm : m.between = true) : c.msg.between = true := by
  cases h with
  | direct msg_eq =>
    rw [msg_eq]
    exact hm
  | handed sends =>
    simp only [CosmosMsg.between, sends] at hm
    cases hm

/-- What the hub answers with hands nothing over. -/
theorem Hub.Effect.between {q : Querier} {st st' : Hub.Storage} {env : Env} {info : MessageInfo}
    {msg : HubMsg} {res : Response} (h : Hub.Effect q st env info msg st' res) :
    ∀ m ∈ res.messages, m.between = true := by
  obtain ⟨chain, tail, messages_eq, hchain, htail⟩ := h.shape
  intro m hm
  rw [messages_eq] at hm
  rcases List.mem_append.1 hm with hm | hm
  · have hto := hchain m hm
    cases m with
    | wasmExecute => cases hto
    | _ => rfl
  · cases htail with
    | none => cases hm
    | mint =>
      rw [List.mem_singleton.1 hm]
      rfl
    | burn unstakes token sender amount flow =>
      rw [List.mem_singleton.1 hm]
      cases flow <;> rfl
    | dispatch =>
      rw [List.mem_singleton.1 hm]
      rfl

/-- **What a contract answers with** leads to calls that contracts make on their
own account, or hands over what its caller has sent. -/
theorem callContract_answers {d : Deployment T} {w w' : World T} {sender contract : Addr}
    {funds : List Coin} {msg : ContractMsg} {messages : List CosmosMsg} {c : Hub.Call}
    (h : callContract d w sender contract funds msg = .ok (w', messages)) :
    ∀ m ∈ messages, m.LeadsTo d.token contract c → c.msg.between = true ∨
      (CosmosMsg.wasmExecute contract msg funds).LeadsTo d.token sender c := by
  intro m hm hleads
  cases msg with
  | hub msg =>
    obtain ⟨-, q, hub, res, -, hx, rfl, -⟩ := callContract_hub h
    exact .inl (hleads.between ((Hub.execute_ok hx).between m hm))
  | token msg =>
    obtain ⟨-, rfl, -⟩ := callContract_token h
    cases msg with
    | burn =>
      rw [List.mem_singleton.1 hm] at hleads
      exact .inl (hleads.between rfl)
    | burnFrom =>
      rw [List.mem_singleton.1 hm] at hleads
      exact .inl (hleads.between rfl)
    | send =>
      rw [List.mem_singleton.1 hm] at hleads
      cases hleads with
      | direct msg_eq sender_eq => exact .inr (.handed rfl msg_eq rfl)
    | sendFrom =>
      rw [List.mem_singleton.1 hm] at hleads
      cases hleads with
      | direct msg_eq sender_eq => exact .inr (.handed rfl msg_eq rfl)
    | _ => cases hm
  | registry msg =>
    simp only [callContract, bind_eq_ok, require_eq_ok, Prod.exists, pure_eq_ok,
      Prod.mk.injEq] at h
    obtain ⟨_, rfl, registry, ms, hx, -, rfl⟩ := h
    cases msg with
    | processRedelegations =>
      simp only [Registry.execute, bind_eq_ok, pure_eq_ok, Prod.mk.injEq] at hx
      obtain ⟨ms', hp, -, rfl⟩ := hx
      obtain ⟨v, rs, rfl, -⟩ := Registry.processRedelegations_messages hp m hm
      exact .inl (hleads.between rfl)
    | _ =>
      simp only [Registry.execute, bind_eq_ok, pure_eq_ok, Prod.mk.injEq] at hx
      obtain ⟨_, -, -, rfl⟩ := hx
      cases hm
  | dispatchRewards => simp [callContract] at h

/-- So it is in the system, where the dispatcher answers too. -/
theorem System.deliver_answers {s s' : System T} {sender callee contract : Addr}
    {funds : List Coin} {msg : ContractMsg} {inner : List CosmosMsg} {c : Hub.Call}
    (h : s.deliver d sender (.wasmExecute contract msg funds) = .ok (s', callee, inner)) :
    ∀ m ∈ inner, m.LeadsTo d.token callee c → c.msg.between = true ∨
      (CosmosMsg.wasmExecute contract msg funds).LeadsTo d.token sender c := by
  simp only [System.deliver, bind_eq_ok, Prod.exists, pure_eq_ok, Prod.mk.injEq] at h
  obtain ⟨s₁, -, s₂, ms, hcall, rfl, rfl, rfl⟩ := h
  cases msg with
  | dispatchRewards =>
    simp only [System.call, Dispatcher.execute, bind_eq_ok, require_eq_ok, pure_eq_ok,
      Prod.exists, Prod.mk.injEq] at hcall
    obtain ⟨_, rfl, config, response, ⟨response', hdispatch, rfl, rfl⟩, rfl, rfl⟩ := hcall
    simp only [Dispatcher.executeDispatchRewards, bind_eq_ok, require_eq_ok,
      pure_eq_ok] at hdispatch
    obtain ⟨paused, -, _, -, _, -, fee, -, rest, -, rfl⟩ := hdispatch
    intro m hm hleads
    refine .inl (hleads.between ?_)
    rcases List.mem_append.1 hm with hm | hm
    · split_ifs at hm
      · cases hm
      · rw [List.mem_singleton.1 hm]
        rfl
    · split_ifs at hm
      · cases hm
      · rw [List.mem_singleton.1 hm]
        rfl
  | hub msg =>
    simp only [System.call, bind_eq_ok, Prod.exists, pure_eq_ok, Prod.mk.injEq] at hcall
    obtain ⟨w', ms', hcall, rfl, rfl⟩ := hcall
    exact callContract_answers hcall
  | token msg =>
    simp only [System.call, bind_eq_ok, Prod.exists, pure_eq_ok, Prod.mk.injEq] at hcall
    obtain ⟨w', ms', hcall, rfl, rfl⟩ := hcall
    exact callContract_answers hcall
  | registry msg =>
    simp only [System.call, bind_eq_ok, Prod.exists, pure_eq_ok, Prod.mk.injEq] at hcall
    obtain ⟨w', ms', hcall, rfl, rfl⟩ := hcall
    exact callContract_answers hcall

/-- The hub, last called in no later block, is the system's, and knows the token. -/
structure HubAt (d : Protocol T) (s : System T) (t : Hub.Clocked) : Prop where
  hub_eq : t.st = s.world.hub
  height_le : t.now.height ≤ s.world.block.height
  time_le : t.now.time ≤ s.world.block.time
  token_eq : t.st.config.lstToken = some d.token

/-- From the hub `t` on, calls of the kind `C` have led to the system's hub. -/
def System.HubFrom (d : Protocol T) (C : Hub.Call → Prop) (t : Hub.Clocked) (s : System T) :
    Prop :=
  ∃ calls t', Run Hub.Step t calls t' ∧ HubAt d s t' ∧ ∀ e ∈ calls, C e.1

/-- The hub stays reached in a system that goes on without calling it. -/
theorem HubAt.congr {s s' : System T} {t : Hub.Clocked} (h : HubAt d s t)
    (hub_eq : s'.world.hub = s.world.hub)
    (height_le : s.world.block.height ≤ s'.world.block.height)
    (time_le : s.world.block.time ≤ s'.world.block.time) : HubAt d s' t :=
  ⟨h.hub_eq.trans hub_eq.symm, h.height_le.trans height_le, h.time_le.trans time_le, h.token_eq⟩

/-- One more call, or none. -/
theorem HubCalled.hubFrom {C : Hub.Call → Prop} {t : Hub.Clocked} {s s' : System T}
    {sender contract : Addr} {funds : List Coin} {msg : ContractMsg}
    (called : HubCalled d.toDeployment s.world s'.world sender msg)
    (allowed : ∀ c, (CosmosMsg.wasmExecute contract msg funds).LeadsTo d.token sender c → C c)
    (hs : s.HubFrom d C t) : s'.HubFrom d C t := by
  obtain ⟨calls, u, run, hu, hcalls⟩ := hs
  cases called with
  | @called msg c env_eq sender_eq msg_eq same accepted =>
    have hblock : c.env.block = s.world.block := by rw [env_eq]; rfl
    have hstep : Hub.Step u c ⟨c.env.block, s'.world.hub⟩ := by
      refine ⟨?_, ?_, rfl, ?_⟩
      · rw [hblock]
        exact hu.height_le
      · rw [hblock]
        exact hu.time_le
      · rw [hu.hub_eq]
        exact accepted
    refine ⟨_, _, .tail run hstep, ⟨rfl, ?_, ?_, hstep.effect.lstToken hu.token_eq⟩,
      fun e he => ?_⟩
    · rw [same, hblock]
    · rw [same, hblock]
    · rcases List.mem_append.1 he with he | he
      · exact hcalls e he
      · rw [List.mem_singleton.1 he]
        refine allowed c (.direct msg_eq sender_eq fun received hmsg => ?_)
        -- tokens are handed over by the token alone
        have heffect := hstep.effect
        rw [msg_eq, hmsg] at heffect
        have htoken := heffect.receive_sender
        rw [hu.token_eq, sender_eq] at htoken
        exact (Option.some.inj htoken).symm
  | other same kept =>
    exact ⟨calls, u, run, hu.congr kept (by rw [same]) (by rw [same]), hcalls⟩

/-- **A message, with all it leads to,** makes calls of the kinds it may lead to,
and such as contracts make on their own account. -/
theorem System.deliverAll_hubFrom {C : Hub.Call → Prop} {t : Hub.Clocked} {n : ℕ} {s s' : System T}
    {sender : Addr} {messages : List CosmosMsg} (h : s.deliverAll d n sender messages = .ok s')
    (between : ∀ c : Hub.Call, c.msg.between = true → C c)
    (allowed : ∀ m ∈ messages, ∀ c, m.LeadsTo d.token sender c → C c) (hs : s.HubFrom d C t) :
    s'.HubFrom d C t := by
  refine delivered_keep (P := System.HubFrom d C t)
    (Q := fun sender m => ∀ c, m.LeadsTo d.token sender c → C c)
    (fun {s s' sender callee m inner} hs hallowed hm => ?_) n h allowed hs
  cases hchain : m.toChain with
  | true =>
    obtain ⟨rfl, hblock, hhub, -⟩ := System.deliver_toChain hchain hm
    obtain ⟨calls, u, run, hu, hcalls⟩ := hs
    exact ⟨⟨calls, u, run, hu.congr hhub (by rw [hblock]) (by rw [hblock]), hcalls⟩, by simp⟩
  | false =>
    cases m with
    | wasmExecute contract msg funds =>
      refine ⟨(System.deliver_called hm).hubFrom hallowed hs, fun m' hm' c hleads => ?_⟩
      exact (System.deliver_answers hm m' hm' hleads).elim (between c) (hallowed c)
    | _ => cases hchain

/-- **One action of the system** is, for the hub, calls that the action may lead
to. -/
theorem System.Step.hubFrom {s s' : System T} {act : SystemAction} (step : s.Step d act s')
    {t : Hub.Clocked} (ht : HubAt d s t) : s'.HubFrom d (act.Makes d) t := by
  have idle : s'.world.hub = s.world.hub → s.world.block.height ≤ s'.world.block.height →
      s.world.block.time ≤ s'.world.block.time → s'.HubFrom d (act.Makes d) t :=
    fun hhub hheight htime => ⟨[], t, .refl, ht.congr hhub hheight htime, by simp⟩
  cases act with
  | act a =>
    cases a with
    | transact sender contract msg funds =>
      simp only [System.Step, System.exec, bind_eq_ok, require_eq_ok] at step
      obtain ⟨_, user, hd⟩ := step
      refine System.deliverAll_hubFrom hd (fun c hbetween => .between hbetween)
        (fun m hm c hleads => ?_) ⟨[], t, .refl, ht, by simp⟩
      rw [List.mem_singleton.1 hm] at hleads
      cases hleads with
      | direct msg_eq sender_eq hands =>
        exact .direct user msg_eq sender_eq fun received hmsg => user.1.2.1 (hands received hmsg)
      | handed sends msg_eq sender_eq => exact .handed sends msg_eq sender_eq
    | credit amount =>
      simp only [System.Step, System.exec, World.exec, bind_eq_ok, pure_eq_ok] at step
      obtain ⟨_, rfl, rfl⟩ := step
      exact idle rfl le_rfl le_rfl
    | advance block delegations =>
      simp only [System.Step, System.exec, World.exec, bind_eq_ok, pure_eq_ok] at step
      obtain ⟨w, hw, rfl⟩ := step
      obtain ⟨⟨hheight, htime, hblock⟩, hhub, -⟩ := advance_ok hw
      exact idle hhub (by rw [hblock]; exact hheight) (by rw [hblock]; exact htime)
  | configure sender owner hubContract feeAddr feeRate =>
    simp only [System.Step, System.exec, bind_eq_ok, pure_eq_ok, Prod.exists] at step
    obtain ⟨_, -, config, response, -, rfl⟩ := step
    exact idle rfl le_rfl le_rfl
  | gift amount =>
    simp only [System.Step, System.exec, pure_eq_ok, System.receives_eq] at step
    subst step
    exact idle rfl le_rfl le_rfl
  | accrue validator amount =>
    simp only [System.Step, System.exec, pure_eq_ok] at step
    subst step
    exact idle rfl le_rfl le_rfl
  | payout validator =>
    simp only [System.Step, System.exec, pure_eq_ok, System.paysOut_eq] at step
    subst step
    exact idle rfl le_rfl le_rfl

/-- A run of the system is, for the hub, a run of calls that its actions may lead
to. -/
theorem System.hubRun {s s' : System T} {tr : List (SystemAction × System T)}
    (run : Run (System.Step d) s tr s') {t : Hub.Clocked} (ht : HubAt d s t) :
    s'.HubFrom d (fun c => ∃ e ∈ tr, e.1.Makes d c) t := by
  induction run with
  | refl => exact ⟨[], t, .refl, ht, by simp⟩
  | tail run last ih =>
    obtain ⟨calls, u, hrun, hu, hcalls⟩ := ih
    obtain ⟨calls', u', hrun', hu', hcalls'⟩ := last.hubFrom hu
    refine ⟨calls ++ calls', u', hrun.append hrun', hu', fun e he => ?_⟩
    rcases List.mem_append.1 he with he | he
    · obtain ⟨a, ha, hmakes⟩ := hcalls e he
      exact ⟨a, List.mem_append_left _ ha, hmakes⟩
    · exact ⟨_, List.mem_append_right _ (List.mem_singleton_self _), hcalls' e he⟩

/-- The hub of a system just set up: created, and told the others' addresses. -/
theorem System.Created.hubAt {s : System T} (created : s.Created d) :
    ∃ h setup t, Hub.Created d.init h ∧ Run Hub.Step h setup t ∧ HubAt d s t := by
  obtain ⟨q, info, st, res, res', dispatcher, hinst, hupdate⟩ := created.world.hub_created
  have hpaused : st.parameters.paused = false := by
    rw [(Hub.instantiate_ok hinst).parameters_eq]
  have hstep : Hub.Step ⟨s.world.block, st⟩
      ⟨q, s.world.env d.hub, info, .updateConfig none (some d.token) (some d.registry) dispatcher,
        res'⟩ ⟨s.world.block, s.world.hub⟩ := by
    refine ⟨le_rfl, le_rfl, rfl, ?_⟩
    refine Eq.trans (bind_ok (require_ok hpaused)) ?_
    exact hupdate
  exact ⟨⟨s.world.block, st⟩, _, _, ⟨s.world.env d.hub, info, res, rfl, hinst⟩, .single hstep,
    ⟨rfl, le_rfl, le_rfl, created.world.wired.hub_token⟩⟩

/-- **The system refines the hub's runs**: whatever the four contracts, their
users and the chain do, the hub is one that `instantiate` has created, and from
its set-up on it has been led to by accepted calls, each of which some action has
made; the last was in no later block. -/
theorem system_refines_hub {s s' : System T} {tr : List (SystemAction × System T)}
    (created : s.Created d) (run : Run (System.Step d) s tr s') :
    ∃ h setup t calls t', Hub.Created d.init h ∧ Run Hub.Step h setup t ∧
      t.st = s.world.hub ∧ Run Hub.Step t calls t' ∧ HubAt d s' t' ∧
      ∀ e ∈ calls, ∃ a ∈ tr, a.1.Makes d e.1 := by
  obtain ⟨h, setup, t, hcreated, hsetup, ht⟩ := created.hubAt
  obtain ⟨calls, t', hrun, ht', hcalls⟩ := System.hubRun run ht
  exact ⟨h, setup, t, calls, t', hcreated, hsetup, ht.hub_eq, hrun, ht', hcalls⟩

/-- The hub of the sample run, which has staked its rewards. -/
theorem system_refines_hub_sample :
    ∃ h setup t calls t', Hub.Created sampleDeployment.init h ∧ Run Hub.Step h setup t ∧
      t.st = sampleWorld.hub ∧ Run Hub.Step t calls t' ∧
      HubAt sampleProtocol (systemEnd sampleRewards) t' ∧
      ∀ e ∈ calls, ∃ a ∈ systemTrace sampleRewards, a.1.Makes sampleProtocol e.1 :=
  system_refines_hub sampleSystem_created (systemRun sampleRewards (by decide +kernel))

end BabyLst
