/-
# Who may change the settings

The hub keeps a configuration and parameters, the registry its lists, the
dispatcher its configuration, and the chain the address the rewards are paid to.
An action changes them only as a message of the owner of that contract: no
message that the contracts send each other does, whatever the depth of the calls
(`System.deliver_hubSettings`, `System.deliver_registry`).  So a run without such
messages leaves them alone (`only_owners_change_settings`).

What the owners can set stays within the bounds that the contracts check, over
every run (`settings_stay_within_bounds`).
-/

import BabyLst.Hub.Epochs
import BabyLst.World.HubRuns

namespace BabyLst

open Lib Std

variable {T : Type}

/-- The messages that change the settings of the hub. -/
def HubMsg.governs : HubMsg → Bool
  | .updateParams _ _ _ => true
  | .updateConfig _ _ _ _ => true
  | _ => false

/-- The messages that change the registry. -/
def RegistryMsg.governs : RegistryMsg → Bool
  | .processRedelegations => false
  | _ => true

/-- The messages that change the settings of the hub, or where its rewards go. -/
def CosmosMsg.governsHub : CosmosMsg → Bool
  | .setWithdrawAddress _ => true
  | .wasmExecute _ (.hub msg) _ => msg.governs
  | _ => false

/-- The messages that change the registry. -/
def CosmosMsg.governsRegistry : CosmosMsg → Bool
  | .wasmExecute _ (.registry msg) _ => msg.governs
  | _ => false

/-- The hub's configuration and parameters, and the address the rewards are paid
to. -/
def System.hubSettings (s : System T) : Hub.Config × Hub.Parameters × Addr :=
  (s.world.hub.config, s.world.hub.parameters, s.withdrawAddress)

/-! ### Messages that change nothing of it -/

theorem governsHub_completion {q : Querier} {st st' : Hub.Storage} {env : Env}
    {batch batch' : Hub.CurrentBatch} {messages : List CosmosMsg}
    (h : Hub.Completion q st env batch st' batch' messages) :
    st'.config = st.config ∧ ∀ m ∈ messages, m.governsHub = false := by
  cases h with
  | stillOpen => exact ⟨rfl, by simp⟩
  | closed =>
    refine ⟨rfl, fun m hm => ?_⟩
    obtain ⟨e, -, rfl⟩ := List.mem_map.1 hm
    rfl

/-- **A message that does not govern the hub** leaves its settings alone, and is
answered with none that does. -/
theorem Hub.Effect.hubSettings {q : Querier} {st st' : Hub.Storage} {env : Env}
    {info : MessageInfo} {msg : HubMsg} {res : Response}
    (h : Hub.Effect q st env info msg st' res) (hmsg : msg.governs = false) :
    st'.config = st.config ∧ st'.parameters = st.parameters ∧
      ∀ m ∈ res.messages, m.governsHub = false := by
  have hparams : st'.parameters = st.parameters := by
    refine h.parameters_eq fun pause epochLength unstakingPeriod heq => ?_
    rw [heq] at hmsg
    cases hmsg
  suffices hrest : st'.config = st.config ∧ ∀ m ∈ res.messages, m.governsHub = false by
    exact ⟨hrest.1, hparams, hrest.2⟩
  cases h with
  | @stake t st' res h =>
    obtain @⟨payment, supply, mint, state, pending, validators, plan, registry, token, res, -, -, -,
      -, -, -, -, -, -, -, -, -, messages_eq⟩ := h
    refine ⟨rfl, fun m hm => ?_⟩
    rw [messages_eq] at hm
    rcases List.mem_append.1 hm with hm | hm
    · obtain ⟨e, -, rfl⟩ := List.mem_map.1 hm
      rfl
    · cases t with
      | lstMint =>
        rw [List.mem_singleton.1 hm]
        rfl
      | stakeRewards => cases hm
  | unstake msg_eq token_eq h messages_eq =>
    obtain ⟨hconfig, hmessages⟩ := governsHub_completion h
    refine ⟨hconfig, fun m hm => ?_⟩
    rw [messages_eq] at hm
    rcases List.mem_append.1 hm with hm | hm
    · exact hmessages m hm
    · rw [List.mem_singleton.1 hm]
      rfl
  | withdraw h =>
    obtain @⟨free, left, amount, released, res, -, -, -, -, -, -, -, messages_eq, -⟩ := h
    refine ⟨rfl, fun m hm => ?_⟩
    rw [messages_eq] at hm
    rw [List.mem_singleton.1 hm]
    rfl
  | release _ _ _ _ messages_eq => exact ⟨rfl, by simp [messages_eq]⟩
  | checkSlashing h messages_eq => exact ⟨rfl, by simp [messages_eq]⟩
  | nothingRequested => exact ⟨rfl, by simp⟩
  | processUndelegations ne h => exact governsHub_completion h
  | updateParams => cases hmsg
  | updateConfig => cases hmsg
  | redelegate auth messages_eq =>
    refine ⟨rfl, fun m hm => ?_⟩
    rw [messages_eq] at hm
    obtain ⟨e, -, rfl⟩ := List.mem_map.1 hm
    rfl
  | updateGlobalIndex dispatcher_eq messages_eq =>
    refine ⟨rfl, fun m hm => ?_⟩
    rw [messages_eq] at hm
    rcases List.mem_append.1 hm with hm | hm
    · obtain ⟨e, -, rfl⟩ := List.mem_map.1 hm
      rfl
    · rw [List.mem_singleton.1 hm]
      rfl

/-- The messages that govern the hub are the owner's. -/
theorem Hub.Effect.governor {q : Querier} {st st' : Hub.Storage} {env : Env} {info : MessageInfo}
    {msg : HubMsg} {res : Response} (h : Hub.Effect q st env info msg st' res)
    (hmsg : msg.governs = true) : info.sender = st.config.owner := by
  cases h with
  | updateParams auth => exact auth
  | updateConfig auth => exact auth
  | unstake msg_eq =>
    rcases msg_eq with ⟨rfl, -⟩ | ⟨rfl, -⟩ <;> cases hmsg
  | @stake t => cases t <;> cases hmsg
  | @withdraw batchIds => cases batchIds <;> cases hmsg
  | _ => cases hmsg

theorem CosmosMsg.governsRegistry_of_inner {m : CosmosMsg} (h : m.inner = true) :
    m.governsRegistry = false := by
  unfold CosmosMsg.inner at h
  unfold CosmosMsg.governsRegistry
  split <;> simp_all

/-- An update of the global index calls nobody but the dispatcher. -/
theorem Hub.Effect.index_registry {q : Querier} {st st' : Hub.Storage} {env : Env}
    {info : MessageInfo} {res : Response}
    (h : Hub.Effect q st env info .updateGlobalIndex st' res) :
    ∀ m ∈ res.messages, m.governsRegistry = false := by
  generalize hmsg : HubMsg.updateGlobalIndex = msg at h
  cases h with
  | updateGlobalIndex dispatcher_eq messages_eq =>
    intro m hm
    rw [messages_eq] at hm
    rcases List.mem_append.1 hm with hm | hm
    · obtain ⟨e, -, rfl⟩ := List.mem_map.1 hm
      rfl
    · rw [List.mem_singleton.1 hm]
      rfl
  | unstake msg_eq =>
    rcases msg_eq with ⟨rfl, -⟩ | ⟨rfl, -⟩ <;> cases hmsg
  | @stake t => cases t <;> cases hmsg
  | @withdraw batchIds => cases batchIds <;> cases hmsg
  | _ => cases hmsg

variable {d : Deployment T}

/-- What the token and the registry answer with governs nothing. -/
theorem Token.messagesOf_governs {st : Token.Storage T} {sender : Addr} {msg : Cw20Msg} :
    ∀ m ∈ Token.messagesOf st sender msg, m.governsHub = false ∧ m.governsRegistry = false := by
  intro m hm
  cases msg with
  | burn => rw [List.mem_singleton.1 hm]; exact ⟨rfl, rfl⟩
  | burnFrom => rw [List.mem_singleton.1 hm]; exact ⟨rfl, rfl⟩
  | send => rw [List.mem_singleton.1 hm]; exact ⟨rfl, rfl⟩
  | sendFrom => rw [List.mem_singleton.1 hm]; exact ⟨rfl, rfl⟩
  | _ => cases hm

/-- A registry that is not governed stays as it is. -/
theorem Registry.execute_governs {deps : Registry.Deps} {st st' : Registry.Storage}
    {info : MessageInfo} {msg : RegistryMsg} {messages : List CosmosMsg}
    (h : Registry.execute deps st info msg = .ok (st', messages)) :
    (st' = st ∨ msg.governs = true ∧ info.sender = st.config.owner) ∧
      ∀ m ∈ messages, m.governsHub = false ∧ m.governsRegistry = false := by
  cases msg with
  | processRedelegations =>
    simp only [Registry.execute, bind_eq_ok, pure_eq_ok, Prod.mk.injEq] at h
    obtain ⟨ms, hp, rfl, rfl⟩ := h
    refine ⟨.inl rfl, fun m hm => ?_⟩
    obtain ⟨v, rs, rfl, -⟩ := Registry.processRedelegations_messages hp m hm
    exact ⟨rfl, rfl⟩
  | addValidator =>
    simp only [Registry.execute, Registry.addValidator, Registry.isOwner, bind_eq_ok, require_eq_ok,
      pure_eq_ok, Prod.mk.injEq] at h
    obtain ⟨_, ⟨_, hauth, -⟩, -, rfl⟩ := h
    exact ⟨.inr ⟨rfl, hauth⟩, by simp⟩
  | removeValidator =>
    simp only [Registry.execute, Registry.removeValidator, Registry.isOwner, bind_eq_ok,
      require_eq_ok, pure_eq_ok, Prod.mk.injEq] at h
    obtain ⟨_, ⟨_, hauth, -⟩, -, rfl⟩ := h
    exact ⟨.inr ⟨rfl, hauth⟩, by simp⟩
  | updateConfig =>
    simp only [Registry.execute, Registry.updateConfig, Registry.isOwner, bind_eq_ok, require_eq_ok,
      pure_eq_ok, Prod.mk.injEq] at h
    obtain ⟨_, ⟨_, hauth, -⟩, -, rfl⟩ := h
    exact ⟨.inr ⟨rfl, hauth⟩, by simp⟩

/-- **A call of a contract** changes the hub's settings and the registry as a
message of its owner only, and leads to no message that does, unless it is one
itself. -/
structure GovernedCall (w w' : World T) (sender : Addr) (msg : ContractMsg)
    (messages : List CosmosMsg) : Prop where
  hub : (∀ m, msg = .hub m → m.governs = false) →
    w'.hub.config = w.hub.config ∧ w'.hub.parameters = w.hub.parameters ∧
      ∀ m ∈ messages, m.governsHub = false
  governor : ∀ m, msg = .hub m → m.governs = true → sender = w.hub.config.owner
  registry : w'.registry = w.registry ∨
    (∃ m, msg = .registry m ∧ m.governs = true) ∧ sender = w.registry.config.owner
  answers : ∀ m ∈ messages, m.governsRegistry = false

theorem callContract_governed {w w' : World T} {sender contract : Addr} {funds : List Coin}
    {msg : ContractMsg} {messages : List CosmosMsg}
    (h : callContract d w sender contract funds msg = .ok (w', messages)) :
    GovernedCall w w' sender msg messages := by
  cases msg with
  | hub msg =>
    obtain ⟨-, q, hub, res, -, hx, rfl, rfl⟩ := callContract_hub h
    have heffect := Hub.execute_ok hx
    refine ⟨fun hmsg => heffect.hubSettings (hmsg msg rfl), ?_, .inl rfl, ?_⟩
    · rintro _ ⟨⟩ hgoverns
      exact heffect.governor hgoverns
    · intro m hm
      by_cases hindex : msg = .updateGlobalIndex
      · subst hindex
        exact Hub.Effect.index_registry heffect m hm
      · exact CosmosMsg.governsRegistry_of_inner (heffect.inner hindex m hm).1
  | token msg =>
    obtain ⟨-, rfl, ⟨token, rfl⟩, -⟩ := callContract_token h
    exact ⟨fun _ => ⟨rfl, rfl, fun m hm => (Token.messagesOf_governs m hm).1⟩,
      fun _ h => (by cases h), .inl rfl, fun m hm => (Token.messagesOf_governs m hm).2⟩
  | registry msg =>
    simp only [callContract, bind_eq_ok, require_eq_ok, Prod.exists, pure_eq_ok,
      Prod.mk.injEq] at h
    obtain ⟨_, -, registry, ms, hx, rfl, rfl⟩ := h
    obtain ⟨hkept, hmessages⟩ := Registry.execute_governs hx
    refine ⟨fun _ => ⟨rfl, rfl, fun m hm => (hmessages m hm).1⟩, fun _ h => (by cases h), ?_,
      fun m hm => (hmessages m hm).2⟩
    rcases hkept with rfl | ⟨hgoverns, hauth⟩
    · exact .inl rfl
    · exact .inr ⟨⟨msg, rfl, hgoverns⟩, hauth⟩
  | dispatchRewards => simp [callContract] at h

/-! ### The system -/

variable {d : Protocol T}

/-- A call in the system changes the dispatcher's settings never, and the others
as a call of the world does. -/
theorem System.call_governed {s s' : System T} {sender contract : Addr} {funds : List Coin}
    {msg : ContractMsg} {messages : List CosmosMsg}
    (h : s.call d sender contract funds msg = .ok (s', messages)) :
    s'.dispatcher = s.dispatcher ∧ s'.withdrawAddress = s.withdrawAddress ∧
      GovernedCall s.world s'.world sender msg messages := by
  have hworld : (∃ w', callContract d.toDeployment s.world sender contract funds msg =
      .ok (w', messages) ∧ s' = { s with world := w' }) → s'.dispatcher = s.dispatcher ∧
      s'.withdrawAddress = s.withdrawAddress ∧
      GovernedCall s.world s'.world sender msg messages := by
    rintro ⟨w', hcall, rfl⟩
    exact ⟨rfl, rfl, callContract_governed hcall⟩
  cases msg with
  | dispatchRewards =>
    simp only [System.call, Dispatcher.execute, bind_eq_ok, require_eq_ok, pure_eq_ok,
      Prod.exists, Prod.mk.injEq, System.receives_eq] at h
    obtain ⟨_, rfl, config, response, ⟨response', hdispatch, rfl, rfl⟩, rfl, rfl⟩ := h
    simp only [Dispatcher.executeDispatchRewards, bind_eq_ok, require_eq_ok,
      pure_eq_ok] at hdispatch
    obtain ⟨paused, -, _, -, _, -, fee, -, rest, -, rfl⟩ := hdispatch
    have hsplit : ∀ m ∈ s.dispatcher.split fee rest,
        m.governsHub = false ∧ m.governsRegistry = false := by
      intro m hm
      rcases List.mem_append.1 hm with hm | hm
      · split_ifs at hm
        · cases hm
        · rw [List.mem_singleton.1 hm]
          exact ⟨rfl, rfl⟩
      · split_ifs at hm
        · cases hm
        · rw [List.mem_singleton.1 hm]
          exact ⟨rfl, rfl⟩
    exact ⟨rfl, rfl, fun _ => ⟨rfl, rfl, fun m hm => (hsplit m hm).1⟩, fun _ h => (by cases h),
      .inl rfl, fun m hm => (hsplit m hm).2⟩
  | hub msg =>
    simp only [System.call, bind_eq_ok, Prod.exists, pure_eq_ok, Prod.mk.injEq] at h
    obtain ⟨w', ms, hcall, rfl, rfl⟩ := h
    exact hworld ⟨w', hcall, rfl⟩
  | token msg =>
    simp only [System.call, bind_eq_ok, Prod.exists, pure_eq_ok, Prod.mk.injEq] at h
    obtain ⟨w', ms, hcall, rfl, rfl⟩ := h
    exact hworld ⟨w', hcall, rfl⟩
  | registry msg =>
    simp only [System.call, bind_eq_ok, Prod.exists, pure_eq_ok, Prod.mk.injEq] at h
    obtain ⟨w', ms, hcall, rfl, rfl⟩ := h
    exact hworld ⟨w', hcall, rfl⟩

/-- A message that the chain does not take itself is a call of a contract. -/
theorem System.deliver_call {s s' : System T} {sender callee contract : Addr} {funds : List Coin}
    {msg : ContractMsg} {inner : List CosmosMsg}
    (h : s.deliver d sender (.wasmExecute contract msg funds) = .ok (s', callee, inner)) :
    s'.dispatcher = s.dispatcher ∧ s'.withdrawAddress = s.withdrawAddress ∧
      GovernedCall s.world s'.world sender msg inner := by
  simp only [System.deliver, bind_eq_ok, Prod.exists, pure_eq_ok, Prod.mk.injEq] at h
  obtain ⟨s₁, hattach, s₂, ms, hcall, rfl, rfl, rfl⟩ := h
  obtain ⟨rewards, restaked, rfl⟩ := System.attaches_ok hattach
  have hgoverned := System.call_governed hcall
  exact hgoverned

/-- **A message that does not govern the hub** leaves its settings alone, from
whoever it is. -/
theorem System.deliver_hubSettings {s s' : System T} {sender callee : Addr} {m : CosmosMsg}
    {inner : List CosmosMsg} (hm : m.governsHub = false)
    (h : s.deliver d sender m = .ok (s', callee, inner)) :
    s'.hubSettings = s.hubSettings ∧ ∀ m' ∈ inner, m'.governsHub = false := by
  cases hchain : m.toChain with
  | true =>
    obtain ⟨rfl, -, hhub, -, -, -, hpaid⟩ := System.deliver_toChain hchain h
    refine ⟨?_, by simp⟩
    rcases hpaid with hpaid | ⟨a, rfl⟩
    · rw [System.hubSettings, System.hubSettings, hhub, hpaid]
    · cases hm
  | false =>
    cases m with
    | wasmExecute contract msg funds =>
      obtain ⟨-, hpaid, hgoverned⟩ := System.deliver_call h
      obtain ⟨hconfig, hparams, hinner⟩ := hgoverned.hub fun msg' heq => by
        rw [heq] at hm
        exact hm
      refine ⟨?_, hinner⟩
      rw [System.hubSettings, System.hubSettings, hconfig, hparams, hpaid]
    | _ => cases hchain

/-- **A message that does not govern the registry** leaves it alone, from whoever
it is; and no message changes the dispatcher. -/
theorem System.deliver_registry {s s' : System T} {sender callee : Addr} {m : CosmosMsg}
    {inner : List CosmosMsg} (h : s.deliver d sender m = .ok (s', callee, inner)) :
    (m.governsRegistry = false → s'.world.registry = s.world.registry) ∧
      s'.dispatcher = s.dispatcher ∧ ∀ m' ∈ inner, m'.governsRegistry = false := by
  cases hchain : m.toChain with
  | true =>
    obtain ⟨rfl, -, -, hregistry, -, hdispatcher, -⟩ := System.deliver_toChain hchain h
    exact ⟨fun _ => hregistry, hdispatcher, by simp⟩
  | false =>
    cases m with
    | wasmExecute contract msg funds =>
      obtain ⟨hdispatcher, -, hgoverned⟩ := System.deliver_call h
      refine ⟨fun hm => ?_, hdispatcher, hgoverned.answers⟩
      rcases hgoverned.registry with hsame | ⟨⟨msg', rfl, hgoverns⟩, -⟩
      · exact hsame
      · rw [CosmosMsg.governsRegistry, hgoverns] at hm
        cases hm
    | _ => cases hchain

/-! ### Steps and runs -/

/-- A message of a user with all it leads to: what the first message changes, the
others leave alone. -/
theorem System.deliverAll_first {n : ℕ} {s s' : System T} {sender contract : Addr}
    {msg : ContractMsg} {funds : List Coin}
    (h : s.deliverAll d (n + 1) sender [.wasmExecute contract msg funds] = .ok s') :
    s'.dispatcher = s.dispatcher ∧
      (s'.hubSettings = s.hubSettings ∨
        sender = s.world.hub.config.owner ∧ ∃ m, msg = .hub m ∧ m.governs = true) ∧
      (s'.world.registry = s.world.registry ∨
        sender = s.world.registry.config.owner ∧ ∃ m, msg = .registry m ∧ m.governs = true) := by
  rw [System.deliverAll, delivered_cons] at h
  obtain ⟨s₁, callee, inner, s₂, hm, hinner, hnil⟩ := h
  rw [delivered_nil] at hnil
  cases hnil
  obtain ⟨-, -, hgoverned⟩ := System.deliver_call hm
  obtain ⟨hregistry, hdispatcher, hanswers⟩ := System.deliver_registry hm
  have hrest : s'.world.registry = s₁.world.registry ∧ s'.dispatcher = s₁.dispatcher :=
    delivered_keep (P := fun t => t.world.registry = s₁.world.registry ∧
        t.dispatcher = s₁.dispatcher) (Q := fun _ m => m.governsRegistry = false)
      (fun ht hm h => ⟨⟨((System.deliver_registry h).1 hm).trans ht.1,
        (System.deliver_registry h).2.1.trans ht.2⟩, (System.deliver_registry h).2.2⟩)
      n hinner hanswers ⟨rfl, rfl⟩
  refine ⟨hrest.2.trans hdispatcher, ?_, ?_⟩
  · cases hgoverns : (CosmosMsg.wasmExecute contract msg funds).governsHub with
    | false =>
      obtain ⟨hsame, hanswers⟩ := System.deliver_hubSettings hgoverns hm
      refine .inl (Eq.trans ?_ hsame)
      exact delivered_keep (P := fun t => t.hubSettings = s₁.hubSettings)
        (Q := fun _ m => m.governsHub = false)
        (fun ht hm h => ⟨(System.deliver_hubSettings hm h).1.trans ht,
          (System.deliver_hubSettings hm h).2⟩) n hinner hanswers rfl
    | true =>
      cases msg with
      | hub msg => exact .inr ⟨hgoverned.governor msg rfl hgoverns, msg, rfl, hgoverns⟩
      | _ => cases hgoverns
  · rcases hgoverned.registry with hsame | ⟨hgoverns, hauth⟩
    · exact .inl (hrest.1.trans hsame)
    · exact .inr ⟨hauth, hgoverns⟩

/-- The action is a message of the hub's owner that governs it. -/
def SystemAction.governsHub (owner : Addr) : SystemAction → Bool
  | .act (.transact sender _ (.hub msg) _) => sender = owner && msg.governs
  | _ => false

/-- The action is a message of the registry's owner that changes it. -/
def SystemAction.governsRegistry (owner : Addr) : SystemAction → Bool
  | .act (.transact sender _ (.registry msg) _) => sender = owner && msg.governs
  | _ => false

/-- The action is a message of the dispatcher's owner. -/
def SystemAction.governsDispatcher (owner : Addr) : SystemAction → Bool
  | .configure sender _ _ _ _ => sender = owner
  | _ => false

/-- **One action** changes the settings of a contract as a message of its owner
only. -/
theorem System.Step.settings {s s' : System T} {act : SystemAction} (h : s.Step d act s') :
    (s'.hubSettings = s.hubSettings ∨ act.governsHub s.world.hub.config.owner = true) ∧
      (s'.world.registry = s.world.registry ∨
        act.governsRegistry s.world.registry.config.owner = true) ∧
      (s'.dispatcher = s.dispatcher ∨ act.governsDispatcher s.dispatcher.owner = true) := by
  cases act with
  | act a =>
    cases a with
    | transact sender contract msg funds =>
      simp only [System.Step, System.exec, bind_eq_ok] at h
      obtain ⟨_, -, h⟩ := h
      obtain ⟨hdispatcher, hhub, hregistry⟩ := System.deliverAll_first h
      refine ⟨hhub.imp_right ?_, hregistry.imp_right ?_, .inl hdispatcher⟩
      · rintro ⟨rfl, m, rfl, hgoverns⟩
        simp [SystemAction.governsHub, hgoverns]
      · rintro ⟨rfl, m, rfl, hgoverns⟩
        simp [SystemAction.governsRegistry, hgoverns]
    | credit amount =>
      simp only [System.Step, System.exec, World.exec, bind_eq_ok, pure_eq_ok] at h
      obtain ⟨_, rfl, rfl⟩ := h
      exact ⟨.inl rfl, .inl rfl, .inl rfl⟩
    | advance block delegations =>
      simp only [System.Step, System.exec, World.exec, bind_eq_ok, pure_eq_ok] at h
      obtain ⟨w, hw, rfl⟩ := h
      obtain ⟨-, hhub, hregistry, -⟩ := advance_ok hw
      refine ⟨.inl ?_, .inl hregistry, .inl rfl⟩
      rw [System.hubSettings, System.hubSettings, hhub]
  | configure sender owner hubContract feeAddr feeRate =>
    simp only [System.Step, System.exec, Dispatcher.execute, Dispatcher.executeUpdateConfig,
      Dispatcher.isAuthorizedSender, bind_eq_ok, require_eq_ok, pure_eq_ok, Prod.exists,
      Prod.mk.injEq] at h
    obtain ⟨_, -, config, response, ⟨_, ⟨_, hauth, -⟩, -, -⟩, rfl⟩ := h
    exact ⟨.inl rfl, .inl rfl, .inr (decide_eq_true hauth)⟩
  | gift amount =>
    simp only [System.Step, System.exec, pure_eq_ok, System.receives_eq] at h
    subst h
    exact ⟨.inl rfl, .inl rfl, .inl rfl⟩
  | accrue validator amount =>
    simp only [System.Step, System.exec, pure_eq_ok] at h
    subst h
    exact ⟨.inl rfl, .inl rfl, .inl rfl⟩
  | payout validator =>
    simp only [System.Step, System.exec, pure_eq_ok, System.paysOut_eq] at h
    subst h
    exact ⟨.inl rfl, .inl rfl, .inl rfl⟩

/-- **Only the owners change the settings**: over any run, in which users send
what they like to whichever contract and the contracts call each other, the
hub's configuration, its parameters and the address its rewards go to stay as
they are unless the owner the hub has had from the start sends it a message that
changes them; and so do the registry and the dispatcher, with their owners. -/
theorem only_owners_change_settings {s s' : System T} {tr : List (SystemAction × System T)}
    (run : Run (System.Step d) s tr s') :
    ((∀ e ∈ tr, e.1.governsHub s.world.hub.config.owner = false) →
        s'.world.hub.config = s.world.hub.config ∧
        s'.world.hub.parameters = s.world.hub.parameters ∧
        s'.withdrawAddress = s.withdrawAddress) ∧
      ((∀ e ∈ tr, e.1.governsRegistry s.world.registry.config.owner = false) →
        s'.world.registry = s.world.registry) ∧
      ((∀ e ∈ tr, e.1.governsDispatcher s.dispatcher.owner = false) →
        s'.dispatcher = s.dispatcher) := by
  refine ⟨fun never => ?_, fun never => ?_, fun never => ?_⟩
  · have hsame := run.unchanged (P := fun _ => True) (f := System.hubSettings)
      (g := fun settings act => act.governsHub settings.1.owner = true) trivial
      (fun _ _ _ _ hstep => ⟨trivial, hstep.settings.1⟩)
      fun e he => by rw [show s.hubSettings.1 = s.world.hub.config from rfl, never e he]; simp
    simp only [System.hubSettings, Prod.mk.injEq] at hsame
    exact hsame
  · exact run.unchanged (P := fun _ => True) (f := fun t => t.world.registry)
      (g := fun registry act => act.governsRegistry registry.config.owner = true) trivial
      (fun _ _ _ _ hstep => ⟨trivial, hstep.settings.2.1⟩)
      fun e he => by rw [never e he]; simp
  · exact run.unchanged (P := fun _ => True) (f := System.dispatcher)
      (g := fun config act => act.governsDispatcher config.owner = true) trivial
      (fun _ _ _ _ hstep => ⟨trivial, hstep.settings.2.2⟩)
      fun e he => by rw [never e he]; simp

/-- Alice stakes, and the owner of the hub stays silent. -/
theorem only_owners_change_settings_sample :
    let s' := systemEnd sampleRewards
    s'.restaked = 58 ∧
      s'.world.hub.config = sampleWorld.hub.config ∧
      s'.world.hub.parameters = sampleWorld.hub.parameters ∧
      s'.withdrawAddress = "dispatcher" ∧ s'.world.registry = sampleWorld.registry ∧
      s'.dispatcher = sampleSystem.dispatcher := by
  intro s'
  have facts : s'.restaked = 58 ∧ (∀ e ∈ systemTrace sampleRewards,
      e.1.governsHub sampleSystem.world.hub.config.owner = false ∧
      e.1.governsRegistry sampleSystem.world.registry.config.owner = false ∧
      e.1.governsDispatcher sampleSystem.dispatcher.owner = false) := by
    decide +kernel
  obtain ⟨hhub, hregistry, hdispatcher⟩ :=
    only_owners_change_settings (systemRun sampleRewards (by decide +kernel))
  obtain ⟨hconfig, hparams, hpaid⟩ := hhub fun e he => (facts.2 e he).1
  exact ⟨facts.1, hconfig, hparams, hpaid, hregistry fun e he => (facts.2 e he).2.1,
    hdispatcher fun e he => (facts.2 e he).2.2⟩

/-! ### The bounds -/

/-- The periods are within what `instantiate` and `execute_update_params` allow. -/
structure Hub.Parameters.Bounded (params : Hub.Parameters) : Prop where
  epochLength_le : params.epochLength ≤ Hub.MAX_EPOCH_LENGTH
  unstakingPeriod_le : params.unstakingPeriod ≤ Hub.MAX_UNSTAKING_PERIOD
  periods : params.epochLength < params.unstakingPeriod

/-- **The checks of an update** of the periods, each made on what is new, are
enough for the periods together. -/
theorem Hub.validatePeriods_bounded {params : Hub.Parameters} {paused : Bool}
    {epochLength unstakingPeriod : Option ℕ} {u : Unit}
    (h : Hub.validatePeriods params epochLength unstakingPeriod = .ok u)
    (bounded : params.Bounded) :
    ({ params with
      paused := paused
      epochLength := epochLength.getD params.epochLength
      unstakingPeriod := unstakingPeriod.getD params.unstakingPeriod } :
        Hub.Parameters).Bounded := by
  obtain ⟨hepoch, hunstaking, hperiods⟩ := bounded
  cases epochLength with
  | some epochLength =>
    cases unstakingPeriod with
    | some unstakingPeriod =>
      simp only [Hub.validatePeriods, bind_eq_ok, require_eq_ok] at h
      obtain ⟨_, hepoch', _, hunstaking', hperiods'⟩ := h
      exact ⟨hepoch', hunstaking', hperiods'⟩
    | none =>
      simp only [Hub.validatePeriods, bind_eq_ok, require_eq_ok] at h
      obtain ⟨_, hepoch', hperiods'⟩ := h
      exact ⟨hepoch', hunstaking, hperiods'⟩
  | none =>
    cases unstakingPeriod with
    | some unstakingPeriod =>
      simp only [Hub.validatePeriods, bind_eq_ok, require_eq_ok] at h
      obtain ⟨_, hunstaking', hperiods'⟩ := h
      exact ⟨hepoch, hunstaking', hperiods'⟩
    | none => exact ⟨hepoch, hunstaking, hperiods⟩

/-- An accepted call keeps the periods within their bounds. -/
theorem Hub.Step.bounded {s s' : Hub.Clocked} {c : Hub.Call} (h : Hub.Step s c s')
    (bounded : s.st.parameters.Bounded) : s'.st.parameters.Bounded := by
  by_cases hupdate : ∃ pause epochLength unstakingPeriod,
      c.msg = .updateParams pause epochLength unstakingPeriod
  · obtain ⟨pause, epochLength, unstakingPeriod, hmsg⟩ := hupdate
    have haccepted := h.accepted
    rw [hmsg] at haccepted
    simp only [Hub.execute, Hub.executeUpdateParams, bind_eq_ok, pure_eq_ok,
      Prod.mk.injEq] at haccepted
    obtain ⟨_, -, _, hvalid, hst, -⟩ := haccepted
    rw [← hst]
    exact Hub.validatePeriods_bounded hvalid bounded
  · rw [h.effect.parameters_eq fun pause epochLength unstakingPeriod heq =>
      hupdate ⟨_, _, _, heq⟩]
    exact bounded

/-- **What the owners cannot change**: the token and its minter, the denoms, and
that the periods and the fee rate are within the contracts' bounds. -/
structure System.Bounded (d : Protocol T) (s : System T) : Prop where
  lstToken_eq : s.world.hub.config.lstToken = some d.token
  minter_eq : d.cw20.minter s.world.token.cw20 = some d.hub
  hubContract_eq : s.world.token.hubContract = d.hub
  denom_eq : s.world.hub.parameters.stakingCoinDenom = d.denom
  rewardDenom_eq : s.dispatcher.rewardDenom = d.denom
  periods : s.world.hub.parameters.Bounded
  feeRate_le : s.dispatcher.feeRate.atomics ≤ Dispatcher.MAX_FEE_RATE.atomics

/-- **The settings stay within bounds**, whatever the owners set over a run. -/
theorem settings_stay_within_bounds {s s' : System T} {tr : List (SystemAction × System T)}
    (created : s.Created d) (run : Run (System.Step d) s tr s') : s'.Bounded d := by
  obtain ⟨h, setup, t, ⟨env, info, res, -, hinst⟩, hsetup, ht⟩ := created.hubAt
  obtain ⟨calls, t', hrun, ⟨hub_eq, -, -, -⟩, -⟩ := System.hubRun run ht
  obtain ⟨wired, regular⟩ := created.regular run
  have hstart : h.st.parameters.Bounded := by
    simp only [Hub.instantiate, bind_eq_ok, require_eq_ok, strictMul_eq_ok, pure_eq_ok,
      Prod.mk.injEq] at hinst
    obtain ⟨_, hepoch, _, -, _, -, _, hunstaking, _, hperiods, hst, -⟩ := hinst
    rw [← hst]
    exact ⟨hepoch, hunstaking, hperiods⟩
  have hperiods := (hsetup.append hrun).invariant (P := fun t => t.st.parameters.Bounded) hstart
    fun _ _ _ ht hstep => hstep.bounded ht
  rw [hub_eq] at hperiods
  exact ⟨wired.world.hub_token, wired.world.minter_eq, wired.world.token_hub, regular.denom_eq,
    wired.denom_eq, hperiods, wired.feeRate_le⟩

/-- The owners set both periods, and the fee rate to its bound. -/
theorem settings_stay_within_bounds_sample :
    let script : List (System Token.Ledger → SystemAction) :=
      [acts (toHub "owner" (.updateParams none (some 604800) (some 604801))),
        acts (toHub "owner" (.updateParams (some true) (some 3600) none)),
        fun _ => .configure "owner" none none none (some ⟨300000000000000000⟩)]
    (systemEnd script).world.hub.parameters = ⟨3600, "ubbn", 604801, true⟩ ∧
      (systemEnd script).Bounded sampleProtocol := by
  intro script
  have run := systemRun script (by decide +kernel)
  exact ⟨by decide +kernel, settings_stay_within_bounds sampleSystem_created run⟩

end BabyLst
