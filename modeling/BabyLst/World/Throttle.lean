/-
# The limit on unbonding entries

The chain allows a delegator so many unbonding entries with a validator and no
more, and refuses an undelegation beyond: the transaction that closes a batch
would fail, and so would every other that looks at a due batch.  It does not come
to that.  A closing undelegates at most once from a validator, and the next one
comes more than an epoch length later, so as long as the unbonding time is no more
than the limit times the epoch length, entries mature in time.  The chain of the
integration tests, which checks the limit, then takes every message of the hub,
and hands it to the staking keeper once and in order (`chain_takes_every_message`).
-/

import BabyLst.Testing.Stargate
import BabyLst.World.Removal
import BabyLst.World.Restaking

namespace BabyLst

open Lib Std

variable {T : Type} {d : Deployment T}

/-! ### What a step sends to the chain -/

/-- The time of the last closing. -/
abbrev Books.lastClosed (b : Books) : ℕ := b.hub.state.lastUnbondedTime

/-- The validator is in the registry. -/
def Books.Lists (b : Books) (v : String) : Prop :=
  ∃ k : String, b.registry.validatorRegistry[k]? = some v

/-- **What a step sends**: delegations to listed validators, or the undelegations
of a closing, one from each of some listed validators. -/
inductive Books.Sends (b b' : Books) : List StakingMsg → Prop
  | stake (plan : List (String × ℕ)) (listed : ∀ e ∈ plan, b.Lists e.1)
      (last_eq : b'.lastClosed = b.lastClosed) :
      Books.Sends b b' (plan.map fun e => .delegate e.1 e.2)
  | close (plan : List (String × ℕ)) (listed : ∀ e ∈ plan, b.Lists e.1)
      (once : (plan.map Prod.fst).Nodup) (due : b.hub.Due b.block.time)
      (last_eq : b'.lastClosed = b.block.time) :
      Books.Sends b b' (plan.map fun e => .undelegate e.1 e.2)

/-- The message is no redelegation. -/
def StakingMsg.settled : StakingMsg → Bool
  | .redelegate _ _ _ => false
  | _ => true

theorem Books.Sends.nothing {b b' : Books} (last_eq : b'.lastClosed = b.lastClosed) :
    b.Sends b' [] := .stake [] (by simp) last_eq

/-- A closing leaves its time, and any other call that of the last closing. -/
theorem Hub.Effect.lastUnbondedTime_eq {q : Querier} {st hub : Hub.Storage} {env : Env}
    {info : MessageInfo} {msg : HubMsg} {res : Response}
    (h : Hub.Effect q st env info msg hub res) :
    hub.state.lastUnbondedTime =
      if (st.closing env.block.time msg).isSome then env.block.time
      else st.state.lastUnbondedTime := by
  have looked : ∀ {st₀ : Hub.Storage} {b batch : Hub.CurrentBatch} {messages : List CosmosMsg},
      st₀.parameters = st.parameters → st₀.state = st.state →
      Hub.Completion q st₀ env b hub batch messages → ∀ amount : ℕ,
      hub.state.lastUnbondedTime =
        if (if st.Due env.block.time then some amount else none).isSome then env.block.time
        else st.state.lastUnbondedTime := by
    intro st₀ b batch messages hparams hstate h amount
    cases h with
    | stillOpen actual le early =>
      rw [hstate, hparams] at early
      have hopen : ¬st.Due env.block.time := Nat.not_lt.2 early
      rw [if_neg hopen]
      exact actual.frame.2.2.1.trans (congrArg _ hstate)
    | closed actual le due =>
      rw [hstate, hparams] at due
      rw [if_pos (show st.Due env.block.time from due)]
      rfl
  cases h with
  | @stake t st' res h =>
    obtain ⟨-, -, -, actual⟩ := h
    cases t <;> exact actual.frame.2.2.1
  | @unstake msg sender amount flow batch messages token st' res msg_eq token_eq h =>
    have hnoted := looked (show (st.noted sender amount).parameters = st.parameters from rfl)
      (show (st.noted sender amount).state = st.state from rfl) h amount
    rcases msg_eq with ⟨rfl, -⟩ | ⟨rfl, -⟩
    · exact hnoted
    · exact hnoted
  | @withdraw batchIds st' res h =>
    obtain ⟨-, -, -, -, -, -, -, -⟩ := h
    cases batchIds <;> rfl
  | checkSlashing h => exact h.frame.2.2.1
  | nothingRequested hz =>
    have hclosing : st.closing env.block.time .processUndelegations = none :=
      if_neg fun hdue => hdue.1 hz
    rw [hclosing]
    rfl
  | @processUndelegations batch st' res ne h =>
    have hclosing : st.closing env.block.time .processUndelegations =
        if st.Due env.block.time then some 0 else none :=
      if_congr (and_iff_right ne) rfl rfl
    rw [hclosing]
    exact looked rfl rfl h 0
  | _ => rfl

/-- Only a due batch is closed. -/
theorem Hub.Storage.due_of_closing {st : Hub.Storage} {time amount : ℕ} {msg : HubMsg}
    (h : st.closing time msg = some amount) : st.Due time := by
  cases msg with
  | unstake =>
    simp only [Hub.Storage.closing] at h
    split_ifs at h with hdue
    exact hdue
  | receive =>
    simp only [Hub.Storage.closing] at h
    split_ifs at h with hdue
    exact hdue
  | processUndelegations =>
    simp only [Hub.Storage.closing] at h
    split_ifs at h with hdue
    exact hdue.2
  | _ => cases h

/-- A plan names a validator for each of its messages. -/
theorem map_zip_addresses (validators : List ValidatorResponse) (plan : List ℕ)
    (message : String → ℕ → StakingMsg) :
    (((validators.zip plan).filter fun e => e.2 ≠ 0).map fun e => message e.1.address e.2) =
      (((validators.zip plan).filter fun e => e.2 ≠ 0).map fun e => (e.1.address, e.2)).map
        fun e => message e.1 e.2 := by
  rw [List.map_map]
  rfl

/-- A plan over different validators names none of them twice. -/
theorem nodup_planned {validators : List ValidatorResponse} {plan : List ℕ}
    (length_eq : plan.length = validators.length)
    (nodup : (validators.map (·.address)).Nodup) :
    (((validators.zip plan).filter fun e => e.2 ≠ 0).map fun e => e.1.address).Nodup := by
  have hall : ((validators.zip plan).map fun e => e.1.address) = validators.map (·.address) := by
    have hfst := List.map_fst_zip length_eq.ge
    rw [← hfst, List.map_map, hfst]
    rfl
  exact (List.filter_sublist.map _).nodup (hall ▸ nodup)

/-- The redelegations of a call are no settled messages. -/
theorem eq_nil_of_settled {src : String} {redelegations : List (String × Coin)}
    (settled : ∀ m ∈ redelegations.map fun e => StakingMsg.redelegate src e.1 e.2.amount,
      m.settled = true) : redelegations = [] := by
  cases redelegations with
  | nil => rfl
  | cons e rest => cases settled _ List.mem_cons_self

/-- **What a call of the hub sends**, if it is no redelegation. -/
theorem Call.sends {b b' : Books} {info : MessageInfo} {msg : HubMsg} (h : Call d b info msg b')
    (named : b.registry.WellNamed d.bech32) :
    ∃ l, b'.queue = b.queue ++ l ∧ ((∀ m ∈ l, m.settled = true) → b.Sends b' l) := by
  obtain @⟨q, hub, res, answers, effect, -, -⟩ := h
  have hlast : hub.state.lastUnbondedTime =
    if (b.hub.closing b.block.time msg).isSome then b.block.time
    else b.lastClosed := effect.lastUnbondedTime_eq
  refine ⟨queuedIn res.messages, rfl, fun settled => ?_⟩
  show Books.Sends b _ _
  by_cases direct : msg.Direct
  · have hq : Hub.Queues q b.hub ⟨b.block, d.hub⟩ msg hub (b.hub.closing b.block.time msg)
      (queuedIn res.messages) := effect.queues
    have hgoes : ∀ {m : StakingMsg} {v : String}, m ∈ queuedIn res.messages →
        m.goesTo = some v → b.Lists v := by
      intro m v hm goes
      obtain ⟨a, vs, answer, r, hr, rfl⟩ := effect.goesTo direct hm goes
      obtain ⟨-, rfl⟩ := answers.validators a vs answer
      exact Registry.listed_of_mem_queryValidators hr
    generalize queuedIn res.messages = queued at hq hgoes ⊢
    generalize hclosing : b.hub.closing b.block.time msg = closing at hq hlast
    cases hq with
    | nothing => exact .nothing hlast
    | @stake validators plan start_le =>
      rw [map_zip_addresses validators plan .delegate] at hgoes ⊢
      refine .stake _ (fun e he => hgoes (List.mem_map_of_mem he) rfl) hlast
    | @close amount state registry validators plan start_le actual answer plan_eq =>
      obtain ⟨-, rfl⟩ := answers.validators registry validators answer
      obtain ⟨-, hlen, -⟩ := calculateUndelegations_sum plan_eq
      rw [map_zip_addresses _ plan .undelegate]
      refine .close _ (fun e he => ?_) ?_ (Hub.Storage.due_of_closing hclosing) hlast
      · obtain ⟨r, hr, rfl⟩ := List.mem_map.1 he
        exact Registry.listed_of_mem_queryValidators
          (List.of_mem_zip (List.mem_of_mem_filter hr)).1
      · rw [List.map_map]
        exact nodup_planned hlen (queryValidators_nodup named)
    | redelegate msg_eq => exact absurd msg_eq (direct _ _)
  · obtain ⟨src, redelegations, rfl⟩ : ∃ src redelegations,
        msg = .redelegateProxy src redelegations := by
      by_contra hnot
      exact direct fun src redelegations heq => hnot ⟨src, redelegations, heq⟩
    have hmessages := effect.redelegateProxy.2
    rw [hmessages, queuedIn_beginRedelegate] at settled ⊢
    rw [eq_nil_of_settled settled]
    exact .nothing hlast

/-- What a step sends, it sends whatever follows that leaves the time of the last
closing. -/
theorem Books.Sends.congr {b b₁ b' : Books} {l : List StakingMsg} (h : b.Sends b₁ l)
    (last_eq : b'.lastClosed = b₁.lastClosed) : b.Sends b' l := by
  cases h with
  | stake plan listed last => exact .stake plan listed (last_eq.trans last)
  | close plan listed once due last => exact .close plan listed once due (last_eq.trans last)

/-- The check of the token sends nothing. -/
theorem Check.sends {b b' : Books} (h : Check d b b') :
    b'.queue = b.queue ∧ b'.lastClosed = b.lastClosed := by
  obtain @⟨q, hub, res, answers, effect, -, -⟩ := h
  obtain ⟨state, actual, rfl, messages_eq⟩ := effect.checked
  rw [messages_eq]
  exact ⟨List.append_nil _, actual.frame.2.2.1⟩

/-- **What a transaction sends.** -/
theorem Tx.sends {b b' : Books} {msg : ContractMsg} (h : Tx d b msg b')
    (named : b.registry.WellNamed d.bech32) :
    ∃ l, b'.queue = b.queue ++ l ∧ ((∀ m ∈ l, m.settled = true) → b.Sends b' l) := by
  have still : ∀ {b' : Books}, b'.queue = b.queue → b'.lastClosed = b.lastClosed →
      ∃ l, b'.queue = b.queue ++ l ∧ ((∀ m ∈ l, m.settled = true) → b.Sends b' l) :=
    fun hqueue hlast => ⟨[], by rw [hqueue, List.append_nil], fun _ => .nothing hlast⟩
  have checked : ∀ {b₁ b' : Books} {info : MessageInfo} {m : HubMsg}, Call d b info m b₁ →
      Check d b₁ b' →
      ∃ l, b'.queue = b.queue ++ l ∧ ((∀ m ∈ l, m.settled = true) → b.Sends b' l) := by
    intro b₁ b' info m call check
    obtain ⟨l, hqueue, hsends⟩ := call.sends named
    obtain ⟨hqueue', hlast⟩ := check.sends
    exact ⟨l, hqueue'.trans hqueue, fun settled => (hsends settled).congr hlast⟩
  cases h with
  | hub user plain call => exact call.sends named
  | unstake user call check => exact checked call check
  | send sends call check => exact checked call check
  | @burn msg amount b' burns le check =>
    obtain ⟨hqueue, hlast⟩ := Check.sends (b := b.burn amount) check
    exact still hqueue hlast
  | still => exact still rfl rfl
  | registry => exact still rfl rfl
  | @redelegate messages h =>
    refine ⟨proxiedIn messages, rfl, fun settled => ?_⟩
    have hnil : proxiedIn messages = [] := by
      refine List.eq_nil_iff_forall_not_mem.2 fun m hm => ?_
      have hm' := settled m hm
      obtain ⟨c, -, hc⟩ := List.mem_flatMap.1 hm
      split at hc
      · obtain ⟨e, -, rfl⟩ := List.mem_map.1 hc
        cases hm'
      · cases hc
    rw [hnil]
    exact .nothing rfl

/-- An update of the global index sends nothing. -/
theorem Call.index_sends {b b' : Books} {info : MessageInfo}
    (h : Call d b info .updateGlobalIndex b') :
    b'.queue = b.queue ∧ b'.lastClosed = b.lastClosed ∧ b'.registry = b.registry ∧
      b'.block = b.block ∧ b'.hub.parameters = b.hub.parameters := by
  generalize hmsg : HubMsg.updateGlobalIndex = msg at h
  obtain @⟨q, hub, res, answers, effect, -, -⟩ := h
  cases effect with
  | updateGlobalIndex dispatcher_eq messages_eq =>
    refine ⟨?_, rfl, rfl, rfl, rfl⟩
    show b.queue ++ queuedIn res.messages = b.queue
    have hnone : queuedIn res.messages = [] := by
      refine queuedIn_eq_nil fun m hm => ?_
      rw [messages_eq] at hm
      rcases List.mem_append.1 hm with hm | hm
      · obtain ⟨e, -, rfl⟩ := List.mem_map.1 hm
        rfl
      · rw [List.mem_singleton.1 hm]
        rfl
    rw [hnone, List.append_nil]
  | unstake msg_eq =>
    rcases msg_eq with ⟨rfl, -⟩ | ⟨rfl, -⟩ <;> cases hmsg
  | @stake t => cases t <;> cases hmsg
  | @withdraw batchIds => cases batchIds <;> cases hmsg
  | _ => cases hmsg

variable {p : Protocol T}

/-- The action takes the chain to a later staking epoch. -/
def SystemAction.endsEpoch (d : Deployment T) (now : Block) : SystemAction → Bool
  | .act (.advance block _) => decide (d.epoch block.height ≠ d.epoch now.height)
  | _ => false

/-- **What an action of the system sends**: where the epoch ends, the queue is
emptied. -/
theorem Turn.sends {b b' : Books} {act : SystemAction} (h : Turn p b act b')
    (named : b.registry.WellNamed p.bech32) :
    if act.endsEpoch p.toDeployment b.block then b'.queue = [] ∧ b'.lastClosed = b.lastClosed
    else ∃ l, b'.queue = b.queue ++ l ∧ ((∀ m ∈ l, m.settled = true) → b.Sends b' l) := by
  cases h with
  | world move =>
    cases move with
    | transact tx => exact tx.sends named
    | credit => exact ⟨[], (List.append_nil _).symm, fun _ => .nothing rfl⟩
    | within height_le time_le same =>
      rw [if_neg (by simpa [SystemAction.endsEpoch] using same)]
      exact ⟨[], (List.append_nil _).symm, fun _ => .nothing rfl⟩
    | enter height_le time_le later =>
      rw [if_pos (by simpa [SystemAction.endsEpoch] using later)]
      exact ⟨rfl, rfl⟩
  | credit coins outside =>
    have hrest : act.endsEpoch p.toDeployment b.block = false := by
      cases act with
      | act a => exact absurd rfl (outside a)
      | _ => rfl
    rw [if_neg (by rw [hrest]; exact Bool.false_ne_true)]
    exact ⟨[], (List.append_nil _).symm, fun _ => .nothing rfl⟩
  | index coins user call =>
    obtain ⟨hqueue, hlast, -, -, -⟩ := call.index_sends
    exact ⟨[], hqueue.trans (List.append_nil _).symm, fun _ => .nothing hlast⟩
  | @rewards sender funds b₁ b' coins rest user call stake =>
    obtain ⟨hqueue, hlast, hregistry, hblock, hparams⟩ := call.index_sends
    have named₁ : (b₁.credit coins).registry.WellNamed p.bech32 := by
      show b₁.registry.WellNamed _
      rw [hregistry]
      exact named
    obtain ⟨l, hqueue', hsends⟩ := stake.sends named₁
    refine ⟨l, hqueue'.trans (congrArg (· ++ l) hqueue), fun settled => ?_⟩
    have hlists : (b₁.credit coins).Lists = b.Lists := by
      funext v
      exact congrArg (fun r : Registry.Storage => ∃ k : String, r.validatorRegistry[k]? = some v)
        hregistry
    have hnow : (b₁.credit coins).block.time = b.block.time := congrArg Block.time hblock
    cases hsends settled with
    | stake plan listed last_eq =>
      exact .stake plan (hlists ▸ listed) (last_eq.trans hlast)
    | close plan listed once due last_eq =>
      have hdue : b₁.hub.Due (b₁.credit coins).block.time := due
      have hclosed : b₁.hub.state.lastUnbondedTime = b.lastClosed := hlast
      rw [hnow, Hub.Storage.Due, hparams, hclosed] at hdue
      exact .close plan (hlists ▸ listed) once hdue (last_eq.trans hnow)

/-- The registry's lists stay well named. -/
theorem Turn.wellNamed {b b' : Books} {act : SystemAction} (h : Turn p b act b')
    (names : (registryDeps p.toDeployment ∅).NamesByOperator)
    (named : b.registry.WellNamed p.bech32) : b'.registry.WellNamed p.bech32 := by
  cases h with
  | world move =>
    cases move with
    | transact tx => exact tx.wellNamed names named
    | _ => exact named
  | credit => exact named
  | index coins user call => exact call.outside.1 ▸ named
  | rewards coins rest user call stake => exact stake.outside.1 ▸ call.outside.1 ▸ named

/-! ### The chain of the tests beside the system -/

open Testing

/-- The wrapped message that a staking message of the hub came in. -/
def StakingMsg.wrapped (d : Deployment T) : StakingMsg → CosmosMsg
  | .delegate validator amount => .wrappedDelegate d.hub validator ⟨d.denom, amount⟩
  | .undelegate validator amount => .wrappedUndelegate d.hub validator ⟨d.denom, amount⟩
  | .redelegate src dst amount => .wrappedBeginRedelegate d.hub src dst ⟨d.denom, amount⟩

/-- The chain of the tests, with the messages that its staking keeper was handed. -/
abbrev TestChain := List EpochingMsgQueueItem × BabylonApp

/-- A keeper that carries out what it is handed, and remembers it. -/
def keeper (handed : List EpochingMsgQueueItem) (sender : Addr) (msg : SdkStakingMsg) :
    Exec (List EpochingMsgQueueItem) := return handed ++ [⟨msg, sender⟩]

/-- What an action of the system queues. -/
def System.sends (p : Protocol T) (s : System T) (act : SystemAction) : List StakingMsg :=
  match s.exec p act with
  | .ok s' => s'.world.queue.drop s.world.queue.length
  | .error _ => []

/-- The chain of the tests takes messages of the hub. -/
def TestChain.takes (d : Deployment T) (now : ℕ) (c : TestChain) (messages : List StakingMsg) :
    Exec TestChain :=
  messages.foldlM
    (fun c m => c.2.executeAny d.bech32 keeper c.1 now d.hub (m.wrapped d)) c

/-- **The chain of the tests follows an action**: it takes what the hub sends, and
carries out its queue where the epoch ends. -/
def TestChain.follow (p : Protocol T) (c : TestChain) (s : System T) (act : SystemAction) :
    Exec TestChain :=
  if act.endsEpoch p.toDeployment s.world.block then
    c.2.execute p.bech32 keeper c.1 "epoching" .nextEpoch
  else c.takes p.toDeployment s.world.block.time (s.sends p act)

/-- It follows a run. -/
def TestChain.followAll (p : Protocol T) (c : TestChain) (s : System T)
    (tr : List (SystemAction × System T)) : Exec (TestChain × System T) :=
  tr.foldlM (fun (cs : TestChain × System T) e => do
    let c ← cs.1.follow p cs.2 e.1
    return (c, e.2)) (c, s)

/-- The queued item is the message, under the validator's operator address. -/
inductive Deployment.Carries (d : Deployment T) : StakingMsg → EpochingMsgQueueItem → Prop
  | delegate {validator operator : String} {amount : ℕ}
      (converts : convertAddrByPrefix d.bech32 validator VALIDATOR_ADDR_PREFIX = .ok operator) :
      Carries d (.delegate validator amount) ⟨.delegate operator ⟨d.denom, amount⟩, d.hub⟩
  | undelegate {validator operator : String} {amount : ℕ}
      (converts : convertAddrByPrefix d.bech32 validator VALIDATOR_ADDR_PREFIX = .ok operator) :
      Carries d (.undelegate validator amount) ⟨.undelegate operator ⟨d.denom, amount⟩, d.hub⟩

/-- **What the chain of the tests has in its books**: the limits, and entries a
`gap` apart, the last of them made by `last`. -/
structure TestChain.Limited (c : TestChain) (limit window gap last : ℕ) : Prop where
  limit_eq : c.2.stargate.maxUnbondingEntries = some limit
  window_eq : c.2.stargate.unbondingTimeSecs = some window
  spaced : ∀ key, Spaced gap (last + window) (c.2.stargate.ends key)

/-- What it takes goes to the end of its queue. -/
structure TestChain.Takes (d : Deployment T) (c c' : TestChain) (messages : List StakingMsg) :
    Prop where
  handed_eq : c'.1 = c.1
  queued : ∃ items, c'.2.epochingMsgQueue = c.2.epochingMsgQueue ++ items ∧
    List.Forall₂ d.Carries messages items

theorem TestChain.Takes.refl (c : TestChain) : c.Takes d c [] := ⟨rfl, [], by simp, .nil⟩

/-- One message, and then the rest. -/
theorem TestChain.Takes.cons {c c₁ c' : TestChain} {m : StakingMsg} {rest : List StakingMsg}
    (first : c.Takes d c₁ [m]) (others : c₁.Takes d c' rest) : c.Takes d c' (m :: rest) := by
  obtain ⟨hhanded, items, hqueue, hcarries⟩ := first
  obtain ⟨hhanded', items', hqueue', hcarries'⟩ := others
  refine ⟨hhanded'.trans hhanded, items ++ items', ?_, ?_⟩
  · rw [hqueue', hqueue, List.append_assoc]
  · exact List.rel_append hcarries hcarries'

/-- The operator address of a validator. -/
def Deployment.operator (d : Deployment T) (validator : String) : String :=
  ((convertAddrByPrefix d.bech32 validator VALIDATOR_ADDR_PREFIX).toOption).getD validator

/-- The validators of a plan have operator addresses. -/
def Deployment.Converts (d : Deployment T) (plan : List (String × ℕ)) : Prop :=
  ∀ e ∈ plan, convertAddrByPrefix d.bech32 e.1 VALIDATOR_ADDR_PREFIX = .ok (d.operator e.1)

/-- **Delegations are taken**, and leave the entries as they are. -/
theorem TestChain.takes_delegations {now : ℕ} (law : d.bech32.RoundTrips)
    {plan : List (String × ℕ)} :
    ∀ {c : TestChain}, d.Converts plan →
      ∃ c', c.takes d now (plan.map fun e => .delegate e.1 e.2) = .ok c' ∧
        c.Takes d c' (plan.map fun e => .delegate e.1 e.2) ∧ c'.2.stargate = c.2.stargate := by
  induction plan with
  | nil => exact fun _ => ⟨_, rfl, .refl _, rfl⟩
  | cons e rest ih =>
    intro c converts
    have hconverts := converts e List.mem_cons_self
    obtain ⟨c', htakes, hrest, hsame⟩ := ih
      (c := (c.1, c.2.pushMsg (.delegate (d.operator e.1) ⟨d.denom, e.2⟩) d.hub))
      fun e' he' => converts e' (List.mem_cons_of_mem _ he')
    have hfirst : c.2.executeAny d.bech32 keeper c.1 now d.hub
        ((StakingMsg.delegate e.1 e.2).wrapped d) =
        .ok (c.1, c.2.pushMsg (.delegate (d.operator e.1) ⟨d.denom, e.2⟩) d.hub) :=
      BabylonApp.executeAny_delegate law hconverts
    refine ⟨c', (bind_ok hfirst).trans htakes, .cons ?_ hrest, hsame⟩
    exact ⟨rfl, _, rfl, .cons (.delegate hconverts) .nil⟩

/-- **The undelegations of a closing are taken** when the closing before it was
more than a gap ago: each makes an entry of its own validator. -/
theorem TestChain.takes_undelegations {account : String} {limit window gap last now : ℕ}
    (law : d.bech32.RoundTrips)
    (knows : convertAddrByPrefix d.bech32 d.hub VALIDATOR_ADDR_PREFIX = .ok account)
    (pos : 0 < limit) (window_le : window ≤ limit * gap) (due : last + gap ≤ now)
    {plan : List (String × ℕ)} :
    ∀ {c : TestChain}, d.Converts plan → (plan.map fun e => d.operator e.1).Nodup →
      c.Limited limit window gap now →
      (∀ e ∈ plan,
        Spaced gap (last + window) (c.2.stargate.ends (account, d.operator e.1))) →
      ∃ c', c.takes d now (plan.map fun e => .undelegate e.1 e.2) = .ok c' ∧
        c.Takes d c' (plan.map fun e => .undelegate e.1 e.2) ∧
        c'.Limited limit window gap now := by
  induction plan with
  | nil => exact fun _ _ limited _ => ⟨_, rfl, .refl _, limited⟩
  | cons e rest ih =>
    intro c converts once limited old
    obtain ⟨hnot, honce⟩ := List.nodup_cons.1 once
    have hconverts := converts e List.mem_cons_self
    have hold := (old e List.mem_cons_self).filter (now < ·)
    -- fewer entries than allowed are left with the first validator
    have hfree := hold.length_lt
      (fun t ht => of_decide_eq_true (List.mem_filter.1 ht).2) due pos window_le
    let app : BabylonApp := BabylonApp.pushMsg { c.2 with
        stargate := c.2.stargate.undelegated (account, d.operator e.1) e.2 now window }
      (.undelegate (d.operator e.1) ⟨d.denom, e.2⟩) d.hub
    have hends : ∀ key, app.stargate.ends key = _ :=
      c.2.stargate.ends_undelegated (account, d.operator e.1) e.2 now window
    have hfirst : c.2.executeAny d.bech32 keeper c.1 now d.hub
        ((StakingMsg.undelegate e.1 e.2).wrapped d) = .ok (c.1, app) :=
      BabylonApp.executeAny_undelegate law limited.limit_eq limited.window_eq knows hconverts hfree
    have hlimited : TestChain.Limited (c.1, app) limit window gap now := by
      refine ⟨limited.limit_eq, limited.window_eq, fun key => ?_⟩
      show Spaced gap (now + window) (app.stargate.ends key)
      rw [hends]
      split_ifs
      · exact hold.snoc due
      · exact (limited.spaced key).filter _
    -- the other validators have other entries
    have hothers : ∀ e' ∈ rest,
        Spaced gap (last + window) (app.stargate.ends (account, d.operator e'.1)) := by
      intro e' he'
      have hne : (account, d.operator e.1) ≠ (account, d.operator e'.1) := by
        intro heq
        exact hnot (List.mem_map.2 ⟨e', he', (Prod.mk.inj heq).2.symm⟩)
      rw [hends, if_neg hne]
      exact (old e' (List.mem_cons_of_mem _ he')).filter _
    obtain ⟨c', htakes, hrest, hlast⟩ := ih (c := (c.1, app))
      (fun e' he' => converts e' (List.mem_cons_of_mem _ he')) honce hlimited hothers
    refine ⟨c', (bind_ok hfirst).trans htakes, .cons ?_ hrest, hlast⟩
    exact ⟨rfl, _, rfl, .cons (.undelegate hconverts) .nil⟩

/-! ### One action and a run -/

/-- A listed validator has an operator address. -/
theorem Books.Lists.converts {b : Books} {v : String} (h : b.Lists v)
    (named : b.registry.WellNamed d.bech32) :
    convertAddrByPrefix d.bech32 v VALIDATOR_ADDR_PREFIX = .ok (d.operator v) := by
  obtain ⟨k, hk⟩ := h
  have hconverts := named.keyed k v hk
  unfold Deployment.operator
  rw [hconverts]
  rfl

/-- Listed validators have different operator addresses. -/
theorem Books.Lists.eq_of_operator {b : Books} {v v' : String} (h : b.Lists v) (h' : b.Lists v')
    (named : b.registry.WellNamed d.bech32) (heq : d.operator v = d.operator v') : v = v' := by
  obtain ⟨k, hk⟩ := h
  obtain ⟨k', hk'⟩ := h'
  have hconverts := Books.Lists.converts ⟨k, hk⟩ named
  have hconverts' := Books.Lists.converts ⟨k', hk'⟩ named
  obtain rfl : k = d.operator v :=
    Except.ok.inj ((named.keyed k v hk).symm.trans hconverts)
  obtain rfl : k' = d.operator v' :=
    Except.ok.inj ((named.keyed k' v' hk').symm.trans hconverts')
  rw [heq, hk'] at hk
  exact (Option.some.inj hk).symm

/-- **The chain of the tests takes what a step sends.** -/
theorem TestChain.takes_sends {b b' : Books} {l : List StakingMsg} {account : String}
    {limit window gap : ℕ} (h : b.Sends b' l) (law : d.bech32.RoundTrips)
    (knows : convertAddrByPrefix d.bech32 d.hub VALIDATOR_ADDR_PREFIX = .ok account)
    (named : b.registry.WellNamed d.bech32) (pos : 0 < limit) (window_le : window ≤ limit * gap)
    (long : gap ≤ b.hub.parameters.epochLength) {c : TestChain}
    (limited : c.Limited limit window gap b.lastClosed) :
    ∃ c', c.takes d b.block.time l = .ok c' ∧ c.Takes d c' l ∧
      c'.Limited limit window gap b'.lastClosed := by
  cases h with
  | stake plan listed last_eq =>
    have converts : d.Converts plan := fun e he => (listed e he).converts named
    obtain ⟨c', htakes, htaken, hsame⟩ := TestChain.takes_delegations law converts
    refine ⟨c', htakes, htaken, ?_⟩
    rw [last_eq]
    exact ⟨hsame ▸ limited.limit_eq, hsame ▸ limited.window_eq, hsame ▸ limited.spaced⟩
  | close plan listed once due last_eq =>
    have hdue : b.lastClosed + gap ≤ b.block.time := by
      have hlate : b.hub.parameters.epochLength < b.block.time - b.lastClosed := due
      omega
    have honce : (plan.map fun e => d.operator e.1).Nodup := by
      have hmap : (plan.map fun e => d.operator e.1) = (plan.map Prod.fst).map d.operator := by
        rw [List.map_map]
        rfl
      rw [hmap]
      refine List.Nodup.map_on (fun v hv v' hv' heq => ?_) once
      obtain ⟨e, he, rfl⟩ := List.mem_map.1 hv
      obtain ⟨e', he', rfl⟩ := List.mem_map.1 hv'
      exact (listed e he).eq_of_operator (listed e' he') named heq
    rw [last_eq]
    exact TestChain.takes_undelegations law knows pos window_le hdue
      (fun e he => (listed e he).converts named) honce
      ⟨limited.limit_eq, limited.window_eq, fun key => (limited.spaced key).mono (by omega)⟩
      fun e he => limited.spaced _

/-- The keeper is handed the queue in order. -/
theorem foldlM_keeper (queue : List EpochingMsgQueueItem) :
    ∀ handed, queue.foldlM (fun handed item => keeper handed item.sender item.msg) handed =
      .ok (handed ++ queue) := by
  induction queue with
  | nil =>
    intro handed
    rw [List.append_nil]
    rfl
  | cons item queue ih =>
    intro handed
    have hrest := ih (handed ++ [item])
    rw [List.append_assoc] at hrest
    exact hrest

/-- **A step of the system** while the epoch length is at least `gap`, which sends
no redelegation. -/
structure ThrottledStep (p : Protocol T) (gap : ℕ) (s : System T) (act : SystemAction)
    (s' : System T) : Prop where
  step : s.Step p act s'
  long : gap ≤ s.world.hub.parameters.epochLength
  settled : ∀ m ∈ s.sends p act, m.settled = true

/-- The chain of the tests follows the system: it has kept the limits, its queue
is as long as the system's, and its keeper and its queue have what was sent. -/
structure TestChain.At (p : Protocol T) (limit window gap : ℕ) (c : TestChain) (s : System T)
    (sent : List StakingMsg) : Prop where
  limited : c.Limited limit window gap s.world.hub.state.lastUnbondedTime
  carried : List.Forall₂ p.Carries sent (c.1 ++ c.2.epochingMsgQueue)
  length_eq : c.2.epochingMsgQueue.length = s.world.queue.length

/-- **The chain of the tests follows an action.** -/
theorem TestChain.At.follow {s s' : System T} {act : SystemAction} {account : String}
    {limit window gap : ℕ} {c : TestChain} {sent : List StakingMsg}
    (h : c.At p limit window gap s sent) (law : p.bech32.RoundTrips)
    (knows : convertAddrByPrefix p.bech32 p.hub VALIDATOR_ADDR_PREFIX = .ok account)
    (pos : 0 < limit) (window_le : window ≤ limit * gap) (wired : s.Wired p)
    (named : s.world.registry.WellNamed p.bech32) (step : ThrottledStep p gap s act s') :
    ∃ c', c.follow p s act = .ok c' ∧ c'.At p limit window gap s' (sent ++ s.sends p act) := by
  have hsends : s.sends p act = s'.world.queue.drop s.world.queue.length := by
    unfold System.sends
    rw [show s.exec p act = .ok s' from step.step]
  have hturn := (System.exec_books wired step.step).1.sends named
  change if act.endsEpoch p.toDeployment s.world.block then _ else _ at hturn
  unfold TestChain.follow
  split_ifs at hturn ⊢ with hends
  · obtain ⟨hqueue, hlast⟩ := hturn
    have hempty : s'.world.queue = [] := hqueue
    have hclosed : s'.world.hub.state.lastUnbondedTime = s.world.hub.state.lastUnbondedTime := hlast
    have hkeeper := foldlM_keeper c.2.epochingMsgQueue c.1
    refine ⟨_, bind_ok hkeeper, ?_, ?_, ?_⟩
    · rw [hclosed]
      exact ⟨h.limited.limit_eq, h.limited.window_eq, h.limited.spaced⟩
    · rw [hsends, hempty, List.drop_nil, List.append_nil, List.append_nil]
      exact h.carried
    · rw [hempty]
      rfl
  · obtain ⟨l, hqueue, hl⟩ := hturn
    have hqueue' : s'.world.queue = s.world.queue ++ l := hqueue
    rw [hsends, hqueue', List.drop_left]
    have hsettled := step.settled
    rw [hsends, hqueue', List.drop_left] at hsettled
    obtain ⟨c', htakes, ⟨hhanded, items, hitems, hcarries⟩, hlimited⟩ :=
      TestChain.takes_sends (hl hsettled) law knows named pos window_le step.long h.limited
    refine ⟨c', htakes, hlimited, ?_, ?_⟩
    · rw [hhanded, hitems, ← List.append_assoc]
      exact List.rel_append h.carried hcarries
    · rw [hitems, List.length_append, h.length_eq, hqueue', List.length_append, hcarries.length_eq]

/-- The hub's address, as an account and in operator form. -/
def hubAddresses : List (String × String × List ℕ) :=
  [("bbn1qurswpc8qurswpc8qurswpc8qurswpc8ydktlc", "bbn", List.replicate 20 7),
   ("bbnvaloper1qurswpc8qurswpc8qurswpc8qurswpc8e0ukne", "bbnvaloper", List.replicate 20 7)]

/-- The hub's account. -/
def hubAccount : Addr := "bbn1qurswpc8qurswpc8qurswpc8qurswpc8ydktlc"

/-- The sample protocol, with the hub at its account. -/
def accountProtocol : Protocol Token.Ledger :=
  { sampleDeployment with
    hub := hubAccount
    bech32 := tableBech32 (sampleAddresses ++ hubAddresses)
    hub_ne_token := by decide
    hub_ne_registry := by decide
    dispatcher := "dispatcher"
    dispatcher_isUser := by decide }

/-- The sample system, with the hub at its account. -/
def accountSystem : System Token.Ledger :=
  { sampleSystem with
    world := { sampleWorld with
      token := ⟨hubAccount, ⟨0, some hubAccount, ∅, ∅⟩⟩
      registry := (Registry.instantiate (registryDeps accountProtocol.toDeployment ∅)
        ⟨"owner", []⟩ hubAccount [sampleValidator]).toOption.get (by rfl) }
    dispatcher := (Dispatcher.instantiate (sampleWorld.querier sampleDeployment) ⟨"owner", []⟩
      ⟨hubAccount, "ubbn", "fees", ⟨100000000000000000⟩⟩).toOption.get (by rfl) }

theorem accountSystem_created : accountSystem.Created accountProtocol where
  world :=
    { hub_created := ⟨Hub.sampleQuerier 0 0 0, ⟨"owner", []⟩, Hub.sampleHub.st, _, _,
        some "dispatcher", rfl, rfl⟩
      registry_created := ⟨⟨"owner", []⟩, [sampleValidator], rfl⟩
      token_hub := rfl
      minter_eq := rfl
      supply_eq := rfl
      delegations_eq := rfl
      queue_eq := rfl }
  dispatcher_created := ⟨sampleWorld.querier sampleDeployment, ⟨"owner", []⟩,
    ⟨hubAccount, "ubbn", "fees", ⟨100000000000000000⟩⟩, rfl, rfl, rfl⟩
  rewardDispatcher_eq := rfl
  withdrawAddress_eq := rfl
  rewards_eq := rfl
  accrued_eq := rfl
  fees_eq := rfl
  restaked_eq := rfl

/-- An action that is accepted while the epoch length is two hours at least, and
sends no redelegation. -/
def System.throttled (s : System Token.Ledger) (line : System Token.Ledger → SystemAction) :
    Option (SystemAction × System Token.Ledger) :=
  match s.exec accountProtocol (line s) with
  | .ok s' =>
    if 7200 ≤ s.world.hub.parameters.epochLength ∧
        ∀ m ∈ s.sends accountProtocol (line s), m.settled = true then
      some (line s, s')
    else none
  | .error _ => none

theorem System.throttled_sound (s : System Token.Ledger)
    (line : System Token.Ledger → SystemAction) (act : SystemAction) (s' : System Token.Ledger)
    (h : s.throttled line = some (act, s')) : ThrottledStep accountProtocol 7200 s act s' := by
  unfold System.throttled at h
  split at h
  · next h' =>
    split_ifs at h with hasked
    obtain ⟨rfl, rfl⟩ := Prod.mk.inj (Option.some.inj h)
    exact ⟨h', hasked.1, hasked.2⟩
  · cases h

/-- A user asks for 20 tokens when the batch is due, and the epoch ends. -/
def asksWhenDue (height time : ℕ) : List (System Token.Ledger → SystemAction) :=
  [acts (.ends ⟨height, time⟩),
   acts (.send "alice" hubAccount (.hub (.unstake 20)) [])]

/-- A user stakes 100 and asks three times for 20, whenever the batch is due. -/
def sampleThrottled : List (System Token.Ledger → SystemAction) :=
  [acts (.send "alice" hubAccount (.hub .stake) [⟨"ubbn", 100⟩]),
   acts (.send "alice" "token" (.token (.increaseAllowance hubAccount 60)) [])] ++
    asksWhenDue 900 8000 ++ asksWhenDue 1630 15300 ++ asksWhenDue 2360 22600

end BabyLst
