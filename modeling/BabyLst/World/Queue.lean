/-
# The queue

What a call of the hub sends to the staking module (`Hub.Queues`): delegations
of a stake, undelegations when the batch is closed, redelegations for the
registry, or nothing.  A batch is closed by the calls that look at it, once its
period has passed (`Hub.Storage.closing`).

What is queued without the redelegations is positive, and so are the
delegations it leads to (`DirectStep.positive`); nothing is queued before the
pending record begins (`DirectStep.begun`).
-/

import BabyLst.World.Tracking

namespace BabyLst

open Lib Std

variable {T : Type} {d : Deployment T}

/-! ### What a call queues -/

namespace Hub

/-- The period of the current batch has passed. -/
def Storage.Due (st : Storage) (time : ℕ) : Prop :=
  st.parameters.epochLength < time - st.state.lastUnbondedTime

instance (st : Storage) (time : ℕ) : Decidable (st.Due time) := inferInstanceAs (Decidable (_ < _))

/-- What a call requests on top of the batch that it closes, if it closes one. -/
def Storage.closing (st : Storage) (time : ℕ) : HubMsg → Option ℕ
  | .unstake amount => if st.Due time then some amount else none
  | .receive msg => if st.Due time then some msg.amount else none
  | .processUndelegations =>
    if st.currentBatch.requestedLstTokenAmount ≠ 0 ∧ st.Due time then some 0 else none
  | _ => none

/-- **What a call queues**, by what it requests on top of the batch it closes. -/
inductive Queues (q : Querier) (st : Storage) (env : Env) (msg : HubMsg) (hub : Storage) :
    Option ℕ → List StakingMsg → Prop
  | nothing (pending_eq : hub.pendingDelegation = st.pendingDelegation) :
    Queues q st env msg hub none []
  | stake {validators : List ValidatorResponse} {plan : List ℕ}
      (start_le : hub.pendingDelegation.stakingEpochStartBlockHeight ≤ env.block.height) :
    Queues q st env msg hub none
      (((validators.zip plan).filter fun e => e.2 ≠ 0).map fun e => .delegate e.1.address e.2)
  | close {amount : ℕ} {state : State} {registry : Addr} {validators : List ValidatorResponse}
      {plan : List ℕ}
      (start_le : hub.pendingDelegation.stakingEpochStartBlockHeight ≤ env.block.height)
      (actual : ActualState q st env st.state state)
      (answer : q.validatorsDelegation registry = .ok validators)
      (plan_eq : calculateUndelegations (state.lstExchangeRate.mulFloor
        (st.currentBatch.requestedLstTokenAmount + amount)) validators = .ok plan) :
    Queues q st env msg hub (some amount)
      (((validators.zip plan).filter fun e => e.2 ≠ 0).map fun e => .undelegate e.1.address e.2)
  | redelegate {src : String} {redelegations : List (String × Coin)}
      (msg_eq : msg = .redelegateProxy src redelegations) :
    Queues q st env msg hub none
      (redelegations.map fun e => .redelegate src e.1 e.2.amount)

end Hub

theorem queuedIn_eq_nil {messages : List CosmosMsg} (h : ∀ m ∈ messages, m.staking = none) :
    queuedIn messages = [] := List.filterMap_eq_nil_iff.2 h

theorem queuedIn_delegateMsgs (denom : String) (a : Addr) (vs : List ValidatorResponse)
    (plan : List ℕ) : queuedIn (Hub.delegateMsgs denom a vs plan) =
      ((vs.zip plan).filter fun e => e.2 ≠ 0).map fun e => .delegate e.1.address e.2 := by
  unfold Hub.delegateMsgs queuedIn
  rw [List.filterMap_map, ← List.filterMap_eq_map]
  rfl

theorem queuedIn_undelegateMsgs (denom : String) (a : Addr) (vs : List ValidatorResponse)
    (plan : List ℕ) : queuedIn (Hub.undelegateMsgs denom a vs plan) =
      ((vs.zip plan).filter fun e => e.2 ≠ 0).map fun e => .undelegate e.1.address e.2 := by
  unfold Hub.undelegateMsgs queuedIn
  rw [List.filterMap_map, ← List.filterMap_eq_map]
  rfl

theorem queuedIn_mintMsgs (t : Hub.StakeType) (token : Option Addr) (a : Addr) (mint : ℕ) :
    queuedIn (Hub.mintMsgs t token a mint) = [] := by
  cases t <;> cases token <;> rfl

/-- The check does not read the wait list. -/
theorem Hub.ActualState.of_noted {q : Querier} {st : Hub.Storage} {env : Env} {sender : Addr}
    {amount : ℕ} {s s' : Hub.State} (h : Hub.ActualState q (st.noted sender amount) env s s') :
    Hub.ActualState q st env s s' := by
  cases h with
  | noDelegations h => exact .noDelegations h
  | nothingStaked ne pending le zero => exact .nothingStaked ne pending le zero
  | full ne pending le pos staked_eq issued => exact .full ne pending le pos staked_eq issued

theorem Hub.Queues.of_noted {q : Querier} {st hub : Hub.Storage} {env : Env} {msg : HubMsg}
    {sender : Addr} {noted : ℕ} {closing : Option ℕ} {queued : List StakingMsg}
    (h : Hub.Queues q (st.noted sender noted) env msg hub closing queued) :
    Hub.Queues q st env msg hub closing queued := by
  cases h with
  | nothing pending_eq => exact .nothing pending_eq
  | stake start_le => exact .stake start_le
  | close start_le actual answer plan_eq => exact .close start_le actual.of_noted answer plan_eq
  | redelegate msg_eq => exact .redelegate msg_eq

/-- What looking at the batch queues. -/
theorem Hub.Completion.queues {q : Querier} {st hub : Hub.Storage} {env : Env}
    {batch : Hub.CurrentBatch} {messages : List CosmosMsg} {amount : ℕ} (msg : HubMsg)
    (h : Hub.Completion q st env (st.currentBatch.plus amount) hub batch messages) :
    Hub.Queues q st env msg hub (if st.Due env.block.time then some amount else none)
      (queuedIn messages) := by
  cases h with
  | stillOpen actual le early =>
    rw [if_neg (show ¬st.Due env.block.time from Nat.not_lt.2 early)]
    exact .nothing rfl
  | closed actual le due registry_eq answer plan_eq enough written =>
    rw [if_pos (show st.Due env.block.time from due), queuedIn_undelegateMsgs]
    exact .close written.inside.1 actual answer plan_eq

/-- **What an accepted call queues.** -/
theorem Hub.Effect.queues {q : Querier} {st hub : Hub.Storage} {env : Env} {info : MessageInfo}
    {msg : HubMsg} {res : Response} (h : Hub.Effect q st env info msg hub res) :
    Hub.Queues q st env msg hub (st.closing env.block.time msg) (queuedIn res.messages) := by
  -- a response without staking messages
  have quiet : hub.pendingDelegation = st.pendingDelegation → st.closing env.block.time msg = none →
      (∀ m ∈ res.messages, m.staking = none) →
      Hub.Queues q st env msg hub (st.closing env.block.time msg) (queuedIn res.messages) := by
    intro hpending hclosing hnone
    rw [hclosing, queuedIn_eq_nil hnone]
    exact .nothing hpending
  cases h with
  | @stake t st' res h =>
    have hclosing : st.closing env.block.time (Hub.stakeMsg t) = none := by cases t <;> rfl
    obtain ⟨-, -, -, -, -, -, -, -, written, -, -, -, messages_eq⟩ := h
    rw [messages_eq, queuedIn_append, queuedIn_delegateMsgs, queuedIn_mintMsgs, List.append_nil,
      hclosing]
    exact .stake written.inside.1
  | @unstake msg sender amount flow batch messages token st' res msg_eq token_eq h messages_eq =>
    have hclosing : st.closing env.block.time msg =
        if st.Due env.block.time then some amount else none := by
      rcases msg_eq with ⟨rfl, -⟩ | ⟨rfl, -⟩ <;> rfl
    have hburn : queuedIn [.wasmExecute token (.token (Hub.burnMsg sender amount flow)) []] = [] :=
      rfl
    rw [hclosing, messages_eq, queuedIn_append, hburn, List.append_nil]
    exact (Hub.Completion.queues msg h).of_noted
  | @withdraw batchIds st' res h =>
    obtain ⟨-, -, -, -, -, -, -, messages_eq, -⟩ := h
    refine quiet rfl (by cases batchIds <;> rfl) fun m hm => ?_
    rw [messages_eq, List.mem_singleton] at hm
    rw [hm]
    rfl
  | release free_eq unclaimed_le h left_le messages_eq =>
    exact quiet rfl rfl (by simp [messages_eq])
  | checkSlashing h messages_eq => exact quiet rfl rfl (by simp [messages_eq])
  | nothingRequested hz =>
    refine quiet rfl ?_ (by simp)
    rw [Hub.Storage.closing, if_neg fun h => h.1 hz]
  | @processUndelegations batch st' res ne h =>
    have h' : Hub.Completion q st env (st.currentBatch.plus 0) hub batch res.messages := h
    have hclosing : st.closing env.block.time .processUndelegations =
        if st.Due env.block.time then some 0 else none :=
      if_congr (and_iff_right ne) rfl rfl
    rw [hclosing]
    exact h'.queues _
  | updateParams auth messages_eq => exact quiet rfl rfl (by simp [messages_eq])
  | updateConfig auth token messages_eq =>
    refine quiet rfl rfl fun m hm => ?_
    obtain ⟨a, rfl⟩ := messages_eq m hm
    rfl
  | redelegate auth messages_eq =>
    rw [messages_eq, queuedIn_beginRedelegate]
    exact .redelegate rfl
  | updateGlobalIndex dispatcher_eq messages_eq =>
    refine quiet rfl rfl fun m hm => ?_
    rw [messages_eq] at hm
    rcases List.mem_append.1 hm with hm | hm
    · obtain ⟨e, -, rfl⟩ := List.mem_map.1 hm
      rfl
    · rw [List.mem_singleton.1 hm]
      rfl

/-! ### Transactions without a redelegation of a user -/

/-- The message is no `RedelegateProxy`. -/
def HubMsg.Direct (msg : HubMsg) : Prop :=
  ∀ src redelegations, msg ≠ .redelegateProxy src redelegations

theorem Inner.direct : Inner HubMsg.Direct where
  receive _ _ _ h := by cases h
  unstake _ _ _ h := by cases h
  checkSlashing _ _ h := by cases h

/-- The action is no `RedelegateProxy` of a user. -/
def Action.Direct (act : Action) : Prop :=
  ∀ sender contract src redelegations funds,
    act ≠ .transact sender contract (.hub (.redelegateProxy src redelegations)) funds

theorem Action.Direct.msg {sender contract : Addr} {msg : ContractMsg} {funds : List Coin}
    (h : (Action.transact sender contract msg funds).Direct) :
    ∀ m, msg = .hub m → m.Direct := by
  rintro m rfl src redelegations rfl
  exact h _ _ _ _ _ rfl

/-- The line is no `RedelegateProxy`. -/
def ScriptLine.direct : ScriptLine → Bool
  | .send _ _ (.hub (.redelegateProxy _ _)) _ => false
  | _ => true

theorem ScriptLine.direct_sound {w : World Token.Ledger} {line : ScriptLine}
    (h : line.direct = true) : (line.action w).Direct := by
  intro sender contract src redelegations funds hact
  cases line with
  | send =>
    simp only [ScriptLine.action, Action.transact.injEq] at hact
    obtain ⟨-, -, rfl, -⟩ := hact
    cases h
  | _ => cases hact

/-- The pending record starts by now, or nothing is delegated or queued yet. -/
def Books.Begun (b : Books) : Prop :=
  b.hub.pendingDelegation.stakingEpochStartBlockHeight ≤ b.block.height ∨
    b.delegations = ∅ ∧ b.queue = []

theorem Call.begun {b b' : Books} {info : MessageInfo} {msg : HubMsg} (h : Call d b info msg b')
    (direct : msg.Direct) (hb : b.Begun) : b'.Begun := by
  obtain @⟨q, hub, res, answers, effect, -, -⟩ := h
  have hq := effect.queues
  show hub.pendingDelegation.stakingEpochStartBlockHeight ≤ b.block.height ∨
    b.delegations = ∅ ∧ b.queue ++ queuedIn res.messages = []
  generalize queuedIn res.messages = queued at hq
  generalize b.hub.closing _ msg = closing at hq
  cases hq with
  | nothing pending_eq =>
    rw [pending_eq, List.append_nil]
    exact hb
  | stake start_le => exact .inl start_le
  | close start_le => exact .inl start_le
  | redelegate msg_eq => exact absurd msg_eq (direct _ _)

/-- Where nothing is delegated there is nothing to redelegate. -/
theorem proxiedIn_of_empty {b : Books} {messages : List CosmosMsg} (hempty : b.delegations = ∅)
    (h : Registry.processRedelegations (registryDeps d b.delegations) b.registry = .ok messages) :
    proxiedIn messages = [] := by
  have hnone :
      (registryDeps d b.delegations).allDelegations b.registry.config.hubContract = [] := by
    have hnil := (delegationList_eq_nil (d := d) b.delegations).2 (by rw [hempty]; rfl)
    simp only [registryDeps, hnil, ite_self]
  have hms : messages = [] := by
    refine List.eq_nil_iff_forall_not_mem.2 fun m hm => ?_
    obtain ⟨v, rs, -, -, hheld⟩ := Registry.processRedelegations_messages h m hm
    rw [hnone] at hheld
    simp [Registry.delegatedTo, Registry.delegationMap] at hheld
  rw [hms]
  rfl

theorem Slashed.empty {ds : ExtTreeMap String ℕ} (h : Slashed ∅ ds) : ds = ∅ := by
  refine ExtTreeMap.ext_getElem? fun v => ?_
  cases hv : ds[v]? with
  | none => simp
  | some n' =>
    obtain ⟨n, hn, -⟩ := h v n' hv
    simp at hn

/-- One step of a chain that carries its queue out in full, and no
`RedelegateProxy` of a user. -/
def DirectStep (d : Deployment T) (w : World T) (act : Action) (w' : World T) : Prop :=
  TrackedStep d w act w' ∧ act.Direct

theorem DirectStep.begun {w w' : World T} {act : Action} (h : DirectStep d w act w')
    (reached : w.Reached d) (hb : (w.books d).Begun) : (w'.books d).Begun := by
  obtain ⟨⟨hstep, hfull⟩, hdirect⟩ := h
  obtain ⟨hmove, -, -⟩ := reached.exec hstep
  generalize w'.books d = b' at hmove
  cases hmove with
  | transact tx =>
    refine tx.keep .direct hdirect.msg Call.begun (fun _ h => h) (fun _ h => h) ?_ hb
    intro b messages hp hb
    refine hb.imp_right fun hnone => ⟨hnone.1, ?_⟩
    show b.queue ++ proxiedIn messages = []
    rw [hnone.2, proxiedIn_of_empty hnone.1 hp]
    rfl
  | credit => exact hb
  | @within block delegations height_le time_le same =>
    have hs := hfull block delegations rfl
    rw [if_pos (show d.epoch block.height = d.epoch w.block.height from same)] at hs
    rcases hb with hle | ⟨hempty, hqueue⟩
    · exact .inl (hle.trans height_le)
    · have hempty' : w.delegations = ∅ := hempty
      rw [hempty'] at hs
      exact .inr ⟨hs.empty, hqueue⟩
  | @enter block delegations height_le time_le later enough =>
    have hs := hfull block delegations rfl
    rw [if_neg (show ¬d.epoch block.height = d.epoch w.block.height from later)] at hs
    rcases hb with hle | ⟨hempty, hqueue⟩
    · exact .inl (hle.trans height_le)
    · have hempty' : w.delegations = ∅ := hempty
      have hqueue' : w.queue = [] := hqueue
      rw [hempty', hqueue'] at hs
      exact .inr ⟨(Option.some.inj hs).symm, rfl⟩

/-! ### Positive amounts -/

/-- The amount of a staking message. -/
def StakingMsg.amount : StakingMsg → ℕ
  | .delegate _ amount => amount
  | .undelegate _ amount => amount
  | .redelegate _ _ amount => amount

/-- No delegation is empty. -/
def Nonzero (delegations : ExtTreeMap String ℕ) : Prop :=
  ∀ (v : String) (n : ℕ), delegations[v]? = some n → 0 < n

/-- What is queued and what is delegated is more than nothing. -/
structure Books.Positive (b : Books) : Prop where
  queued : ∀ m ∈ b.queue, 0 < m.amount
  nonzero : Nonzero b.delegations

theorem Call.positive {b b' : Books} {info : MessageInfo} {msg : HubMsg} (h : Call d b info msg b')
    (direct : msg.Direct) (hb : b.Positive) : b'.Positive := by
  obtain @⟨q, hub, res, answers, effect, -, -⟩ := h
  have hq := effect.queues
  refine ⟨?_, hb.nonzero⟩
  show ∀ m ∈ b.queue ++ queuedIn res.messages, 0 < m.amount
  generalize queuedIn res.messages = queued at hq
  generalize b.hub.closing _ msg = closing at hq
  have planned : ∀ {make : ValidatorResponse × ℕ → StakingMsg}, (∀ e, (make e).amount = e.2) →
      ∀ {l : List (ValidatorResponse × ℕ)}, ∀ m ∈ (l.filter fun e => e.2 ≠ 0).map make,
        0 < m.amount := by
    intro make hmake l m hm
    obtain ⟨e, he, rfl⟩ := List.mem_map.1 hm
    rw [hmake]
    exact Nat.pos_of_ne_zero (of_decide_eq_true (List.mem_filter.1 he).2)
  intro m hm
  rcases List.mem_append.1 hm with hm | hm
  · exact hb.queued m hm
  · cases hq with
    | nothing => cases hm
    | stake => exact planned (fun _ => rfl) m hm
    | close => exact planned (fun _ => rfl) m hm
    | redelegate msg_eq => exact absurd msg_eq (direct _ _)

theorem proxiedIn_positive {b : Books} {messages : List CosmosMsg}
    (h : Registry.processRedelegations (registryDeps d b.delegations) b.registry = .ok messages) :
    ∀ m ∈ proxiedIn messages, 0 < m.amount := by
  intro m hm
  obtain ⟨c, hc, hm⟩ := List.mem_flatMap.1 hm
  obtain ⟨v, rs, rfl, hpos, -⟩ := Registry.processRedelegations_messages h c hc
  obtain ⟨e, he, rfl⟩ := List.mem_map.1 hm
  exact hpos e he

theorem nonzero_insert {ds : ExtTreeMap String ℕ} {v : String} {n : ℕ} (h : Nonzero ds)
    (hn : 0 < n) : Nonzero (ds.insert v n) := forall_getElem?_insert hn h

theorem nonzero_takeDelegation {ds ds' : ExtTreeMap String ℕ} {v : String} {n : ℕ}
    (h : Nonzero ds) (ht : takeDelegation ds v n = some ds') : Nonzero ds' := by
  unfold takeDelegation at ht
  dsimp only at ht
  split_ifs at ht with hlt heq
  · obtain rfl := Option.some.inj ht
    exact forall_getElem?_erase h
  · obtain rfl := Option.some.inj ht
    exact nonzero_insert h (by omega)

theorem nonzero_applyMsg {ds ds' : ExtTreeMap String ℕ} {m : StakingMsg} (h : Nonzero ds)
    (hm : 0 < m.amount) (ha : applyMsg ds m = some ds') : Nonzero ds' := by
  cases m with
  | delegate v n =>
    obtain rfl := Option.some.inj ha
    have hn : 0 < n := hm
    exact nonzero_insert h (by omega)
  | undelegate v n => exact nonzero_takeDelegation h ha
  | redelegate s t n =>
    obtain ⟨ds₁, h₁, rfl⟩ := Option.map_eq_some_iff.1 ha
    have hn : 0 < n := hm
    exact nonzero_insert (nonzero_takeDelegation h h₁) (by omega)

/-- **A queue of positive amounts leaves no empty delegation.** -/
theorem nonzero_applyQueue {queue : List StakingMsg} :
    ∀ {ds ds' : ExtTreeMap String ℕ}, Nonzero ds → (∀ m ∈ queue, 0 < m.amount) →
      applyQueue ds queue = some ds' → Nonzero ds' := by
  induction queue with
  | nil =>
    intro ds ds' h _ ha
    obtain rfl := Option.some.inj ha
    exact h
  | cons m queue ih =>
    intro ds ds' h hpos ha
    obtain ⟨ds₁, h₁, h₂⟩ := Option.bind_eq_some_iff.1 ha
    have hnext := nonzero_applyMsg h (hpos m (List.mem_cons_self ..)) h₁
    exact ih hnext (fun m' hm' => hpos m' (List.mem_cons_of_mem _ hm')) h₂

theorem UnslashedStep.positive {w w' : World T} {act : Action} (h : UnslashedStep d w act w')
    (direct : act.Direct) (reached : w.Reached d) (hb : (w.books d).Positive) :
    (w'.books d).Positive := by
  obtain ⟨hstep, hfull⟩ := h
  obtain ⟨hmove, -, -⟩ := reached.exec hstep
  generalize w'.books d = b' at hmove
  cases hmove with
  | transact tx =>
    refine tx.keep .direct direct.msg Call.positive (fun _ h => ⟨h.queued, h.nonzero⟩)
      (fun _ h => ⟨h.queued, h.nonzero⟩) ?_ hb
    intro b messages hp hb
    refine ⟨fun m hm => ?_, hb.nonzero⟩
    rcases List.mem_append.1 hm with hm | hm
    · exact hb.queued m hm
    · exact proxiedIn_positive hp m hm
  | credit => exact ⟨hb.queued, hb.nonzero⟩
  | @within block delegations height_le time_le same =>
    have hs := hfull block delegations rfl
    rw [if_pos (show d.epoch block.height = d.epoch w.block.height from same)] at hs
    exact ⟨hb.queued, hs ▸ hb.nonzero⟩
  | @enter block delegations height_le time_le later enough =>
    have hs := hfull block delegations rfl
    rw [if_neg (show ¬d.epoch block.height = d.epoch w.block.height from later)] at hs
    exact ⟨(fun m hm => by cases hm), nonzero_applyQueue hb.nonzero hb.queued hs⟩

/-- Where the chain reports a delegation, something is delegated. -/
theorem Books.Positive.delegated_pos {b : Books} (h : b.Positive)
    (listed : b.accounts.listed = true) :
    0 < b.accounts.delegated := by
  have hne : b.delegations.toList ≠ [] := by
    rw [Ne, ExtTreeMap.toList_eq_nil_iff, ← ExtTreeMap.isEmpty_iff]
    simpa [Books.accounts] using listed
  obtain ⟨e, he⟩ := List.exists_mem_of_ne_nil _ hne
  have hget := ExtTreeMap.mem_toList_iff_getElem?_eq_some.1 he
  have hpos := h.nonzero e.1 e.2 hget
  have herase := delegated_erase b.delegations e.1
  rw [hget, Option.getD_some] at herase
  show 0 < delegated b.delegations
  omega

end BabyLst
