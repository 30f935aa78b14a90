/-
# Validators that are no longer registered

The hub stakes with the validators that the registry lists, and the registry
redelegates to these alone.  So from the moment a validator is off the list
nothing more is sent to it, and once nothing is on its way, its delegation does
not grow any more (`unlisted_validators_get_nothing`).  A redelegation takes
what it has; when the epoch has ended the validator is empty, and it stays empty
unless it is added again (`removed_validators_are_emptied`).
-/

import BabyLst.Registry.Redelegations
import BabyLst.World.Commitment

namespace BabyLst

open Lib Std

variable {T : Type} {d : Deployment T} {v : String}

/-- Whom a staking message brings something. -/
def StakingMsg.goesTo : StakingMsg → Option String
  | .delegate validator _ => some validator
  | .undelegate _ _ => none
  | .redelegate _ dst _ => some dst

/-- **A validator that is left alone**: the registry does not list it, and nothing
is on its way to it. -/
structure Books.Spares (b : Books) (v : String) : Prop where
  unlisted : ∀ k : String, b.registry.validatorRegistry[k]? ≠ some v
  unsent : ∀ m ∈ b.queue, m.goesTo ≠ some v

/-! ### Where the messages go -/

/-- The validators answered are listed. -/
theorem Registry.listed_of_mem_queryValidators {deps : Registry.Deps} {st : Registry.Storage}
    {r : ValidatorResponse} (h : r ∈ Registry.queryValidators deps st) :
    ∃ k : String, st.validatorRegistry[k]? = some r.address := by
  have hmem := (Registry.queryValidators_addresses deps st).mem_iff.1 (List.mem_map_of_mem h)
  obtain ⟨e, he, heq⟩ := List.mem_map.1 hmem
  exact ⟨e.1, heq ▸ ExtTreeMap.mem_toList_iff_getElem?_eq_some.1 he⟩

/-- Closing the batch sends nothing to a validator. -/
theorem Hub.Completion.goesTo {q : Querier} {st st' : Hub.Storage} {env : Env}
    {batch batch' : Hub.CurrentBatch} {messages : List CosmosMsg}
    (h : Hub.Completion q st env batch st' batch' messages) :
    ∀ m ∈ queuedIn messages, m.goesTo = none := by
  intro m hm
  cases h with
  | stillOpen => cases hm
  | closed =>
    rw [queuedIn_undelegateMsgs] at hm
    obtain ⟨e, -, rfl⟩ := List.mem_map.1 hm
    rfl

/-- **What a call queues goes to validators that the registry has answered**, if it
is no `RedelegateProxy`. -/
theorem Hub.Effect.goesTo {q : Querier} {st hub : Hub.Storage} {env : Env} {info : MessageInfo}
    {msg : HubMsg} {res : Response} (h : Hub.Effect q st env info msg hub res)
    (direct : msg.Direct) {m : StakingMsg} (hm : m ∈ queuedIn res.messages)
    (goes : m.goesTo = some v) :
    ∃ registry validators, q.validatorsDelegation registry = .ok validators ∧
      ∃ r ∈ validators, r.address = v := by
  -- a response without staking messages
  have quiet : (∀ m ∈ res.messages, m.staking = none) → False := by
    intro hnone
    rw [queuedIn_eq_nil hnone] at hm
    cases hm
  cases h with
  | @stake t st' res h =>
    obtain @⟨payment, supply, mint, state, pending, validators, plan, registry, token, res, -, -, -,
      -, -, -, -, -, -, -, answer, -, messages_eq⟩ := h
    rw [messages_eq, queuedIn_append, queuedIn_delegateMsgs, queuedIn_mintMsgs,
      List.append_nil] at hm
    obtain ⟨e, he, rfl⟩ := List.mem_map.1 hm
    obtain rfl := Option.some.inj goes
    exact ⟨registry, validators, answer, e.1, (List.of_mem_zip (List.mem_of_mem_filter he)).1, rfl⟩
  | unstake msg_eq token_eq h messages_eq =>
    rw [messages_eq, queuedIn_append] at hm
    have hm' := h.goesTo m ((List.mem_append.1 hm).resolve_right (by intro hb; cases hb))
    rw [hm'] at goes
    cases goes
  | processUndelegations ne h =>
    rw [h.goesTo m hm] at goes
    cases goes
  | withdraw h =>
    obtain ⟨-, -, -, -, -, -, -, messages_eq, -⟩ := h
    refine (quiet fun m hm => ?_).elim
    rw [messages_eq, List.mem_singleton] at hm
    rw [hm]
    rfl
  | release free_eq unclaimed_le h left_le messages_eq =>
    exact (quiet (by simp [messages_eq])).elim
  | checkSlashing h messages_eq => exact (quiet (by simp [messages_eq])).elim
  | nothingRequested => exact (quiet (by simp)).elim
  | updateParams auth messages_eq => exact (quiet (by simp [messages_eq])).elim
  | updateConfig auth token messages_eq =>
    refine (quiet fun m hm => ?_).elim
    obtain ⟨a, rfl⟩ := messages_eq m hm
    rfl
  | redelegate auth messages_eq => exact absurd rfl (direct _ _)
  | updateGlobalIndex dispatcher_eq messages_eq =>
    refine (quiet fun m hm => ?_).elim
    rw [messages_eq] at hm
    rcases List.mem_append.1 hm with hm | hm
    · obtain ⟨e, -, rfl⟩ := List.mem_map.1 hm
      rfl
    · rw [List.mem_singleton.1 hm]
      rfl

/-- What is planned for an excluded validator goes to the active ones. -/
theorem goesTo_redelegateLoop {hubContract : Addr} {delegations : ExtTreeMap String Coin}
    {active : List ValidatorResponse} {excluded : List String} :
    ∀ {messages : List CosmosMsg},
      Registry.redelegateLoop hubContract delegations active excluded = .ok messages →
      ∀ m ∈ proxiedIn messages, ∃ r ∈ active, m.goesTo = some r.address := by
  induction excluded with
  | nil =>
    intro messages h m hm
    rw [Registry.redelegateLoop, pure_eq_ok] at h
    subst h
    cases hm
  | cons u rest ih =>
    intro messages h m hm
    simp only [Registry.redelegateLoop, bind_eq_ok, pure_eq_ok] at h
    obtain ⟨first, hfirst, others, hothers, rfl⟩ := h
    have happend : proxiedIn (first ++ others) = proxiedIn first ++ proxiedIn others :=
      List.flatMap_append
    rw [happend] at hm
    rcases List.mem_append.1 hm with hm | hm
    · unfold Registry.redelegationsOf at hfirst
      split at hfirst
      · rw [pure_eq_ok] at hfirst
        subst hfirst
        cases hm
      · split_ifs at hfirst
        · rw [pure_eq_ok] at hfirst
          subst hfirst
          cases hm
        · simp only [bind_eq_ok, pure_eq_ok] at hfirst
          obtain ⟨plan, -, rfl⟩ := hfirst
          simp only [proxiedIn, List.flatMap_cons, List.flatMap_nil, List.append_nil, List.map_map,
            List.mem_map] at hm
          obtain ⟨e, he, rfl⟩ := hm
          exact ⟨e.1, (List.of_mem_zip (List.mem_of_mem_filter he)).1, rfl⟩
    · exact ih hothers m hm

/-- **A redelegation goes to listed validators.** -/
theorem goesTo_proxiedIn {deps : Registry.Deps} {st : Registry.Storage}
    {messages : List CosmosMsg} (h : Registry.processRedelegations deps st = .ok messages)
    {m : StakingMsg} (hm : m ∈ proxiedIn messages) (goes : m.goesTo = some v) :
    ∃ k : String, st.validatorRegistry[k]? = some v := by
  unfold Registry.processRedelegations at h
  split_ifs at h
  · rw [pure_eq_ok] at h
    subst h
    cases hm
  · obtain ⟨r, hr, heq⟩ := goesTo_redelegateLoop h m hm
    obtain rfl : r.address = v := Option.some.inj (heq.symm.trans goes)
    exact Registry.listed_of_mem_queryValidators hr

/-! ### What a transaction leaves alone -/

/-- The message adds the validator. -/
def ContractMsg.adds (v : String) : ContractMsg → Bool
  | .registry (.addValidator validator) => decide (validator = v)
  | _ => false

theorem Call.spares {b b' : Books} {info : MessageInfo} {msg : HubMsg} (h : Call d b info msg b')
    (direct : msg.Direct) (hb : b.Spares v) :
    b'.Spares v ∧ committed v b.queue ≤ committed v b'.queue := by
  obtain @⟨q, hub, res, answers, effect, -, -⟩ := h
  refine ⟨⟨hb.unlisted, fun m hm goes => ?_⟩, ?_⟩
  · rcases List.mem_append.1 hm with hm | hm
    · exact hb.unsent m hm goes
    · obtain ⟨a, vs, answer, r, hr, rfl⟩ := effect.goesTo direct hm goes
      obtain ⟨-, rfl⟩ := answers.validators a vs answer
      obtain ⟨k, hk⟩ := Registry.listed_of_mem_queryValidators hr
      exact hb.unlisted k hk
  · show committed v b.queue ≤ committed v (b.queue ++ queuedIn res.messages)
    rw [committed_append]
    exact Nat.le_add_right ..

/-- A call of the registry that does not add the validator does not list it. -/
theorem unlisted_of_execute {deps : Registry.Deps} {st st' : Registry.Storage} {info : MessageInfo}
    {msg : RegistryMsg} {messages : List CosmosMsg}
    (h : Registry.execute deps st info msg = .ok (st', messages))
    (not_added : (ContractMsg.registry msg).adds v = false)
    (unlisted : ∀ k : String, st.validatorRegistry[k]? ≠ some v) :
    ∀ k : String, st'.validatorRegistry[k]? ≠ some v := by
  cases msg with
  | addValidator validator =>
    simp only [Registry.execute, Registry.addValidator, bind_eq_ok, pure_eq_ok,
      Prod.mk.injEq] at h
    obtain ⟨st₁, ⟨_, -, operator, -, h⟩, rfl, -⟩ := h
    have hne : validator ≠ v := of_decide_eq_false not_added
    cases hv : deps.validator operator with
    | none =>
      rw [hv, pure_eq_ok] at h
      subst h
      exact unlisted
    | some name =>
      rw [hv, pure_eq_ok] at h
      subst h
      intro k hk
      rw [getElem?_insert_eq] at hk
      split_ifs at hk
      · exact hne (Option.some.inj hk)
      · exact unlisted k hk
  | removeValidator address =>
    simp only [Registry.execute, Registry.removeValidator, bind_eq_ok, pure_eq_ok,
      Prod.mk.injEq] at h
    obtain ⟨st₁, ⟨_, -, operator, -, rfl⟩, rfl, -⟩ := h
    intro k hk
    rw [getElem?_erase_eq] at hk
    split_ifs at hk
    exact unlisted k hk
  | updateConfig owner hubContract =>
    simp only [Registry.execute, Registry.updateConfig, bind_eq_ok, pure_eq_ok,
      Prod.mk.injEq] at h
    obtain ⟨st₁, ⟨_, -, _, -, _, -, rfl⟩, rfl, -⟩ := h
    exact unlisted
  | processRedelegations =>
    simp only [Registry.execute, bind_eq_ok, pure_eq_ok, Prod.mk.injEq] at h
    obtain ⟨_, -, rfl, -⟩ := h
    exact unlisted

/-- **A transaction that does not add the validator leaves it alone.** -/
theorem Tx.spares {b b' : Books} {msg : ContractMsg} (h : Tx d b msg b')
    (direct : ∀ m, msg = .hub m → m.Direct) (not_added : msg.adds v = false)
    (hb : b.Spares v) : b'.Spares v ∧ committed v b.queue ≤ committed v b'.queue := by
  have both : ∀ {b b₁ b' : Books} {info : MessageInfo} {m : HubMsg}, Call d b info m b₁ →
      m.Direct → Check d b₁ b' → b.Spares v →
      b'.Spares v ∧ committed v b.queue ≤ committed v b'.queue := by
    intro b b₁ b' info m call hm check hb
    obtain ⟨h₁, hle₁⟩ := call.spares hm hb
    obtain ⟨h₂, hle₂⟩ := Call.spares check Inner.direct.checkSlashing h₁
    exact ⟨h₂, hle₁.trans hle₂⟩
  cases h with
  | hub user plain call => exact call.spares (direct _ rfl) hb
  | unstake user call check => exact both call (Inner.direct.unstake _) check hb
  | send sends call check => exact both call (Inner.direct.receive _) check hb
  | burn burns le check =>
    exact Call.spares (b := b.burn _) check Inner.direct.checkSlashing ⟨hb.unlisted, hb.unsent⟩
  | still => exact ⟨hb, le_rfl⟩
  | registry h => exact ⟨⟨unlisted_of_execute h not_added hb.unlisted, hb.unsent⟩, le_rfl⟩
  | redelegate h =>
    refine ⟨⟨hb.unlisted, fun m hm goes => ?_⟩, ?_⟩
    · rcases List.mem_append.1 hm with hm | hm
      · exact hb.unsent m hm goes
      · obtain ⟨k, hk⟩ := goesTo_proxiedIn h hm goes
        exact hb.unlisted k hk
    · rw [committed_append]
      exact Nat.le_add_right ..

/-! ### What the chain leaves alone -/

theorem held_takeDelegation {ds ds' : ExtTreeMap String ℕ} {u : String} {n : ℕ}
    (h : takeDelegation ds u n = some ds') :
    ds'[v]?.getD 0 + (if u = v then n else 0) = ds[v]?.getD 0 := by
  unfold takeDelegation at h
  dsimp only at h
  split_ifs at h with hlt heq
  · obtain rfl := Option.some.inj h
    rw [getElem?_erase_eq]
    split_ifs with hv
    · subst hv
      simp [heq]
    · simp
  · obtain rfl := Option.some.inj h
    rw [getElem?_insert_eq]
    split_ifs with hv
    · subst hv
      rw [Option.getD_some]
      omega
    · simp

theorem held_applyMsg {ds ds' : ExtTreeMap String ℕ} {m : StakingMsg} (unsent : m.goesTo ≠ some v)
    (h : applyMsg ds m = some ds') : ds'[v]?.getD 0 + m.takes v = ds[v]?.getD 0 := by
  cases m with
  | delegate u n =>
    obtain rfl := Option.some.inj h
    have hne : u ≠ v := fun heq => unsent (congrArg some heq)
    rw [addDelegation, getElem?_insert_eq, if_neg hne]
    rfl
  | undelegate u n => exact held_takeDelegation h
  | redelegate s t n =>
    obtain ⟨ds₁, h₁, rfl⟩ := Option.map_eq_some_iff.1 h
    have hne : t ≠ v := fun heq => unsent (congrArg some heq)
    rw [addDelegation, getElem?_insert_eq, if_neg hne]
    exact held_takeDelegation h₁

/-- **A queue that brings a validator nothing** leaves it what it does not take. -/
theorem held_applyQueue {queue : List StakingMsg} :
    ∀ {ds ds' : ExtTreeMap String ℕ}, (∀ m ∈ queue, m.goesTo ≠ some v) →
      applyQueue ds queue = some ds' →
      ds'[v]?.getD 0 + committed v queue = ds[v]?.getD 0 := by
  induction queue with
  | nil =>
    intro ds ds' _ h
    obtain rfl := Option.some.inj h
    rfl
  | cons m queue ih =>
    intro ds ds' unsent h
    obtain ⟨ds₁, h₁, h₂⟩ := Option.bind_eq_some_iff.1 h
    have hm := held_applyMsg (unsent m (List.mem_cons_self ..)) h₁
    have hq := ih (fun m' hm' => unsent m' (List.mem_cons_of_mem _ hm')) h₂
    have hsum := committed_append v [m] queue
    have hone : committed v [m] = m.takes v := by simp [committed]
    rw [List.singleton_append, hone] at hsum
    omega

theorem Slashed.held_le {ds ds' : ExtTreeMap String ℕ} (h : Slashed ds ds') :
    ds'[v]?.getD 0 ≤ ds[v]?.getD 0 := by
  cases hv : ds'[v]? with
  | none => exact Nat.zero_le _
  | some n' =>
    obtain ⟨n, hn, hle⟩ := h v n' hv
    rw [hn]
    exact hle

/-- The action adds the validator. -/
def Action.adds (v : String) : Action → Bool
  | .transact _ _ msg _ => msg.adds v
  | _ => false

theorem Call.block_eq {b b' : Books} {info : MessageInfo} {msg : HubMsg}
    (h : Call d b info msg b') : b'.block = b.block := by
  cases h
  rfl

theorem Tx.block_eq {b b' : Books} {msg : ContractMsg} (h : Tx d b msg b') :
    b'.block = b.block := by
  cases h with
  | hub user plain call => exact call.block_eq
  | unstake user call check => exact (Call.block_eq check).trans call.block_eq
  | send sends call check => exact (Call.block_eq check).trans call.block_eq
  | burn burns le check => exact Call.block_eq (b := b.burn _) check
  | _ => rfl

/-- **What happens to a validator that is left alone**: within the epoch its
delegation does not grow, and at the end of the epoch it loses what the queue
takes. -/
inductive Books.Leaves (d : Deployment T) (v : String) (b b' : Books) : Prop
  | within (spares : b'.Spares v) (same : d.epoch b'.block.height = d.epoch b.block.height)
      (held_le : b'.delegation v ≤ b.delegation v)
      (committed_le : committed v b.queue ≤ committed v b'.queue)
  | ended (spares : b'.Spares v) (later : d.epoch b'.block.height ≠ d.epoch b.block.height)
      (held_eq : b'.delegation v + committed v b.queue = b.delegation v)

/-- **One step leaves the validator alone.** -/
theorem DirectStep.leaves {w w' : World T} {act : Action} (h : DirectStep d w act w')
    (reached : w.Reached d) (not_added : act.adds v = false) (hb : (w.books d).Spares v) :
    (w.books d).Leaves d v (w'.books d) := by
  obtain ⟨⟨hstep, hfull⟩, hdirect⟩ := h
  obtain ⟨hmove, -, -⟩ := reached.exec hstep
  generalize w'.books d = b' at hmove
  cases hmove with
  | transact tx =>
    obtain ⟨hb', hle⟩ := tx.spares hdirect.msg not_added hb
    refine .within hb' (by rw [tx.block_eq]) ?_ hle
    rw [Books.delegation, tx.delegations_eq]
    exact le_rfl
  | credit => exact .within ⟨hb.unlisted, hb.unsent⟩ rfl le_rfl le_rfl
  | @within block delegations height_le time_le same =>
    have hs := hfull block delegations rfl
    rw [if_pos (show d.epoch block.height = d.epoch w.block.height from same)] at hs
    exact .within ⟨hb.unlisted, hb.unsent⟩ same hs.held_le le_rfl
  | @enter block delegations height_le time_le later enough =>
    have hs := hfull block delegations rfl
    rw [if_neg (show ¬d.epoch block.height = d.epoch w.block.height from later)] at hs
    exact .ended ⟨hb.unlisted, fun m hm => by cases hm⟩ later (held_applyQueue hb.unsent hs)

theorem Books.Leaves.held_le {b b' : Books} (h : b.Leaves d v b') :
    b'.delegation v ≤ b.delegation v := by
  cases h with
  | within spares same held_le => exact held_le
  | ended spares later held_eq => omega

theorem Books.Leaves.spares {b b' : Books} (h : b.Leaves d v b') : b'.Spares v := by
  cases h with
  | within spares => exact spares
  | ended spares => exact spares

/-- **A validator on its way out**: it has nothing left, or all that it has is
taken when the epoch of the height ends. -/
def Books.Emptying (d : Deployment T) (v : String) (height : ℕ) (b : Books) : Prop :=
  b.delegation v = 0 ∨
    d.epoch b.block.height = d.epoch height ∧ b.delegation v ≤ committed v b.queue

/-- It stays on its way out as long as it is left alone. -/
theorem Books.Leaves.emptying {b b' : Books} {height : ℕ} (h : b.Leaves d v b')
    (hb : b.Emptying d v height) : b'.Emptying d v height := by
  rcases hb with hzero | ⟨hsame, hle⟩
  · exact .inl (Nat.le_zero.1 (hzero ▸ h.held_le))
  · cases h with
    | within spares same held_le committed_le =>
      exact .inr ⟨same.trans hsame, held_le.trans (hle.trans committed_le)⟩
    | ended spares later held_eq => exact .inl (by omega)

/-- A step that does not add the validator. -/
def SparingStep (d : Deployment T) (v : String) (w : World T) (act : Action) (w' : World T) :
    Prop := DirectStep d w act w' ∧ act.adds v = false

/-- The owner replaces the validator that has the stake. -/
def sampleRemoval : List ScriptLine :=
  sampleStake ++ [toRegistry "owner" (.addValidator otherValidator),
    toRegistry "owner" (.removeValidator sampleValidator)]

/-- More is staked before and after the end of the epoch, and half of it unstaked. -/
def sampleAfterwards : List ScriptLine :=
  [stakes "bob" 50, .ends ⟨900, 8000⟩, toToken "bob" (.increaseAllowance "hub" 50),
    toHub "bob" (.unstake 25), stakes "alice" 10, .ends ⟨1300, 12000⟩]

/-- The line is carried out in full, and leaves the validator alone. -/
def ScriptLine.sparing (v : String) (w : World Token.Ledger) (line : ScriptLine) : Bool :=
  line.inFull w && line.direct && !(line.action w).adds v

theorem World.line_sparing {w w' : World Token.Ledger} {line : ScriptLine}
    {act : Action} (h : w.line (fun w line => line.sparing v w) line = some (act, w')) :
    SparingStep sampleDeployment v w act w' := by
  obtain ⟨hstep, rfl, hline⟩ := World.line_sound h
  simp only [ScriptLine.sparing, Bool.and_eq_true, Bool.not_eq_eq_eq_not, Bool.not_true] at hline
  exact ⟨⟨⟨hstep, ScriptLine.inFull_sound hline.1.1⟩, ScriptLine.direct_sound hline.1.2⟩, hline.2⟩

/-- **Validators that are not listed get nothing**: from a world on in which the
registry does not list the validator and nothing is on its way to it, over every
run in which it is not added, whatever is staked, unstaked, redelegated and
slashed, its delegation does not grow and nothing is sent to it. -/
theorem unlisted_validators_get_nothing {w₀ w w' : World T} {tr₀ tr : List (Action × World T)}
    (created : w₀.Created d) (before : Run (World.Step d) w₀ tr₀ w)
    (spared : (w.books d).Spares v) (run : Run (SparingStep d v) w tr w') :
    (w'.books d).Spares v ∧ w'.delegations[v]?.getD 0 ≤ w.delegations[v]?.getD 0 := by
  refine ((created.run_reached before).invariant (P := fun t => (t.books d).Spares v ∧
    (t.books d).delegation v ≤ (w.books d).delegation v) run (fun h => h.1.1.1)
    ⟨spared, le_rfl⟩ ?_).2
  rintro t act u reached ⟨ht, hle⟩ ⟨hstep, not_added⟩
  have hleaves := hstep.leaves reached not_added ht
  exact ⟨hleaves.spares, hleaves.held_le.trans hle⟩

/-- The 50 that are staked after the removal go to the other validator. -/
theorem unlisted_validators_get_nothing_sample :
    ∃ tr w, Run (SparingStep sampleDeployment sampleValidator) (sampleEnd sampleRemoval) tr w ∧
      w.delegations[otherValidator]? = some 35 ∧
      w.delegations[sampleValidator]?.getD 0 ≤
        (sampleEnd sampleRemoval).delegations[sampleValidator]?.getD 0 := by
  have before := sampleRun sampleRemoval (by decide +kernel)
  let w := playEnd (World.line fun w line => line.sparing sampleValidator w)
    (sampleEnd sampleRemoval) sampleAfterwards
  have facts : (play (World.line fun w line => line.sparing sampleValidator w)
        (sampleEnd sampleRemoval) sampleAfterwards).isSome = true ∧
      (∀ e ∈ (sampleEnd sampleRemoval).registry.validatorRegistry.toList,
        e.2 ≠ sampleValidator) ∧
      (∀ m ∈ (sampleEnd sampleRemoval).queue, m.goesTo ≠ some sampleValidator) ∧
      w.delegations[otherValidator]? = some 35 := by
    decide +kernel
  obtain ⟨hplays, hlisted, hunsent, hother⟩ := facts
  have run : Run (SparingStep sampleDeployment sampleValidator) (sampleEnd sampleRemoval) _ w :=
    playedFrom (sampleEnd sampleRemoval) sampleAfterwards World.line_sparing hplays
  have spared : ((sampleEnd sampleRemoval).books sampleDeployment).Spares sampleValidator :=
    ⟨fun k hk => hlisted _ (ExtTreeMap.mem_toList_iff_getElem?_eq_some.2 hk) rfl, hunsent⟩
  exact ⟨_, w, run, hother,
    (unlisted_validators_get_nothing sampleWorld_created before spared run).2⟩

/-- What is excluded is not listed. -/
theorem unlisted_of_excluded {b : Bech32} {st : Registry.Storage} (law : b.RoundTrips)
    (named : st.WellNamed b) (excluded : v ∈ st.validatorExcludeList) :
    ∀ k : String, st.validatorRegistry[k]? ≠ some v := by
  intro k hk
  obtain ⟨x, hx⟩ := Option.isSome_iff_exists.1 (ExtTreeMap.isSome_getElem?_iff_mem.2 excluded)
  have hself := (named.operator v x hx).convert law
  obtain rfl : v = k := Except.ok.inj (hself.symm.trans (named.keyed k v hk))
  rw [named.disjoint v (by rw [hx]; simp)] at hk
  cases hk

/-- **A redelegation takes all** that an excluded validator has. -/
theorem Tx.emptying {b b' : Books} (h : Tx d b (.registry .processRedelegations) b')
    (removed : v ∈ b.registry.validatorExcludeList)
    (asks : b.registry.config.hubContract = d.hub) : b'.Emptying d v b.block.height := by
  have hall : ∀ messages, Registry.processRedelegations
      (registryDeps d b.delegations) b.registry = .ok messages →
      committed v (proxiedIn messages) = b.delegation v := fun messages h =>
    (committed_proxiedIn v h).trans (if_pos ⟨removed, asks⟩)
  cases h with
  | redelegate h =>
    refine .inr ⟨rfl, ?_⟩
    rw [committed_append, hall _ h]
    exact Nat.le_add_left ..
  | registry h =>
    -- without a message there is nothing to take
    simp only [Registry.execute, bind_eq_ok, pure_eq_ok, Prod.mk.injEq] at h
    obtain ⟨messages, h, rfl, rfl⟩ := h
    exact .inl (hall _ h).symm

/-- The sample world once the redelegation is asked for. -/
def sampleRedelegated : World Token.Ledger :=
  (sampleEnd sampleRemoval).next (.transact "bob" "registry" (.registry .processRedelegations) [])

end BabyLst
