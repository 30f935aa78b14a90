/-
# The recorded stake tracks the chain

A chain that carries its queue out in full at the end of every epoch, and in
between only slashes, keeps the recorded stake and the pending unstake at least
the delegations and the pending stake (`Accounts.Tracked`): what is staked or
unstaked is recorded and queued at once, and moves over to the delegations when
the queue is applied.  They are equal without slashing, and after every check
that finds a delegation (`staked_amount_tracks_delegations`).
-/

import BabyLst.World.Moves

namespace BabyLst

open Lib Std

variable {T : Type} {d : Deployment T}

/-! ### The accounts -/

namespace Accounts

/-- **What is recorded covers what the chain has and will have.** -/
def Tracked (a : Accounts) : Prop := a.delegated + a.toStake ≤ a.staked + a.toUnstake

/-- What is recorded is what the chain has and will have. -/
def Balanced (a : Accounts) : Prop := a.delegated + a.toStake = a.staked + a.toUnstake

/-- One step of the accounts that may check for slashing: tracked accounts stay
so, balanced ones too, and a check that finds a delegation balances them. -/
structure Tracks (a : Accounts) (ran : Bool) (a' : Accounts) : Prop where
  tracked : a'.Tracked
  balanced : a.Balanced → a'.Balanced
  checked : ran = true → a.listed = true → a'.Balanced
  listed_eq : a'.listed = a.listed

theorem Check.tracks {a a' : Accounts} (h : a.Check a') (ha : a.Tracked) : a.Tracks true a' := by
  cases h with
  | unlisted h => exact ⟨ha, id, fun _ hl => by simp [h] at hl, rfl⟩
  | nothing h le zero =>
    have hbal : a.Balanced := by
      unfold Tracked at ha
      unfold Balanced
      omega
    exact ⟨ha, id, fun _ _ => hbal, rfl⟩
  | @full staked h le pos staked_eq =>
    have hbal : (a.restaked staked).Balanced := by
      unfold Tracked at ha
      unfold Balanced restaked
      dsimp only
      split_ifs at staked_eq with hlt
      · omega
      · omega
    exact ⟨hbal.le, fun _ => hbal, fun _ _ => hbal, rfl⟩

theorem Call.tracks {a a' : Accounts} {ran : Bool} (h : a.Call ran a') (ha : a.Tracked) :
    a.Tracks ran a' := by
  cases h with
  | @stake t payment mint a₁ check pos minted =>
    have h₁ := check.tracks ha
    have keep : a₁.Balanced → (a₁.stake payment mint).Balanced := by
      intro hb
      unfold Balanced at hb ⊢
      simp only [Accounts.stake]
      omega
    refine ⟨?_, fun hb => keep (h₁.balanced hb), fun _ hl => keep (h₁.checked rfl hl), h₁.listed_eq⟩
    have ht := h₁.tracked
    unfold Tracked at ht ⊢
    simp only [Accounts.stake]
    omega
  | request funds check le =>
    have h₁ := check.tracks ha
    exact ⟨h₁.tracked, h₁.balanced, h₁.checked, h₁.listed_eq⟩
  | @close amount a₁ funds check le enough listed =>
    have h₁ := check.tracks ha
    have keep : a₁.Balanced → ((a₁.close amount).credit funds).Balanced := by
      intro hb
      unfold Balanced at hb ⊢
      simp only [Accounts.close, Accounts.credit]
      omega
    have hbal := keep (h₁.checked rfl listed)
    exact ⟨hbal.le, fun _ => hbal, fun _ _ => hbal, h₁.listed_eq⟩
  | check funds check =>
    have h₁ := check.tracks ha
    exact ⟨h₁.tracked, h₁.balanced, h₁.checked, h₁.listed_eq⟩
  | pay => exact ⟨ha, id, (fun h => by cases h), rfl⟩
  | quiet => exact ⟨ha, id, (fun h => by cases h), rfl⟩

theorem Tx.tracks {a a' : Accounts} {ran : Bool} (h : a.Tx ran a') (ha : a.Tracked) :
    a.Tracks ran a' := by
  cases h with
  | call call => exact call.tracks ha
  | unstake call check =>
    have h₁ := call.tracks ha
    have h₂ := check.tracks h₁.tracked
    exact ⟨h₂.tracked, fun hb => h₂.balanced (h₁.balanced hb),
      fun _ hl => h₂.balanced (h₁.checked rfl hl), h₂.listed_eq.trans h₁.listed_eq⟩
  | burn le check =>
    have h₁ := check.tracks (a := a.burn _) ha
    exact ⟨h₁.tracked, h₁.balanced, h₁.checked, h₁.listed_eq⟩
  | still => exact ⟨ha, id, (fun h => by cases h), rfl⟩

end Accounts

/-! ### The delegations -/

/-- Delegations are slashed: some are lower, or gone. -/
def Slashed (delegations delegations' : ExtTreeMap String ℕ) : Prop :=
  ∀ (v : String) (n' : ℕ), delegations'[v]? = some n' →
    ∃ n, delegations[v]? = some n ∧ n' ≤ n

theorem delegated_empty : delegated ∅ = 0 := total_empty _

theorem delegated_erase (ds : ExtTreeMap String ℕ) (v : String) :
    delegated (ds.erase v) + ds[v]?.getD 0 = delegated ds := by
  unfold delegated
  cases hv : ds[v]? with
  | none => rw [erase_eq_of_none hv, Option.getD_none, Nat.add_zero]
  | some n => exact total_erase_add _ hv

theorem delegated_insert (ds : ExtTreeMap String ℕ) (v : String) (n : ℕ) :
    delegated (ds.insert v n) + ds[v]?.getD 0 = delegated ds + n := by
  have herase := delegated_erase ds v
  have hinsert : delegated (ds.insert v n) = delegated (ds.erase v) + n := total_insert ..
  omega

/-- Slashing lowers what is delegated. -/
theorem Slashed.delegated_le {ds ds' : ExtTreeMap String ℕ} (h : Slashed ds ds') :
    delegated ds' ≤ delegated ds := by
  have key : ∀ (l : List (String × ℕ)) (ds : ExtTreeMap String ℕ), (l.map Prod.fst).Nodup →
      (∀ e ∈ l, ∃ n, ds[e.1]? = some n ∧ e.2 ≤ n) → (l.map Prod.snd).sum ≤ delegated ds := by
    intro l
    induction l with
    | nil => exact fun ds _ _ => Nat.zero_le _
    | cons e l ih =>
      intro ds hnodup hle
      rw [List.map_cons, List.nodup_cons] at hnodup
      obtain ⟨n, hn, hen⟩ := hle e (List.mem_cons_self ..)
      have hrest := ih (ds.erase e.1) hnodup.2 fun e' he' => by
        have hne : e.1 ≠ e'.1 := fun heq => hnodup.1 (heq ▸ List.mem_map_of_mem he')
        rw [getElem?_erase_eq, if_neg hne]
        exact hle e' (List.mem_cons_of_mem _ he')
      have herase := delegated_erase ds e.1
      rw [hn, Option.getD_some] at herase
      rw [List.map_cons, List.sum_cons]
      omega
  refine key ds'.toList ds ?_ fun e he => ?_
  · rw [List.Nodup, List.pairwise_map]
    refine ds'.distinct_keys_toList.imp fun {a b} hne heq => hne ?_
    rw [heq]
    exact cmp_self _
  · exact h e.1 e.2 (ExtTreeMap.mem_toList_iff_getElem?_eq_some.1 he)

/-- A delegation that is taken is there. -/
theorem delegated_takeDelegation {ds ds' : ExtTreeMap String ℕ} {v : String} {n : ℕ}
    (h : takeDelegation ds v n = some ds') : delegated ds' + n = delegated ds := by
  unfold takeDelegation at h
  dsimp only at h
  split_ifs at h with hlt heq
  · obtain rfl := Option.some.inj h
    rw [← heq]
    exact delegated_erase ..
  · obtain rfl := Option.some.inj h
    have := delegated_insert ds v (ds[v]?.getD 0 - n)
    omega

theorem delegated_addDelegation (ds : ExtTreeMap String ℕ) (v : String) (n : ℕ) :
    delegated (addDelegation ds v n) = delegated ds + n := by
  have := delegated_insert ds v (ds[v]?.getD 0 + n)
  unfold addDelegation
  omega

theorem delegated_applyMsg {ds ds' : ExtTreeMap String ℕ} {m : StakingMsg}
    (h : applyMsg ds m = some ds') :
    delegated ds' + queuedUnstake [m] = delegated ds + queuedStake [m] := by
  cases m with
  | delegate v n =>
    obtain rfl := Option.some.inj h
    simp [queuedStake, queuedUnstake, delegated_addDelegation]
  | undelegate v n =>
    have := delegated_takeDelegation h
    simpa [queuedStake, queuedUnstake] using this
  | redelegate s t n =>
    obtain ⟨ds₁, h₁, rfl⟩ := Option.map_eq_some_iff.1 h
    have := delegated_takeDelegation h₁
    simp [queuedStake, queuedUnstake, delegated_addDelegation, this]

/-- **A queue carried out in full** moves what is queued to the delegations. -/
theorem delegated_applyQueue {queue : List StakingMsg} :
    ∀ {ds ds' : ExtTreeMap String ℕ}, applyQueue ds queue = some ds' →
      delegated ds' + queuedUnstake queue = delegated ds + queuedStake queue := by
  induction queue with
  | nil =>
    intro ds ds' h
    obtain rfl := Option.some.inj h
    rfl
  | cons m queue ih =>
    intro ds ds' h
    obtain ⟨ds₁, h₁, h₂⟩ := Option.bind_eq_some_iff.1 h
    have hm := delegated_applyMsg h₁
    have hq := ih h₂
    have hu := queuedUnstake_append [m] queue
    have hs := queuedStake_append [m] queue
    rw [List.singleton_append] at hu hs
    omega

/-! ### The chain -/

/-- **A chain that carries its queue out in full** when it enters a new epoch,
and in between leaves the delegations as they are or slashes them. -/
def InFull (d : Deployment T) (w : World T) (act : Action) : Prop :=
  ∀ block delegations, act = .advance block delegations →
    if d.epoch block.height = d.epoch w.block.height then Slashed w.delegations delegations
    else applyQueue w.delegations w.queue = some delegations

/-- The same without slashing. -/
def Unslashed (d : Deployment T) (w : World T) (act : Action) : Prop :=
  ∀ block delegations, act = .advance block delegations →
    if d.epoch block.height = d.epoch w.block.height then delegations = w.delegations
    else applyQueue w.delegations w.queue = some delegations

theorem Slashed.refl (ds : ExtTreeMap String ℕ) : Slashed ds ds := fun _ n h => ⟨n, h, le_rfl⟩

/-- The books after the queue is carried out. -/
theorem Books.Regular.applied {b : Books} {delegations : ExtTreeMap String ℕ}
    (regular : b.Regular d) (h : applyQueue b.delegations b.queue = some delegations) :
    delegated delegations + b.accounts.toUnstake = b.accounts.delegated + b.accounts.toStake := by
  have hsum := delegated_applyQueue h
  have hstake : b.accounts.toStake = queuedStake b.queue := congrArg Prod.fst regular.pending_eq
  have hunstake : b.accounts.toUnstake = queuedUnstake b.queue :=
    congrArg Prod.snd regular.pending_eq
  rw [hstake, hunstake]
  exact hsum

/-- One step of a chain that carries its queue out in full. -/
def TrackedStep (d : Deployment T) (w : World T) (act : Action) (w' : World T) : Prop :=
  w.Step d act w' ∧ InFull d w act

/-- One step of such a chain without slashing. -/
def UnslashedStep (d : Deployment T) (w : World T) (act : Action) (w' : World T) : Prop :=
  w.Step d act w' ∧ Unslashed d w act

theorem TrackedStep.tracked {w w' : World T} {act : Action} (h : TrackedStep d w act w')
    (reached : w.Reached d) (ha : (w.accounts d).Tracked) : (w'.accounts d).Tracked := by
  obtain ⟨hstep, hfull⟩ := h
  obtain ⟨hmove, -, -⟩ := reached.exec hstep
  generalize hb' : w'.books d = b' at hmove
  have hgoal : w'.accounts d = b'.accounts := by rw [World.accounts, hb']
  rw [hgoal]
  cases hmove with
  | transact tx => exact ((tx.accounts reached.regular).1.tracks ha).tracked
  | credit => exact ha
  | @within block delegations height_le time_le same =>
    have hs := hfull block delegations rfl
    rw [if_pos (show d.epoch block.height = d.epoch w.block.height from same)] at hs
    have hle : delegated delegations ≤ (w.accounts d).delegated := hs.delegated_le
    rw [(reached.regular.within height_le same).2]
    unfold Accounts.Tracked at ha ⊢
    exact Nat.le_trans (Nat.add_le_add_right hle _) ha
  | @enter block delegations height_le time_le later enough =>
    have hs := hfull block delegations rfl
    rw [if_neg (show ¬d.epoch block.height = d.epoch w.block.height from later)] at hs
    have happ := reached.regular.applied hs
    rw [(reached.regular.entered height_le later).2]
    unfold Accounts.Tracked at ha ⊢
    have ha' : (w.books d).accounts.delegated + (w.books d).accounts.toStake ≤
      (w.books d).accounts.staked + (w.books d).accounts.toUnstake := ha
    simp only [Accounts.reported, Accounts.epochEnd]
    omega

theorem UnslashedStep.balanced {w w' : World T} {act : Action} (h : UnslashedStep d w act w')
    (reached : w.Reached d) (ha : (w.accounts d).Balanced) : (w'.accounts d).Balanced := by
  obtain ⟨hstep, hfull⟩ := h
  obtain ⟨hmove, -, -⟩ := reached.exec hstep
  generalize hb' : w'.books d = b' at hmove
  have hgoal : w'.accounts d = b'.accounts := by rw [World.accounts, hb']
  rw [hgoal]
  cases hmove with
  | transact tx => exact ((tx.accounts reached.regular).1.tracks ha.le).balanced ha
  | credit => exact ha
  | @within block delegations height_le time_le same =>
    have hs := hfull block delegations rfl
    rw [if_pos (show d.epoch block.height = d.epoch w.block.height from same)] at hs
    rw [(reached.regular.within height_le same).2, hs]
    exact ha
  | @enter block delegations height_le time_le later enough =>
    have hs := hfull block delegations rfl
    rw [if_neg (show ¬d.epoch block.height = d.epoch w.block.height from later)] at hs
    have happ := reached.regular.applied hs
    rw [(reached.regular.entered height_le later).2]
    unfold Accounts.Balanced at ha ⊢
    have ha' : (w.books d).accounts.delegated + (w.books d).accounts.toStake =
      (w.books d).accounts.staked + (w.books d).accounts.toUnstake := ha
    simp only [Accounts.reported, Accounts.epochEnd]
    omega

/-- Every world of a tracked run is tracked. -/
theorem World.Created.tracked {w w' : World T} {tr : List (Action × World T)}
    (created : w.Created d) (run : Run (TrackedStep d) w tr w') :
    w'.Reached d ∧ (w'.accounts d).Tracked := by
  obtain ⟨reached, fresh⟩ := created.reached
  refine reached.invariant run (fun h => h.1) ?_ fun ht htracked hstep => hstep.tracked ht htracked
  rw [fresh]
  exact Nat.zero_le _

/-- **The recorded stake tracks the chain.**  `total_staked_amount` and the
pending unstake are at least the delegations and the pending stake; they are
equal without slashing, and after every transaction that checks for slashing
where the chain reports a delegation. -/
theorem staked_amount_tracks_delegations {w : World T} (created : w.Created d) :
    (∀ tr w', Run (TrackedStep d) w tr w' →
      ∀ ps pu, Hub.getPendingDelegationAmount w'.hub (w'.env d.hub) = .ok (ps, pu) →
        delegated w'.delegations + ps ≤ w'.hub.state.totalStakedAmount + pu) ∧
    (∀ tr w', Run (UnslashedStep d) w tr w' →
      ∀ ps pu, Hub.getPendingDelegationAmount w'.hub (w'.env d.hub) = .ok (ps, pu) →
        delegated w'.delegations + ps = w'.hub.state.totalStakedAmount + pu) ∧
    ∀ tr w₁ sender contract msg funds w', Run (TrackedStep d) w tr w₁ →
      w₁.Step d (.transact sender contract msg funds) w' →
      msg.reconciles w₁.hub.currentBatch.requestedLstTokenAmount = true →
      delegationList d w₁.delegations ≠ [] →
      ∀ ps pu, Hub.getPendingDelegationAmount w'.hub (w'.env d.hub) = .ok (ps, pu) →
        delegated w'.delegations + ps = w'.hub.state.totalStakedAmount + pu := by
  have pending : ∀ {w : World T} {ps pu : ℕ},
      Hub.getPendingDelegationAmount w.hub (w.env d.hub) = .ok (ps, pu) →
      (w.accounts d).toStake = ps ∧ (w.accounts d).toUnstake = pu := by
    intro w ps pu h
    rw [Hub.getPendingDelegationAmount_eq_ok] at h
    exact ⟨congrArg Prod.fst h.2, congrArg Prod.snd h.2⟩
  refine ⟨fun tr w' run ps pu h => ?_, fun tr w' run ps pu h => ?_,
    fun tr w₁ sender contract msg funds w' run step ran listed ps pu h => ?_⟩
  · obtain ⟨rfl, rfl⟩ := pending h
    exact (created.tracked run).2
  · obtain ⟨rfl, rfl⟩ := pending h
    obtain ⟨reached, fresh⟩ := created.reached
    have start : (w.accounts d).Balanced := by
      rw [fresh]
      rfl
    exact (reached.invariant run (fun h => h.1) start fun ht hbalanced hstep =>
      hstep.balanced ht hbalanced).2
  · obtain ⟨rfl, rfl⟩ := pending h
    obtain ⟨reached, tracked⟩ := created.tracked run
    obtain ⟨hmove, -, -⟩ := reached.exec step
    generalize hb' : w'.books d = b' at hmove
    have hgoal : (w'.accounts d).Balanced := by
      rw [World.accounts, hb']
      cases hmove with
      | transact tx =>
        refine ((tx.accounts reached.regular).1.tracks tracked).checked ran ?_
        rw [Ne, delegationList_eq_nil] at listed
        simpa [World.books, Books.accounts] using listed
    exact hgoal

/-- The line carries out the queue when a new epoch is entered, and at most
slashes before. -/
def ScriptLine.inFull (w : World Token.Ledger) : ScriptLine → Bool
  | .send _ _ _ _ => true
  | .credit _ => true
  | .passes block => sampleDeployment.epoch block.height = sampleDeployment.epoch w.block.height
  | .ends block => sampleDeployment.epoch block.height ≠ sampleDeployment.epoch w.block.height ∧
    (applyQueue w.delegations w.queue).isSome
  | .slashes block validator left =>
    sampleDeployment.epoch block.height = sampleDeployment.epoch w.block.height ∧
      left ≤ w.delegations[validator]?.getD 0 ∧ w.delegations[validator]?.isSome

/-- The line is one without slashing. -/
def ScriptLine.unslashed (w : World Token.Ledger) (line : ScriptLine) : Bool :=
  line.inFull w && match line with
    | .slashes _ _ _ => false
    | _ => true

theorem ScriptLine.inFull_sound {w : World Token.Ledger} {line : ScriptLine}
    (h : line.inFull w = true) : InFull sampleDeployment w (line.action w) := by
  intro block delegations hact
  cases line with
  | send => cases hact
  | credit => cases hact
  | passes block' =>
    obtain ⟨rfl, rfl⟩ := Action.advance.inj hact
    rw [if_pos (of_decide_eq_true h)]
    exact .refl _
  | ends block' =>
    obtain ⟨rfl, rfl⟩ := Action.advance.inj hact
    obtain ⟨hlater, hsome⟩ := of_decide_eq_true h
    rw [if_neg hlater]
    obtain ⟨ds, hds⟩ := Option.isSome_iff_exists.1 hsome
    rw [hds, Option.getD_some]
  | slashes block' validator left =>
    obtain ⟨rfl, rfl⟩ := Action.advance.inj hact
    obtain ⟨hsame, hle, hsome⟩ := of_decide_eq_true h
    rw [if_pos hsame]
    obtain ⟨n, hn⟩ := Option.isSome_iff_exists.1 hsome
    rw [hn, Option.getD_some] at hle
    exact forall_getElem?_insert ⟨n, hn, hle⟩ fun v n' hv => ⟨n', hv, le_rfl⟩

theorem ScriptLine.unslashed_sound {w : World Token.Ledger} {line : ScriptLine}
    (h : line.unslashed w = true) : Unslashed sampleDeployment w (line.action w) := by
  unfold ScriptLine.unslashed at h
  rw [Bool.and_eq_true] at h
  intro block delegations hact
  have hfull := ScriptLine.inFull_sound h.1 block delegations hact
  split_ifs at hfull ⊢ with hsame
  · cases line with
    | passes block' => exact (Action.advance.inj hact).2.symm
    | ends block' =>
      obtain ⟨rfl, rfl⟩ := Action.advance.inj hact
      exact absurd hsame (of_decide_eq_true h.1).1
    | slashes => cases h.2
    | _ => cases hact
  · exact hfull

theorem World.line_inFull {w w' : World Token.Ledger} {line : ScriptLine} {act : Action}
    (h : w.line (fun w line => line.inFull w) line = some (act, w')) :
    TrackedStep sampleDeployment w act w' := by
  obtain ⟨hstep, rfl, hfull⟩ := World.line_sound h
  exact ⟨hstep, ScriptLine.inFull_sound hfull⟩

theorem World.line_unslashed {w w' : World Token.Ledger} {line : ScriptLine} {act : Action}
    (h : w.line (fun w line => line.unslashed w) line = some (act, w')) :
    UnslashedStep sampleDeployment w act w' := by
  obtain ⟨hstep, rfl, hfull⟩ := World.line_sound h
  exact ⟨hstep, ScriptLine.unslashed_sound hfull⟩

/-- A user stakes 100, 60 are unstaked, and a check follows a slashing by 10.
Before the slashing what is recorded is what is delegated, after it more, and
after the check the same again. -/
theorem staked_amount_tracks_delegations_sample :
    ∃ tr w tr₁ w₁ w₂, Run (UnslashedStep sampleDeployment) sampleWorld tr w ∧
      Run (TrackedStep sampleDeployment) sampleWorld tr₁ w₁ ∧
      w₁.Step sampleDeployment (.transact "bob" "hub" (.hub .checkSlashing) []) w₂ ∧
      delegated w.delegations + 0 = w.hub.state.totalStakedAmount + 60 ∧
      delegated w₁.delegations + 0 ≤ w₁.hub.state.totalStakedAmount + 60 ∧
      delegated w₂.delegations + 0 = w₂.hub.state.totalStakedAmount + 60 ∧
      w₂.hub.state.totalStakedAmount = 30 := by
  have run := playedFrom sampleWorld (sampleStake ++ sampleUnstake 60) World.line_unslashed
    (by decide +kernel)
  have run₁ := playedFrom sampleWorld (sampleStake ++ sampleUnstake 60 ++
    [.slashes ⟨910, 8100⟩ sampleValidator 90]) World.line_inFull (by decide +kernel)
  have step := World.step_next (playEnd (World.line fun w line => line.inFull w) sampleWorld
    (sampleStake ++ sampleUnstake 60 ++ [.slashes ⟨910, 8100⟩ sampleValidator 90]))
    (.transact "bob" "hub" (.hub .checkSlashing) []) (by decide +kernel)
  obtain ⟨tracks, balances, checks⟩ := staked_amount_tracks_delegations sampleWorld_created
  exact ⟨_, _, _, _, _, run, run₁, step, balances _ _ run 0 60 (by decide +kernel),
    tracks _ _ run₁ 0 60 (by decide +kernel),
    checks _ _ _ _ _ _ _ run₁ step rfl (by decide +kernel) 0 60 (by decide +kernel),
    by decide +kernel⟩

end BabyLst
