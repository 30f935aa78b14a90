/-
# Released claims are solvent

In every world reached without `WithdrawUnstakedForBatches`, the unclaimed
balance is enough for all that is due, and the hub's bank balance for the
unclaimed balance and the pending stake (`released_claims_are_solvent`).

Three invariants carry it: the ledger of the batches and the cover of the claims
(`Hub.Effect.ledger`, `Hub.Effect.covered`), and on the accounts the bank
balance (`Accounts.Solvent`), which the chain lowers by just the stake that
stops being pending.
-/

import BabyLst.Hub.Claims
import BabyLst.World.Moves

namespace BabyLst

open Lib Std

variable {T : Type} {d : Deployment T}

/-! ### The bank balance -/

/-- **The bank balance is enough for the unclaimed one and the pending stake.** -/
def Accounts.Solvent (a : Accounts) : Prop := a.unclaimed + a.toStake ≤ a.bank

theorem Accounts.Check.solvent {a a' : Accounts} (h : a.Check a') (ha : a.Solvent) :
    a'.Solvent := by
  obtain ⟨-, -, hun, hbank, hstake, -⟩ := h.frame
  unfold Solvent at ha ⊢
  omega

theorem Accounts.Call.solvent {a a' : Accounts} {ran : Bool} (h : a.Call ran a')
    (ha : a.Solvent) : a'.Solvent := by
  cases h with
  | @stake t payment mint a₁ check pos minted =>
    have h₁ := check.solvent ha
    unfold Solvent at h₁ ⊢
    simp only [Accounts.stake]
    omega
  | @request amount a₁ funds check le =>
    have h₁ := check.solvent ha
    unfold Solvent at h₁ ⊢
    simp only [Accounts.request, Accounts.credit]
    omega
  | @close amount a₁ funds check le enough listed =>
    have h₁ := check.solvent ha
    unfold Solvent at h₁ ⊢
    simp only [Accounts.close, Accounts.credit]
    omega
  | @check a₁ funds check =>
    have h₁ := check.solvent ha
    unfold Solvent at h₁ ⊢
    simp only [Accounts.credit]
    omega
  | pay funds enough =>
    unfold Solvent at ha ⊢
    dsimp only
    omega
  | quiet funds =>
    unfold Solvent at ha ⊢
    simp only [Accounts.credit]
    omega

/-- **Every move keeps the accounts solvent.** -/
theorem Accounts.Move.solvent {a a' : Accounts} (h : a.Move a') (ha : a.Solvent) :
    a'.Solvent := by
  cases h with
  | tx tx =>
    cases tx with
    | call call => exact call.solvent ha
    | unstake call check => exact check.solvent (call.solvent ha)
    | burn le check =>
      refine check.solvent ?_
      exact ha
    | still => exact ha
  | credit amount =>
    unfold Solvent at ha ⊢
    simp only [Accounts.credit]
    omega
  | within => exact ha
  | enter delegated listed enough =>
    unfold Solvent at ha ⊢
    simp only [Accounts.epochEnd, Accounts.reported]
    omega

/-! ### The claims -/

/-- The ledger of the batches, with nothing in it from the future, and the
claims covered. -/
structure Books.Accounted (b : Books) : Prop where
  ledger : Hub.BatchLedger b.hub
  closedBy : b.hub.ClosedBy b.block.time
  covered : b.hub.Covered

theorem Call.accounted {b b' : Books} {info : MessageInfo} {msg : HubMsg}
    (h : Call d b info msg b') (hb : b.Accounted)
    (hmsg : ∀ ids, msg ≠ .withdrawUnstakedForBatches ids) : b'.Accounted := by
  obtain @⟨q, hub, res, answers, effect, -, -⟩ := h
  obtain ⟨hledger, hclosed, -⟩ := effect.ledger hb.ledger hb.closedBy
  exact ⟨hledger, hclosed, effect.covered hb.ledger hb.covered
    fun ids hids => absurd hids (hmsg ids)⟩

/-- Time passes. -/
theorem Books.Accounted.later {b b' : Books} (hb : b.Accounted) (hhub : b'.hub = b.hub)
    (htime : b.block.time ≤ b'.block.time) : b'.Accounted := by
  refine ⟨hhub ▸ hb.ledger, ?_, hhub ▸ hb.covered⟩
  rw [hhub]
  exact fun k h hk => (hb.closedBy k h hk).trans htime

/-- The action is no `WithdrawUnstakedForBatches`. -/
def Action.AllAtOnce (act : Action) : Prop :=
  ∀ sender contract ids funds,
    act ≠ .transact sender contract (.hub (.withdrawUnstakedForBatches ids)) funds

/-- The action is a `WithdrawUnstakedForBatches`. -/
def Action.listed : Action → Bool
  | .transact _ _ (.hub (.withdrawUnstakedForBatches _)) _ => true
  | _ => false

theorem Action.allAtOnce_iff (act : Action) : act.AllAtOnce ↔ act.listed = false := by
  constructor
  · intro h
    unfold Action.listed
    split
    · exact absurd rfl (h _ _ _ _)
    · rfl
  · rintro h sender contract ids funds rfl
    cases h

instance : DecidablePred Action.AllAtOnce := fun act => decidable_of_iff' _ act.allAtOnce_iff

theorem Inner.allAtOnce : Inner fun msg => ∀ ids, msg ≠ .withdrawUnstakedForBatches ids where
  receive _ _ h := by cases h
  unstake _ _ h := by cases h
  checkSlashing _ h := by cases h

theorem Move.accounted {b b' : Books} {act : Action} (h : Move d b act b') (hb : b.Accounted)
    (hact : act.AllAtOnce) : b'.Accounted := by
  refine h.keep Inner.allAtOnce (fun sender contract m funds hm ids hids => ?_)
    (fun h hmsg hb => h.accounted hb hmsg) (fun hhub _ htime hb => hb.later hhub htime) hb
  subst hids
  exact hact _ _ _ _ hm

theorem World.Created.accounted {w : World T} (h : w.Created d) : (w.books d).Accounted := by
  obtain ⟨q, info, st, res, res', dispatcher, hinst, hconf⟩ := h.hub_created
  have hi := Hub.instantiate_ok hinst
  obtain ⟨-, hst, -⟩ := Hub.executeUpdateConfig_ok hconf
  have hledger : Hub.BatchLedger w.hub := by
    rw [hst]
    exact hi.ledger.congr rfl rfl rfl rfl
  refine ⟨hledger, ?_, ?_⟩
  · intro k e hk
    have hk' : w.hub.unstakeHistory[k]? = some e := hk
    rw [hst] at hk'
    simp [hi.history_eq] at hk'
  · show w.hub.Covered
    unfold Hub.Storage.Covered Hub.Storage.claims
    rw [hst]
    show total _ st.unstakeWaitList ≤ _
    rw [hi.waitList_eq, total_empty]
    exact Nat.zero_le _

/-- **What keeps a world solvent.** -/
structure World.Sound (d : Deployment T) (w : World T) : Prop where
  reached : w.Reached d
  accounted : (w.books d).Accounted
  solvent : (w.accounts d).Solvent

theorem World.Sound.step {w w' : World T} {act : Action} (h : w.Sound d) (step : w.Step d act w')
    (allAtOnce : act.AllAtOnce) : w'.Sound d := by
  obtain ⟨hbooks, haccounts, hreached⟩ := h.reached.exec step
  exact ⟨hreached, hbooks.accounted h.accounted allAtOnce, haccounts.solvent h.solvent⟩

/-- Every world reached without `WithdrawUnstakedForBatches` is sound. -/
theorem World.Created.sound {w w' : World T} {tr : List (Action × World T)} (created : w.Created d)
    (run : Run (World.Step d) w tr w') (allAtOnce : ∀ e ∈ tr, e.1.AllAtOnce) : w'.Sound d := by
  have run' : Run (fun w act w' => World.Step d w act w' ∧ act.AllAtOnce) w tr w' :=
    run.mono fun e he _ _ hstep => ⟨hstep, allAtOnce e he⟩
  have hfresh : (w.accounts d).Solvent := by
    unfold Accounts.Solvent
    rw [created.reached.2]
    exact Nat.zero_le _
  exact run'.invariant ⟨created.reached.1, created.accounted, hfresh⟩
    fun _ _ _ hw hstep => hw.step hstep.1 hstep.2

/-! ### Failures of a transaction -/

/-- A message to the chain is refused from outside. -/
theorem avoids_deliver_chain {w : World T} {sender : Addr} {m : CosmosMsg}
    (hm : m.toChain = true) : Avoids Fault.IsOverflow (deliver d w sender m) := by
  have henqueue : ∀ delegator denom msg,
      Avoids Fault.IsOverflow (enqueue d w sender delegator denom msg) := fun _ _ _ =>
    (avoids_require (by simp)).bind fun _ _ => avoids_ok _
  cases m with
  | wasmExecute => simp [CosmosMsg.toChain] at hm
  | wrappedDelegate => exact (henqueue _ _ _).bind fun _ _ => avoids_ok _
  | wrappedUndelegate => exact (henqueue _ _ _).bind fun _ _ => avoids_ok _
  | wrappedBeginRedelegate => exact (henqueue _ _ _).bind fun _ _ => avoids_ok _
  | bankSend =>
    exact (avoids_require (by simp)).bind fun _ _ => avoids_ok _
  | withdrawDelegatorReward => exact avoids_ok _
  | setWithdrawAddress => exact avoids_ok _

theorem avoids_deliverAll_cons {n : ℕ} {w : World T} {sender : Addr} {m : CosmosMsg}
    {ms : List CosmosMsg} (hm : Avoids Fault.IsOverflow (deliver d w sender m))
    (hinner : ∀ w₁ callee inner, deliver d w sender m = .ok (w₁, callee, inner) →
      Avoids Fault.IsOverflow (deliverAll d n w₁ callee inner))
    (hrest : ∀ w₂, Avoids Fault.IsOverflow (deliverAll d (n + 1) w₂ sender ms)) :
    Avoids Fault.IsOverflow (deliverAll d (n + 1) w sender (m :: ms)) := by
  simp only [deliverAll, List.foldlM_cons]
  refine Avoids.bind ?_ fun w₂ _ => ?_
  · exact hm.bind fun r hr => hinner r.1 r.2.1 r.2.2 hr
  · exact hrest w₂

theorem avoids_deliverAll_nil (n : ℕ) (w : World T) (sender : Addr) :
    Avoids Fault.IsOverflow (deliverAll d n w sender []) := by
  rw [deliverAll_nil]
  exact avoids_ok _

theorem avoids_deliverAll_chain {n : ℕ} {sender : Addr} {ms : List CosmosMsg}
    (hms : ∀ m ∈ ms, m.toChain = true) :
    ∀ w : World T, Avoids Fault.IsOverflow (deliverAll d (n + 1) w sender ms) := by
  induction ms with
  | nil => exact fun w => avoids_deliverAll_nil _ w sender
  | cons m ms ih =>
    intro w
    have hm := hms m (List.mem_cons_self ..)
    refine avoids_deliverAll_cons (avoids_deliver_chain hm) (fun w₁ callee inner h => ?_)
      (ih fun m' hm' => hms m' (List.mem_cons_of_mem _ hm'))
    obtain ⟨-, rfl, -⟩ := deliver_chain hm h
    exact avoids_deliverAll_nil _ _ _

/-- **A withdrawal of a user from a solvent world** does not fail in a checked
subtraction. -/
theorem World.avoids_withdrawUnstaked {w : World T} (reached : w.Reached d)
    (accounted : (w.books d).Accounted) (solvent : (w.accounts d).Solvent) (user : Addr)
    (funds : List Coin) :
    Avoids Fault.IsOverflow
      (w.exec d (.transact user d.hub (.hub .withdrawUnstaked) funds)) := by
  -- the call itself, with the funds credited
  have hcall : Avoids Fault.IsOverflow
      (callContract d w user d.hub funds (.hub .withdrawUnstaked)) := by
    refine (avoids_require (by simp)).bind fun _ _ => ?_
    refine Avoids.bind ?_ fun r _ => avoids_ok _
    refine (avoids_require (by simp)).bind fun _ _ => ?_
    refine Hub.avoids_executeWithdrawUnstakedImpl accounted.ledger accounted.covered ?_
      fun ids hids => by cases hids
    show w.hub.state.unclaimedUnstakedBalance + (w.hub.pendingDelegation.current w.block.height).1 ≤
      (if d.hub = d.hub ∧ w.hub.parameters.stakingCoinDenom = d.denom then
        w.bank + fundsIn d.denom funds else 0)
    rw [if_pos ⟨rfl, reached.regular.denom_eq⟩]
    exact Nat.le_trans solvent (Nat.le_add_right _ _)
  refine (avoids_require (by simp)).bind fun _ _ => ?_
  refine avoids_deliverAll_cons (hcall.bind fun _ _ => avoids_ok _) (fun w₁ callee inner h => ?_)
    fun w₂ => avoids_deliverAll_nil _ _ _
  simp only [deliver, bind_eq_ok, Prod.exists, pure_eq_ok, Prod.mk.injEq] at h
  obtain ⟨w₁', ms, hcall', rfl, rfl, rfl⟩ := h
  obtain ⟨-, q, hub, res, -, hx, rfl, -⟩ := callContract_hub hcall'
  simp only [Hub.execute, bind_eq_ok] at hx
  obtain ⟨_, -, hx⟩ := hx
  obtain @⟨free, left, amount, released, res, -, -, -, -, -, -, -, messages_eq, -⟩ :=
    Hub.executeWithdrawUnstakedImpl_ok hx
  refine avoids_deliverAll_chain (fun m hm => ?_) _
  rw [messages_eq, List.mem_singleton] at hm
  rw [hm]
  rfl

/-- **Released claims are solvent.**  In every world reached without
`WithdrawUnstakedForBatches`, whatever the chain makes of the delegations: the
unclaimed balance is enough for the worth of the entries of all released
batches, the bank balance for the unclaimed one and the pending stake, and no
`WithdrawUnstaked` fails in a checked subtraction. -/
theorem released_claims_are_solvent {w w' : World T} {tr : List (Action × World T)}
    (created : w.Created d) (run : Run (World.Step d) w tr w')
    (allAtOnce : ∀ e ∈ tr, e.1.AllAtOnce) :
    w'.hub.claims ≤ w'.hub.state.unclaimedUnstakedBalance ∧
    (∀ ps pu, Hub.getPendingDelegationAmount w'.hub (w'.env d.hub) = .ok (ps, pu) →
      w'.hub.state.unclaimedUnstakedBalance + ps ≤ w'.bank) ∧
    ∀ user funds what, w'.exec d (.transact user d.hub (.hub .withdrawUnstaked) funds) ≠
      .error (.err (.overflow what)) := by
  obtain ⟨reached, accounted, solvent⟩ := created.sound run allAtOnce
  refine ⟨accounted.covered, fun ps pu h => ?_, fun user funds what h => ?_⟩
  · rw [Hub.getPendingDelegationAmount_eq_ok] at h
    have hps : (w'.hub.pendingDelegation.current w'.block.height).1 = ps := congrArg Prod.fst h.2
    rw [← hps]
    exact solvent
  · exact World.avoids_withdrawUnstaked reached accounted solvent user funds _ h ⟨what, rfl⟩

/-- The batch of the sample is released and waits to be withdrawn, while a new
stake waits for the end of the epoch: what is due is unclaimed, and the bank
holds it and the pending stake. -/
theorem released_claims_are_solvent_sample :
    let script := sampleStake ++ sampleUnstake 60 ++ [.ends ⟨1300, 12000⟩, .credit 60,
      .passes ⟨1310, 19000⟩, toHub "bob" .processWithdrawRequests, stakes "bob" 7]
    let w := sampleEnd script
    w.hub.claims = 60 ∧ w.bank = 67 ∧
    w.hub.claims ≤ w.hub.state.unclaimedUnstakedBalance ∧
    (∀ ps pu, Hub.getPendingDelegationAmount w.hub (w.env "hub") = .ok (ps, pu) →
      w.hub.state.unclaimedUnstakedBalance + ps ≤ w.bank) ∧
    ∀ user funds what,
      w.exec sampleDeployment (.transact user "hub" (.hub .withdrawUnstaked) funds) ≠
        .error (.err (.overflow what)) := by
  intro script w
  have run := sampleRun script (by decide +kernel)
  have facts : (∀ e ∈ sampleTrace script, e.1.AllAtOnce) ∧ w.hub.claims = 60 ∧ w.bank = 67 := by
    decide +kernel
  obtain ⟨allAtOnce, claims, bank⟩ := facts
  exact ⟨claims, bank, released_claims_are_solvent sampleWorld_created run allAtOnce⟩

end BabyLst
