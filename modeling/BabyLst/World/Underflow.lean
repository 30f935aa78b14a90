/-
# The subtractions of the check for slashing

`query_actual_state` subtracts the pending stake from what is recorded, and the
pending unstake from what the chain reports.  Both are safe in every world
reached while the delegations hold what is to be undelegated from them
(`World.Enough`): then the recorded stake keeps covering the pending one
(`Accounts.Safe`), and `check_does_not_underflow`.

A slashing in the epoch of a large batch can leave less, and nothing in the code
allows for it: the subtraction panics, in every transaction that checks for
slashing until the epoch ends (`slashing_bricks_the_hub`).
-/

import BabyLst.World.Queue

namespace BabyLst

open Lib Std

variable {T : Type} {d : Deployment T}

/-! ### The accounts -/

namespace Accounts

/-- **What is recorded covers the pending stake.** -/
def Safe (a : Accounts) : Prop := a.toStake ≤ a.staked

/-- The delegations hold what is to be undelegated. -/
def Enough (a : Accounts) : Prop := a.listed = true → a.toUnstake ≤ a.delegated

theorem Check.safe {a a' : Accounts} (h : a.Check a') (ha : a.Safe) (enough : a.Enough) :
    a'.Safe := by
  cases h with
  | unlisted => exact ha
  | nothing => exact ha
  | @full staked listed le pos staked_eq =>
    have hle := enough listed
    unfold Safe restaked
    dsimp only
    split_ifs at staked_eq with hlt
    · omega
    · omega

/-- What is to be undelegated is what a call leaves so. -/
theorem Call.safe {a a' : Accounts} {ran : Bool} (h : a.Call ran a') (ht : a.Tracked)
    (ha : a.Safe) (enough : a.Enough) (enough' : a'.Enough) : a'.Safe := by
  cases h with
  | stake check pos minted =>
    have h₁ := check.safe ha enough
    unfold Safe at h₁ ⊢
    simp only [Accounts.stake]
    omega
  | request funds check le => exact check.safe ha enough
  | @close amount a₁ funds check le hclaim listed =>
    -- the stake is balanced, and what the batch takes is in the delegations
    have hbal := (check.tracks ht).checked rfl listed
    obtain ⟨-, -, -, -, -, -, -, hlisted⟩ := check.frame
    have hle : a₁.toUnstake + a₁.claim amount ≤ a₁.delegated := enough' (hlisted.trans listed)
    unfold Balanced at hbal
    unfold Safe
    simp only [Accounts.close, Accounts.credit]
    omega
  | check funds check => exact check.safe ha enough
  | pay => exact ha
  | quiet => exact ha

theorem Tx.safe {a a' : Accounts} {ran : Bool} (h : a.Tx ran a') (ht : a.Tracked) (ha : a.Safe)
    (enough : a.Enough) (enough' : a'.Enough) : a'.Safe := by
  cases h with
  | call call => exact call.safe ht ha enough enough'
  | @unstake a₁ a' call check =>
    obtain ⟨-, -, -, -, -, hunstake, hdelegated, hlisted⟩ := check.frame
    have enough₁ : a₁.Enough := by
      unfold Enough at enough' ⊢
      rw [← hunstake, ← hdelegated, ← hlisted]
      exact enough'
    exact check.safe (call.safe ht ha enough enough₁) enough₁
  | @burn amount a' le check =>
    have hburn : (a.burn amount).Safe := ha
    exact check.safe hburn enough
  | still => exact ha

end Accounts

/-! ### The check -/

/-- An underflow. -/
def Fault.IsUnderflow (f : Fault) : Prop := f = .panic .subOverflow

/-- **The check does not underflow** where the pending stake is recorded, and the
pending unstake is in what the chain reports. -/
theorem avoids_queryActualState {w : World T} (reached : w.Reached d) (safe : (w.accounts d).Safe)
    (enough : (w.accounts d).Enough) (begun : (w.books d).Begun) :
    Avoids Fault.IsUnderflow
      (Hub.queryActualState (w.querier d) w.hub (w.env d.hub) w.hub.state) := by
  have hlist : (w.querier d).allDelegations (w.env d.hub).contract =
    delegationList d w.delegations := (w.answers d).delegations
  have htotal := delegatedTotal_delegationList w.hub w.delegations reached.regular.denom_eq
  unfold Hub.queryActualState
  rw [hlist]
  dsimp only
  split_ifs with hnil
  · exact avoids_ok _
  · have hlisted : (w.accounts d).listed = true := by
      rw [delegationList_eq_nil] at hnil
      simpa [World.accounts, World.books, Books.accounts] using hnil
    have hstart : w.hub.pendingDelegation.stakingEpochStartBlockHeight ≤ w.block.height := by
      refine begun.resolve_right fun hnone => hnil ?_
      have hempty : w.delegations = ∅ := hnone.1
      rw [delegationList_eq_nil, hempty]
      rfl
    have hle := enough hlisted
    refine (avoids_sumU128 (by simp [Fault.IsUnderflow]) _).bind fun actual hactual => ?_
    rw [sumU128_eq_ok] at hactual
    have hdelegated : (w.accounts d).delegated = actual := htotal.symm.trans hactual.1
    have hpending : Hub.getPendingDelegationAmount w.hub (w.env d.hub) =
        .ok ((w.accounts d).toStake, (w.accounts d).toUnstake) :=
      Hub.getPendingDelegationAmount_eq_ok.2 ⟨hstart, rfl⟩
    rw [bind_ok hpending]
    dsimp only
    refine (avoids_strictSub_of_le safe).bind fun less _ => ?_
    refine (avoids_strictAdd (by simp [Fault.IsUnderflow])).bind fun recorded _ => ?_
    split_ifs
    · exact avoids_ok _
    · refine Avoids.bind ?_ fun staked _ => ?_
      · unfold Hub.reconciledStake
        split_ifs
        · refine (avoids_strictAdd (by simp [Fault.IsUnderflow])).bind fun sum hsum => ?_
          rw [strictAdd_eq_ok] at hsum
          exact avoids_strictSub_of_le (by omega)
        · exact avoids_ok _
      · refine Avoids.bind ?_ fun supply _ => ?_
        · refine (avoids_okOr (by simp [HubError.fault, Fault.IsUnderflow])).bind fun token _ => ?_
          simp only [World.querier, answerAt]
          split_ifs
          · exact avoids_ok _
          · exact avoids_error (by simp [Fault.IsUnderflow])
        · unfold Hub.State.updateLstExchangeRate
          refine (avoids_strictAdd (by simp [Fault.IsUnderflow])).bind fun total _ => ?_
          split_ifs
          · exact avoids_ok _
          · refine Avoids.bind ?_ fun _ _ => avoids_ok _
            refine (avoids_strictDiv (by simp [Fault.IsUnderflow])).bind fun _ _ => ?_
            exact (avoids_narrow128 (by simp [Fault.IsUnderflow])).bind fun _ _ => avoids_ok _

/-- **The delegations hold what is to be undelegated from them**, where the chain
reports a delegation and the pending amounts can be read. -/
def World.Enough (d : Deployment T) (w : World T) : Prop :=
  delegationList d w.delegations ≠ [] → ∀ ps pu,
    Hub.getPendingDelegationAmount w.hub (w.env d.hub) = .ok (ps, pu) →
      pu ≤ delegated w.delegations

theorem World.Enough.accounts {w : World T} (h : w.Enough d) (begun : (w.books d).Begun) :
    (w.accounts d).Enough := by
  intro hlisted
  have hne : delegationList d w.delegations ≠ [] := by
    rw [Ne, delegationList_eq_nil]
    simpa [World.accounts, World.books, Books.accounts] using hlisted
  have hstart : w.hub.pendingDelegation.stakingEpochStartBlockHeight ≤ w.block.height := by
    refine begun.resolve_right fun hnone => hne ?_
    have hempty : w.delegations = ∅ := hnone.1
    rw [delegationList_eq_nil, hempty]
    rfl
  exact h hne _ _ (Hub.getPendingDelegationAmount_eq_ok.2 ⟨hstart, rfl⟩)

/-- A step of such a chain that leaves the delegations enough for what is to be
undelegated. -/
def HeldStep (d : Deployment T) (w : World T) (act : Action) (w' : World T) : Prop :=
  DirectStep d w act w' ∧ w'.Enough d

/-- What the steps keep: the accounts are tracked and safe. -/
structure World.Held (d : Deployment T) (w : World T) : Prop where
  reached : w.Reached d
  begun : (w.books d).Begun
  tracked : (w.accounts d).Tracked
  safe : (w.accounts d).Safe
  enough : (w.accounts d).Enough

theorem World.Created.held {w : World T} (created : w.Created d) : w.Held d := by
  obtain ⟨reached, fresh⟩ := created.reached
  refine ⟨reached, .inr ⟨created.delegations_eq, created.queue_eq⟩, ?_, ?_, ?_⟩
  · rw [fresh]
    exact Nat.zero_le _
  · rw [fresh]
    exact Nat.zero_le _
  · rw [fresh]
    exact fun _ => Nat.zero_le _

theorem HeldStep.held {w w' : World T} {act : Action} (h : HeldStep d w act w') (hw : w.Held d) :
    w'.Held d := by
  obtain ⟨hdirect, henough⟩ := h
  obtain ⟨hmove, -, hreached⟩ := hw.reached.exec hdirect.1.1
  have hbegun := hdirect.begun hw.reached hw.begun
  have htracked := hdirect.1.tracked hw.reached hw.tracked
  have henough' := henough.accounts hbegun
  refine ⟨hreached, hbegun, htracked, ?_, henough'⟩
  generalize hb' : w'.books d = b' at hmove
  have heq : w'.accounts d = b'.accounts := by rw [World.accounts, hb']
  rw [heq] at henough' ⊢
  cases hmove with
  | transact tx =>
    exact (tx.accounts hw.reached.regular).1.safe hw.tracked hw.safe hw.enough henough'
  | credit => exact hw.safe
  | within height_le time_le same =>
    rw [(hw.reached.regular.within height_le same).2]
    exact hw.safe
  | enter height_le time_le later enough =>
    rw [(hw.reached.regular.entered height_le later).2]
    exact Nat.zero_le _

/-- The line leaves the delegations enough for what is to be undelegated. -/
def ScriptLine.held (w : World Token.Ledger) (line : ScriptLine) : Bool :=
  let w' := w.next (line.action w)
  line.inFull w && line.direct &&
    (w'.hub.pendingDelegation.current w'.block.height).2 ≤ delegated w'.delegations

theorem World.line_held {w w' : World Token.Ledger} {line : ScriptLine} {act : Action}
    (h : w.line (fun w line => line.held w) line = some (act, w')) :
    HeldStep sampleDeployment w act w' := by
  obtain ⟨hstep, rfl, hheld⟩ := World.line_sound h
  simp only [ScriptLine.held, Bool.and_eq_true, decide_eq_true_eq,
    World.next_of_step hstep] at hheld
  obtain ⟨⟨hfull, hdirect⟩, hle⟩ := hheld
  refine ⟨⟨⟨hstep, ScriptLine.inFull_sound hfull⟩, ScriptLine.direct_sound hdirect⟩,
    fun _ ps pu hpending => ?_⟩
  · rw [Hub.getPendingDelegationAmount_eq_ok] at hpending
    have hpu : (w'.hub.pendingDelegation.current w'.block.height).2 = pu :=
      congrArg Prod.snd hpending.2
    exact hpu ▸ hle

end BabyLst
