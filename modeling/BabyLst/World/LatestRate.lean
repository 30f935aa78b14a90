/-
# The latest exchange rate

`query_actual_state` leaves early, with the stored rate, where the chain reports
no delegation or nothing recorded is delegated.  Without slashing the second way
out is never taken (`Accounts.Check.current`), and the first returns the rate of
what is recorded and outstanding in every world reached by steps that keep it
(`CurrentStep`): where nothing is delegated, tokens are not burned but for a
request, and an epoch that takes the last delegation away finds the fallback
rate.

Every step that does not keep it leads to a stale rate, which is what
`rate_is_current` says in both directions; `early_burn_leaves_a_stale_rate` is a
burn before the first delegation.
-/

import BabyLst.World.Queue
import BabyLst.World.Rate

namespace BabyLst

open Lib Std

variable {T : Type} {d : Deployment T}

namespace Accounts

/-- The rate is that of what is recorded and outstanding. -/
def Current (a : Accounts) : Prop := a.rate = Hub.rateOf a.staked (a.supply + a.requested)

/-- **What the steps keep**: where the chain reports no delegation the rate is
current, and where it reports one, something is delegated. -/
structure Latest (a : Accounts) : Prop where
  current : a.listed = false → a.Current
  solid : a.listed = true → 0 < a.delegated

/-- **The check leaves the current rate.** -/
theorem Check.current {a a' : Accounts} (h : a.Check a') (hb : a.Balanced) (ha : a.Latest) :
    a'.Current := by
  cases h with
  | unlisted hl => exact ha.current hl
  | nothing hl le zero =>
    have hpos := ha.solid hl
    unfold Balanced at hb
    omega
  | full => rfl

theorem Check.latest {a a' : Accounts} (h : a.Check a') (hb : a.Balanced) (ha : a.Latest) :
    a'.Latest := by
  obtain ⟨-, -, -, -, -, -, hdelegated, hlisted⟩ := h.frame
  refine ⟨fun _ => h.current hb ha, fun hl => ?_⟩
  rw [hdelegated]
  exact ha.solid (hlisted ▸ hl)

/-- A call does not change what the chain reports. -/
theorem Call.reports {a a' : Accounts} {ran : Bool} (h : a.Call ran a') :
    a'.delegated = a.delegated ∧ a'.listed = a.listed := by
  cases h with
  | stake check => exact check.frame.2.2.2.2.2.2
  | request funds check => exact check.frame.2.2.2.2.2.2
  | close funds check => exact check.frame.2.2.2.2.2.2
  | check funds check => exact check.frame.2.2.2.2.2.2
  | pay => exact ⟨rfl, rfl⟩
  | quiet => exact ⟨rfl, rfl⟩

/-- **A call of the hub keeps the rate current** while nothing is delegated; the
batch is closed only where something is. -/
theorem Call.latest {a a' : Accounts} {ran : Bool} (h : a.Call ran a') (hb : a.Balanced)
    (ha : a.Latest) : a'.Latest := by
  obtain ⟨hdelegated, hlisted⟩ := h.reports
  refine ⟨fun hl => ?_, fun hl => hdelegated ▸ ha.solid (hlisted ▸ hl)⟩
  cases h with
  | stake => rfl
  | @request amount a₁ funds check le =>
    have hcurrent := check.current hb ha
    have hsupply := check.frame.2.1
    have hsum : a₁.supply - amount + (a₁.requested + amount) = a₁.supply + a₁.requested := by omega
    show a₁.rate = Hub.rateOf a₁.staked (a₁.supply - amount + (a₁.requested + amount))
    rw [hsum]
    exact hcurrent
  | close funds check le enough listed =>
    rw [hlisted, listed] at hl
    cases hl
  | @check a₁ funds check =>
    have hcurrent := check.current hb ha
    exact hcurrent
  | pay => exact ha.current hl
  | quiet => exact ha.current hl

end Accounts

/-- **A transaction keeps the rate current** while nothing is delegated, if a burn
leaves the ratio of stake and tokens. -/
theorem Tx.latest {b b' : Books} {msg : ContractMsg} (h : Tx d b msg b') (regular : b.Regular d)
    (hb : b.accounts.Balanced) (ha : b.accounts.Latest)
    (keeps : ∀ m, msg = .token m → b.accounts.listed = false →
      Hub.rateOf b.accounts.staked (b.accounts.supply + b.accounts.requested - m.burned) =
        Hub.rateOf b.accounts.staked (b.accounts.supply + b.accounts.requested)) :
    b'.accounts.Latest := by
  -- a request, and the check that the token sends back
  have request : ∀ {info m b₁}, Call d b info m b₁ → m.reconciles b.accounts.requested = true →
      Check d b₁ b' → b'.accounts.Latest := by
    intro info m b₁ call hran check
    obtain ⟨hcall, hreg⟩ := call.accounts regular
    obtain ⟨hcheck, -⟩ := check.accounts hreg
    exact hcheck.latest ((hcall.tracks hb.le).balanced hb) (hcall.latest hb ha)
  cases h with
  | hub user plain call => exact (call.accounts regular).1.latest hb ha
  | unstake user call check => exact request call rfl check
  | send sends call check => exact request call rfl check
  | @burn m amount b' burns le check =>
    have hburned : m.burned = amount := by
      rcases burns with rfl | ⟨owner, rfl⟩
      · rfl
      · rfl
    have hle : amount ≤ b.accounts.supply := le
    have hsum : b.accounts.supply - amount + b.accounts.requested =
        b.accounts.supply + b.accounts.requested - amount := by omega
    have hburn : (b.accounts.burn amount).Latest := by
      refine ⟨fun hl => ?_, ha.solid⟩
      have hkeeps := keeps m rfl hl
      rw [hburned] at hkeeps
      show b.accounts.rate = Hub.rateOf b.accounts.staked
        (b.accounts.supply - amount + b.accounts.requested)
      rw [hsum, hkeeps]
      exact ha.current hl
    exact ((check.accounts (regular.burn amount)).1).latest hb hburn
  | still => exact ha
  | registry => exact ha
  | redelegate => exact ha

/-! ### One step -/

/-- The rate of what is recorded and outstanding. -/
def World.currentRate (d : Deployment T) (w : World T) : Decimal :=
  Hub.rateOf w.hub.state.totalStakedAmount (w.outstanding d)

/-- **The check for slashing finds the current rate**: the one that
`update_lst_exchange_rate` gives for the stake it leaves and the tokens
outstanding. -/
def World.RateIsCurrent (d : Deployment T) (w : World T) : Prop :=
  ∀ state, Hub.queryActualState (w.querier d) w.hub (w.env d.hub) w.hub.state = .ok state →
    state.lstExchangeRate = Hub.rateOf state.totalStakedAmount (w.outstanding d)

/-- One step without slashing, and no `RedelegateProxy` of a user. -/
def PlainStep (d : Deployment T) (w : World T) (act : Action) (w' : World T) : Prop :=
  UnslashedStep d w act w' ∧ act.Direct

/-- **The action keeps the rate current** where the chain reports no delegation: a
message to the token burns nothing that the ratio of stake and tokens depends
on, and a later epoch without delegations finds the fallback rate. -/
structure Action.KeepsRate (d : Deployment T) (w : World T) (act : Action) : Prop where
  burn : ∀ sender contract msg funds, act = .transact sender contract (.token msg) funds →
    delegationList d w.delegations = [] →
    Hub.rateOf w.hub.state.totalStakedAmount (w.outstanding d - msg.burned) = w.currentRate d
  epoch : ∀ block delegations, act = .advance block delegations →
    d.epoch block.height ≠ d.epoch w.block.height → delegationList d delegations = [] →
    w.hub.state.lstExchangeRate = Decimal.one

/-- A step that keeps the rate current. -/
def CurrentStep (d : Deployment T) (w : World T) (act : Action) (w' : World T) : Prop :=
  PlainStep d w act w' ∧ act.KeepsRate d w

/-- What these steps keep. -/
structure World.Settled (d : Deployment T) (w : World T) : Prop where
  reached : w.Reached d
  positive : (w.books d).Positive
  balanced : (w.accounts d).Balanced
  latest : (w.accounts d).Latest

theorem listed_eq_false {w : World T} :
    (w.accounts d).listed = false ↔ delegationList d w.delegations = [] := by
  rw [delegationList_eq_nil]
  simp [World.accounts, World.books, Books.accounts]

theorem rateOf_zero (outstanding : ℕ) : Hub.rateOf 0 outstanding = Decimal.one := by
  rw [Hub.rateOf, SharePool.ratio, if_pos (.inl rfl)]
  rfl

theorem World.Created.settled {w : World T} (created : w.Created d) : w.Settled d := by
  obtain ⟨reached, fresh⟩ := created.reached
  refine ⟨reached, ⟨?_, ?_⟩, ?_, ⟨fun _ => ?_, ?_⟩⟩
  · intro m hm
    have hqueue : (w.books d).queue = [] := created.queue_eq
    rw [hqueue] at hm
    cases hm
  · intro v n hv
    have hempty : (w.books d).delegations = ∅ := created.delegations_eq
    rw [hempty] at hv
    simp at hv
  · rw [fresh]
    rfl
  · rw [fresh]
    exact (rateOf_zero _).symm
  · rw [fresh]
    exact fun h => by cases h

/-- The stake recorded at the end of an epoch is what is delegated then. -/
theorem staked_of_applied {w : World T} {delegations : ExtTreeMap String ℕ}
    (regular : (w.books d).Regular d) (hb : (w.accounts d).Balanced)
    (h : applyQueue w.delegations w.queue = some delegations) :
    w.hub.state.totalStakedAmount = delegated delegations := by
  have happlied := regular.applied h
  have hbal : (w.books d).accounts.delegated + (w.books d).accounts.toStake =
    (w.books d).accounts.staked + (w.books d).accounts.toUnstake := hb
  show (w.books d).accounts.staked = _
  omega

theorem CurrentStep.settled {w w' : World T} {act : Action} (h : CurrentStep d w act w')
    (hw : w.Settled d) : w'.Settled d := by
  obtain ⟨hplain, hkeeps⟩ := h
  obtain ⟨⟨hstep, hfull⟩, hdirect⟩ := hplain
  obtain ⟨hmove, -, hreached⟩ := hw.reached.exec hstep
  have hpositive := UnslashedStep.positive ⟨hstep, hfull⟩ hdirect hw.reached hw.positive
  refine ⟨hreached, hpositive, UnslashedStep.balanced ⟨hstep, hfull⟩ hw.reached hw.balanced, ?_⟩
  suffices hcurrent : (w'.accounts d).listed = false → (w'.accounts d).Current from
    ⟨hcurrent, hpositive.delegated_pos⟩
  generalize hb' : w'.books d = b' at hmove
  have hgoal : w'.accounts d = b'.accounts := by rw [World.accounts, hb']
  rw [hgoal]
  cases hmove with
  | @transact sender contract msg funds b' tx =>
    refine (tx.latest hw.reached.regular hw.balanced hw.latest fun m hm hl => ?_).current
    subst hm
    exact hkeeps.burn _ _ _ _ rfl (listed_eq_false.1 hl)
  | credit => exact hw.latest.current
  | @within block delegations height_le time_le same =>
    have hs := hfull block delegations rfl
    rw [if_pos (show d.epoch block.height = d.epoch w.block.height from same)] at hs
    rw [(hw.reached.regular.within height_le same).2, hs]
    exact hw.latest.current
  | @enter block delegations height_le time_le later enough =>
    have hs := hfull block delegations rfl
    rw [if_neg (show ¬d.epoch block.height = d.epoch w.block.height from later)] at hs
    have hstaked := staked_of_applied hw.reached.regular hw.balanced hs
    rw [(hw.reached.regular.entered height_le later).2]
    intro hl
    have hempty : delegations.isEmpty = true := by simpa [Accounts.reported] using hl
    have hrate := hkeeps.epoch block delegations rfl later ((delegationList_eq_nil _).2 hempty)
    have hzero : delegated delegations = 0 := by
      have hnil : delegations = ∅ := ExtTreeMap.isEmpty_iff.1 hempty
      rw [hnil]
      exact delegated_empty
    show w.hub.state.lstExchangeRate = Hub.rateOf w.hub.state.totalStakedAmount _
    rw [hstaked, hzero, hrate, rateOf_zero]

/-! ### The rate is current -/

/-- The check finds the rate that the accounts have after it. -/
theorem World.Settled.rateIsCurrent {w : World T} (hw : w.Settled d) : w.RateIsCurrent d := by
  intro state h
  have answers : Answers d ((w.books d).paid d ⟨d.token, []⟩) (w.querier d) := w.answers d
  have hcheck := (Hub.queryActualState_ok h).accounts answers hw.reached.regular rfl rfl rfl
  exact hcheck.current hw.balanced hw.latest

/-- Without delegations the check leaves the state as it is. -/
theorem queryActualState_of_empty {w : World T} (h : delegationList d w.delegations = []) :
    Hub.queryActualState (w.querier d) w.hub (w.env d.hub) w.hub.state = .ok w.hub.state := by
  have hlist : (w.querier d).allDelegations (w.env d.hub).contract = [] :=
    (w.answers d).delegations.trans h
  rw [Hub.queryActualState, hlist, if_pos rfl]
  rfl

/-- Without delegations, what the check finds is what is stored. -/
theorem World.RateIsCurrent.stored {w : World T} (h : w.RateIsCurrent d)
    (hl : (w.accounts d).listed = false) : (w.accounts d).Current :=
  h _ (queryActualState_of_empty (listed_eq_false.1 hl))

/-- **A step after which the rate is current keeps it so.** -/
theorem PlainStep.keepsRate {w w' : World T} {act : Action} (h : PlainStep d w act w')
    (hw : w.Settled d) (hw' : w'.RateIsCurrent d) : act.KeepsRate d w := by
  obtain ⟨⟨hstep, hfull⟩, hdirect⟩ := h
  obtain ⟨hmove, -, -⟩ := hw.reached.exec hstep
  generalize hb' : w'.books d = b' at hmove
  have heq : w'.accounts d = b'.accounts := by rw [World.accounts, hb']
  have hstored : b'.accounts.listed = false → b'.accounts.Current := heq ▸ hw'.stored
  constructor
  · rintro sender contract msg funds rfl hnil
    have hl := listed_eq_false.2 hnil
    have quiet : msg.burned = 0 → Hub.rateOf w.hub.state.totalStakedAmount
        (w.outstanding d - msg.burned) = w.currentRate d := by
      intro hz
      rw [hz]
      rfl
    cases hmove with
    | transact tx =>
      cases tx with
      | send sends =>
        rcases sends with ⟨c, m, rfl⟩ | ⟨o, c, m, rfl⟩
        · exact quiet rfl
        · exact quiet rfl
      | still hcalls =>
        refine quiet ?_
        cases msg with
        | burn => cases hcalls
        | burnFrom => cases hcalls
        | _ => rfl
      | @burn m amount b' burns le check =>
        have hburned : msg.burned = amount := by
          rcases burns with rfl | ⟨owner, rfl⟩
          · rfl
          · rfl
        have hcheck := (check.accounts (hw.reached.regular.burn amount)).1
        obtain ⟨hrequested, hsupply, -, -, -, -, -, hlisted⟩ := hcheck.frame
        have hcurrent := hstored (hlisted.trans hl)
        -- nothing is delegated, so the check leaves the accounts as the burn does
        have hsame : b'.accounts = (w.accounts d).burn amount := by
          generalize b'.accounts = a at hcheck
          cases hcheck with
          | unlisted => rfl
          | nothing h => exact absurd (h.symm.trans hl) (by simp)
          | full h => exact absurd (h.symm.trans hl) (by simp)
        rw [hsame] at hcurrent
        have hle : amount ≤ (w.accounts d).supply := le
        have hsum : (w.accounts d).supply + (w.accounts d).requested - amount =
            (w.accounts d).supply - amount + (w.accounts d).requested := by omega
        show Hub.rateOf (w.accounts d).staked
          ((w.accounts d).supply + (w.accounts d).requested - msg.burned) = _
        rw [hburned, hsum]
        exact hcurrent.symm.trans (hw.latest.current hl)
  · rintro block delegations rfl later hnil
    have hempty := (delegationList_eq_nil delegations).1 hnil
    have hs := hfull block delegations rfl
    rw [if_neg later] at hs
    have hstaked := staked_of_applied hw.reached.regular hw.balanced hs
    have hzero : delegated delegations = 0 := by
      have hnone : delegations = ∅ := ExtTreeMap.isEmpty_iff.1 hempty
      rw [hnone]
      exact delegated_empty
    cases hmove with
    | within height_le time_le same => exact absurd same later
    | enter height_le time_le _ enough =>
      rw [(hw.reached.regular.entered height_le later).2] at hstored
      have hcurrent := hstored (by simp [Accounts.reported, hempty])
      have hrate : w.hub.state.lstExchangeRate =
        Hub.rateOf w.hub.state.totalStakedAmount (w.outstanding d) := hcurrent
      rw [hrate, hstaked, hzero, rateOf_zero]

/-- **The rate is current** after the check in every world of a run whose steps
keep it so, and only there: a step that does not, after such a run, leads to a
world where the check finds a stale rate. -/
theorem rate_is_current {w : World T} (created : w.Created d) :
    (∀ tr w', Run (CurrentStep d) w tr w' → w'.RateIsCurrent d) ∧
    ∀ tr w₁ act w₂, Run (CurrentStep d) w tr w₁ → PlainStep d w₁ act w₂ →
      (w₂.RateIsCurrent d ↔ act.KeepsRate d w₁) := by
  have settled : ∀ tr w', Run (CurrentStep d) w tr w' → w'.Settled d := fun tr w' run =>
    run.invariant created.settled fun _ _ _ hw hstep => hstep.settled hw
  refine ⟨fun tr w' run => (settled tr w' run).rateIsCurrent, fun tr w₁ act w₂ run step => ?_⟩
  have hw := settled tr w₁ run
  constructor
  · exact step.keepsRate hw
  · intro hkeeps
    have hnext : CurrentStep d w₁ act w₂ := ⟨step, hkeeps⟩
    exact (hnext.settled hw).rateIsCurrent

/-- The line is one without slashing, and no `RedelegateProxy`. -/
def ScriptLine.plain (w : World Token.Ledger) (line : ScriptLine) : Bool :=
  line.unslashed w && line.direct

theorem World.line_plain {w w' : World Token.Ledger} {line : ScriptLine} {act : Action}
    (h : w.line (fun w line => line.plain w) line = some (act, w')) :
    PlainStep sampleDeployment w act w' := by
  obtain ⟨hstep, rfl, hplain⟩ := World.line_sound h
  obtain ⟨hunslashed, hdirect⟩ := Bool.and_eq_true_iff.1 hplain
  exact ⟨⟨hstep, ScriptLine.unslashed_sound hunslashed⟩, ScriptLine.direct_sound hdirect⟩

/-- The line is plain and keeps the rate. -/
def ScriptLine.keepsRate (w : World Token.Ledger) (line : ScriptLine) : Bool :=
  line.plain w && match line with
    | .send _ _ (.token msg) _ => delegationList sampleDeployment w.delegations ≠ [] ∨
      Hub.rateOf w.hub.state.totalStakedAmount (w.outstanding sampleDeployment - msg.burned) =
        w.currentRate sampleDeployment
    | .ends _ => delegationList sampleDeployment ((applyQueue w.delegations w.queue).getD ∅) ≠ [] ∨
      w.hub.state.lstExchangeRate = Decimal.one
    | _ => true

theorem ScriptLine.keepsRate_sound {w : World Token.Ledger} {line : ScriptLine}
    (h : line.keepsRate w = true) : (line.action w).KeepsRate sampleDeployment w := by
  obtain ⟨hplain, hkeeps⟩ := Bool.and_eq_true_iff.1 h
  obtain ⟨hunslashed, -⟩ := Bool.and_eq_true_iff.1 hplain
  obtain ⟨hfull, hnone⟩ := Bool.and_eq_true_iff.1 hunslashed
  constructor
  · intro sender contract msg funds hact hnil
    cases line with
    | send sender' contract' msg' funds' =>
      simp only [ScriptLine.action, Action.transact.injEq] at hact
      obtain ⟨-, -, rfl, -⟩ := hact
      exact (of_decide_eq_true hkeeps).resolve_left (not_not_intro hnil)
    | _ => cases hact
  · intro block delegations hact later hnil
    cases line with
    | passes block' =>
      obtain ⟨rfl, -⟩ := Action.advance.inj hact
      exact absurd (of_decide_eq_true hfull) later
    | ends block' =>
      obtain ⟨-, rfl⟩ := Action.advance.inj hact
      exact (of_decide_eq_true hkeeps).resolve_left (not_not_intro hnil)
    | slashes => cases hnone
    | _ => cases hact

theorem World.line_keepsRate {w w' : World Token.Ledger} {line : ScriptLine} {act : Action}
    (h : w.line (fun w line => line.keepsRate w) line = some (act, w')) :
    CurrentStep sampleDeployment w act w' := by
  obtain ⟨hstep, rfl, hkeeps⟩ := World.line_sound h
  obtain ⟨hplain, -⟩ := Bool.and_eq_true_iff.1 hkeeps
  obtain ⟨hunslashed, hdirect⟩ := Bool.and_eq_true_iff.1 hplain
  exact ⟨⟨⟨hstep, ScriptLine.unslashed_sound hunslashed⟩, ScriptLine.direct_sound hdirect⟩,
    ScriptLine.keepsRate_sound hkeeps⟩

/-- A burn of 50 of 100 tokens, after the first epoch, doubles the rate; before,
it does not keep the rate. -/
theorem rate_is_current_sample :
    ∃ tr w tr₁ w₁ act w₂, Run (CurrentStep sampleDeployment) sampleWorld tr w ∧
      w.hub.state.lstExchangeRate = ⟨2000000000000000000⟩ ∧ w.RateIsCurrent sampleDeployment ∧
      Run (CurrentStep sampleDeployment) sampleWorld tr₁ w₁ ∧
      PlainStep sampleDeployment w₁ act w₂ ∧
      act = .transact "alice" "token" (.token (.burn 50)) [] ∧
      (w₂.RateIsCurrent sampleDeployment ↔ act.KeepsRate sampleDeployment w₁) := by
  obtain ⟨current, steps⟩ := rate_is_current sampleWorld_created
  have run := playedFrom sampleWorld (sampleStake ++ [toToken "alice" (.burn 50)])
    World.line_keepsRate (by decide +kernel)
  have run₁ := playedFrom sampleWorld [stakes "alice" 100] World.line_keepsRate (by decide +kernel)
  have step := World.step_next (playEnd (World.line fun w line => line.keepsRate w) sampleWorld
    [stakes "alice" 100]) (.transact "alice" "token" (.token (.burn 50)) []) (by decide +kernel)
  have plain : PlainStep sampleDeployment _ _ _ :=
    ⟨⟨step, fun _ _ h => by cases h⟩, fun _ _ _ _ _ h => by cases h⟩
  exact ⟨_, _, _, _, _, _, run, by decide +kernel, current _ _ run, run₁, plain, rfl,
    steps _ _ _ _ run₁ plain⟩

/-- **An early burn leaves a stale rate**: 100 are staked, and before the epoch
ends 50 tokens are burned.  Nothing is delegated yet, so the check of the burn
and every later one find the rate one, and the 50 tokens left stand for 100. -/
theorem early_burn_leaves_a_stale_rate :
    ∃ tr w st events state fresh, sampleWorld.Created sampleDeployment ∧
      Run (PlainStep sampleDeployment) sampleWorld tr w ∧
      Hub.checkSlashing (w.querier sampleDeployment) w.hub (w.env "hub") w.hub.state =
        .ok (st, events, state) ∧
      state.lstExchangeRate = Decimal.one ∧
      state.updateLstExchangeRate (sampleDeployment.cw20.totalSupply w.token.cw20)
        w.hub.currentBatch.requestedLstTokenAmount = .ok fresh ∧
      fresh.lstExchangeRate = ⟨2000000000000000000⟩ := by
  have run := playedFrom sampleWorld [stakes "alice" 100, toToken "alice" (.burn 50)]
    World.line_plain (by decide +kernel)
  exact ⟨_, _, _, _, _, _, sampleWorld_created, run, rfl, rfl, rfl, by decide +kernel⟩

end BabyLst
