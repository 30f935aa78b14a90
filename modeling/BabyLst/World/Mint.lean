/-
# What a stake mints

`execute_stake` refuses a payment of nothing, but not one that buys nothing: the
LST minted is the payment over the rate, rounded down, and the rate is whatever
the history of the pool has made it.  In every world reached without slashing
the rate of a stake can be read off the world before it (`World.stakeRate`), and
a stake mints tokens exactly when the payment is worth one token unit at it
(`paid_stake_yields_tokens`).  Rewards sent while the supply is small carry the
rate past any payment (`donation_swallows_a_stake`).
-/

import BabyLst.World.LatestRate

namespace BabyLst

open Lib Std

variable {T : Type} {d : Deployment T}

/-- **What steps without slashing keep.** -/
structure World.Steady (d : Deployment T) (w : World T) : Prop where
  reached : w.Reached d
  positive : (w.books d).Positive
  balanced : (w.accounts d).Balanced

theorem PlainStep.steady {w w' : World T} {act : Action} (h : PlainStep d w act w')
    (hw : w.Steady d) : w'.Steady d := by
  obtain ⟨hunslashed, hdirect⟩ := h
  obtain ⟨-, -, hreached⟩ := hw.reached.exec hunslashed.1
  exact ⟨hreached, hunslashed.positive hdirect hw.reached hw.positive,
    hunslashed.balanced hw.reached hw.balanced⟩

theorem World.Created.steady {w : World T} (created : w.Created d) : w.Steady d :=
  ⟨created.settled.reached, created.settled.positive, created.settled.balanced⟩

/-- Every world of a run without slashing is steady. -/
theorem World.Created.runSteady {w w' : World T} {tr : List (Action × World T)}
    (created : w.Created d) (run : Run (PlainStep d) w tr w') : w'.Steady d :=
  run.invariant created.steady fun _ _ _ hw hstep => hstep.steady hw

/-- **The rate of a stake**: the stored one while the chain reports no delegation
of the hub, that of what is recorded and outstanding otherwise. -/
def World.stakeRate (d : Deployment T) (w : World T) : Decimal :=
  if delegationList d w.delegations = [] then w.hub.state.lstExchangeRate else w.currentRate d

/-- The check for slashing finds the rate of a stake. -/
theorem Accounts.Check.rate_eq {w : World T} {a : Accounts} (hw : w.Steady d)
    (h : (w.accounts d).Check a) : a.rate = w.stakeRate d := by
  unfold World.stakeRate
  cases h with
  | unlisted hl =>
    rw [if_pos (listed_eq_false.1 hl)]
    rfl
  | nothing hl le zero =>
    have hpos : 0 < (w.accounts d).delegated := hw.positive.delegated_pos hl
    have hbalanced := hw.balanced
    unfold Accounts.Balanced at hbalanced
    omega
  | @full staked hl le pos staked_eq =>
    have hbalanced := hw.balanced
    unfold Accounts.Balanced at hbalanced
    have hne : ¬delegationList d w.delegations = [] := fun hnil => by
      rw [listed_eq_false.2 hnil] at hl
      cases hl
    rw [if_neg (by omega)] at staked_eq
    rw [if_neg hne, staked_eq]
    rfl

/-- A call of `Stake` is `execute_stake`, with the funds on the hub. -/
theorem callContract_stake {w w' : World T} {sender : Addr} {funds : List Coin}
    {messages : List CosmosMsg}
    (h : callContract d w sender d.hub funds (.hub .stake) = .ok (w', messages)) :
    ∃ hub res, Hub.executeStake (World.querier d { w with bank := w.bank + fundsIn d.denom funds })
        w.hub (w.env d.hub) ⟨sender, funds⟩ .lstMint = .ok (hub, res) ∧
      messages = res.messages := by
  simp only [callContract, bind_eq_ok, require_eq_ok, Prod.exists, pure_eq_ok, Prod.mk.injEq,
    Hub.execute, Hub.dispatch] at h
  obtain ⟨-, -, hub, res, ⟨-, -, hstake⟩, -, hmessages⟩ := h
  exact ⟨hub, res, hstake, hmessages.symm⟩

/-- **A paid stake yields tokens exactly when** the payment is worth one token
unit at the rate of the stake. -/
theorem paid_stake_yields_tokens {w w₁ w₂ : World T} {tr : List (Action × World T)}
    (sender : Addr) (funds : List Coin) {messages : List CosmosMsg} (created : w.Created d)
    (run : Run (PlainStep d) w tr w₁)
    (stake : callContract d w₁ sender d.hub funds (.hub .stake) = .ok (w₂, messages)) :
    ∃ payment minted, funds = [⟨d.denom, payment⟩] ∧ 0 < payment ∧
      .wasmExecute d.token (.token (.mint sender minted)) [] ∈ messages ∧
      mintedIn messages = minted ∧
      (0 < minted ↔ (w₁.stakeRate d).atomics ≤ payment * DECIMAL_FRACTIONAL) := by
  have hw := created.runSteady run
  obtain ⟨hub, res, hstake, rfl⟩ := callContract_stake stake
  have answers : Answers d ((w₁.books d).paid d ⟨sender, funds⟩)
      (World.querier d { w₁ with bank := w₁.bank + fundsIn d.denom funds }) :=
    World.answers d { w₁ with bank := w₁.bank + fundsIn d.denom funds }
  obtain @⟨payment, supply, mint, state, pending, validators, plan, registry, token, _, -, funds_eq,
    pos, actual, -, minted, token_eq, -, -, -, -, plan_eq, messages_eq⟩ :=
    Hub.executeStake_ok hstake
  have hcheck := actual.accounts answers hw.reached.regular rfl rfl rfl
  have hrate : state.lstExchangeRate = w₁.stakeRate d := hcheck.rate_eq hw
  obtain rfl := Option.some.inj (token_eq.symm.trans hw.reached.wired.hub_token)
  have hdenom : w₁.hub.parameters.stakingCoinDenom = d.denom := hw.reached.regular.denom_eq
  rw [hdenom] at funds_eq
  refine ⟨payment, mint, funds_eq, pos, ?_, ?_, ?_⟩
  · rw [messages_eq]
    exact List.mem_append_right _ (List.mem_singleton_self _)
  · have hemits := (emits_delegateMsgs w₁.hub.parameters.stakingCoinDenom d.hub plan_eq).append
      (emits_mintMsgs d.token sender minted)
    rw [messages_eq]
    exact hemits.minted_eq.trans (Nat.zero_add mint)
  · rw [Hub.mintAmountOf, decimalDivision_eq_ok, hrate] at minted
    obtain ⟨hne, -, rfl⟩ := minted
    exact Nat.div_pos_iff.trans ⟨fun h => h.2, fun h => ⟨Nat.pos_of_ne_zero hne, h⟩⟩

/-- A stake of 1, and rewards of 1000: the token stands for 1001 coins. -/
def sampleDonation : List ScriptLine :=
  [stakes "alice" 1, .send "dispatcher" "hub" (.hub .stakeRewards) [⟨"ubbn", 1000⟩]]

/-- The world after it. -/
def sampleDonated : World Token.Ledger :=
  playEnd (World.line fun w line => line.plain w) sampleWorld sampleDonation

/-- A stake of 1001 coins buys a token there. -/
theorem paid_stake_yields_tokens_sample :
    ∃ w messages payment minted, callContract sampleDeployment sampleDonated "bob" "hub"
        [⟨"ubbn", 1001⟩] (.hub .stake) = .ok (w, messages) ∧ 0 < payment ∧
      mintedIn messages = minted ∧ (0 < minted ↔
        (sampleDonated.stakeRate sampleDeployment).atomics ≤ payment * DECIMAL_FRACTIONAL) ∧
      mintedIn messages = 1 := by
  have run := playedFrom sampleWorld sampleDonation World.line_plain (by decide +kernel)
  obtain ⟨payment, minted, -, pos, -, hminted, hiff⟩ :=
    paid_stake_yields_tokens (d := sampleDeployment) "bob" [⟨"ubbn", 1001⟩] sampleWorld_created
      run rfl
  exact ⟨_, _, payment, minted, rfl, pos, hminted, hiff, by decide +kernel⟩

/-- **A donation swallows a stake**: after it a stake of 500 coins is accepted,
and no token is minted for it. -/
theorem donation_swallows_a_stake :
    ∃ tr w messages, sampleWorld.Created sampleDeployment ∧
      Run (PlainStep sampleDeployment) sampleWorld tr sampleDonated ∧
      callContract sampleDeployment sampleDonated "bob" "hub" [⟨"ubbn", 500⟩] (.hub .stake) =
        .ok (w, messages) ∧
      .wasmExecute "token" (.token (.mint "bob" 0)) [] ∈ messages ∧ mintedIn messages = 0 ∧
      (sampleDonated.exec sampleDeployment
        (.transact "bob" "hub" (.hub .stake) [⟨"ubbn", 500⟩])).isOk = true := by
  have run := playedFrom sampleWorld sampleDonation World.line_plain (by decide +kernel)
  exact ⟨_, _, _, sampleWorld_created, run, rfl, by decide +kernel⟩

end BabyLst
