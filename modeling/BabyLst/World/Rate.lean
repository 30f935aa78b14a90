/-
# The exchange rate

The recorded stake, the tokens outstanding and the rate are a pool of shares
(`Accounts.pool`): staking buys shares, rewards are a donation, closing a batch
redeems what is requested in it, and the check for slashing reconciles the
stake.  Every transaction of the accounts is one of the pool, or two
(`Accounts.Tx.sound`, `Accounts.Tx.grown`); a step of the chain leaves the pool
alone.

So without losses the rate never falls (`rate_never_falls`).  With losses the
pool never promises more than it holds, unless it holds nothing and the rate is
the fallback one (`pool_keeps_its_promise`); in that state the promise is broken
(`empty_pool_promises_at_par`).
-/

import BabyLst.Lib.SharePool
import BabyLst.World.Tracking

namespace BabyLst

open Lib Std

variable {T : Type} {d : Deployment T}

namespace Accounts

/-- **The accounts as a pool of shares.** -/
def pool (a : Accounts) : SharePool := ⟨a.staked, a.supply + a.requested, a.rate.atomics⟩

/-- The chain reports what is recorded, if it reports a delegation at all. -/
def NoLoss (a : Accounts) : Prop :=
  a.listed = true → a.staked + a.toUnstake ≤ a.delegated + a.toStake

/-! ### The pool -/

/-- A check reconciles the pool. -/
theorem Check.reconcile {a a' : Accounts} (h : a.Check a') :
    SharePool.Reconcile DECIMAL_FRACTIONAL a.pool a'.pool := by
  cases h with
  | unlisted => exact .skip
  | nothing => exact .skip
  | @full staked listed le pos staked_eq =>
    have hle : staked ≤ a.pool.stake := by
      show staked ≤ a.staked
      split_ifs at staked_eq with hlt
      · omega
      · omega
    exact .full hle

/-- A check that finds no loss settles it. -/
theorem Check.settle {a a' : Accounts} (h : a.Check a') (ha : a.NoLoss) :
    SharePool.Settle DECIMAL_FRACTIONAL a.pool a'.pool ∧ a'.NoLoss ∧ a'.staked = a.staked := by
  cases h with
  | unlisted => exact ⟨.skip, ha, rfl⟩
  | nothing => exact ⟨.skip, ha, rfl⟩
  | @full staked listed le pos staked_eq =>
    have hle := ha listed
    rw [if_neg (by omega)] at staked_eq
    subst staked_eq
    exact ⟨.full, ha, rfl⟩

/-- **A call of the hub is a transaction of the pool.** -/
theorem Call.pool {R : SharePool → SharePool → Prop} {a a' : Accounts} {ran : Bool}
    (h : a.Call ran a') (hcheck : ran = true → ∀ a₁, a.Check a₁ → R a.pool a₁.pool)
    (skip : ∀ p, R p p) : SharePool.Tx DECIMAL_FRACTIONAL R a.pool a'.pool := by
  cases h with
  | @stake t payment mint a₁ check pos minted =>
    have hr := hcheck rfl a₁ check
    cases t with
    | lstMint =>
      rw [Hub.mintAmountOf, decimalDivision_eq_ok] at minted
      obtain ⟨hne, -, rfl⟩ := minted
      have htx : SharePool.Tx DECIMAL_FRACTIONAL R a.pool
          (a₁.pool.deposit DECIMAL_FRACTIONAL payment) := .deposit hr payment hne
      have heq : a₁.pool.deposit DECIMAL_FRACTIONAL payment =
          (a₁.stake payment (payment * DECIMAL_FRACTIONAL / a₁.rate.atomics)).pool := by
        simp only [SharePool.deposit, SharePool.refresh, Accounts.pool, Accounts.stake, Hub.rateOf,
          Nat.add_right_comm]
      rw [← heq]
      exact htx
    | stakeRewards =>
      rw [Hub.mintAmountOf, pure_eq_ok] at minted
      subst minted
      exact SharePool.Tx.donate hr payment
  | @request amount a₁ funds check le =>
    have htx : SharePool.Tx DECIMAL_FRACTIONAL R a.pool a₁.pool := .check (hcheck rfl a₁ check)
    have hsupply := check.frame.2.1
    have hshares : a₁.supply - amount + (a₁.requested + amount) = a₁.supply + a₁.requested := by
      omega
    have heq : ((a₁.request amount).credit funds).pool = a₁.pool := by
      simp only [Accounts.pool, Accounts.request, Accounts.credit, hshares]
    rw [heq]
    exact htx
  | @close amount a₁ funds check le enough listed =>
    have hsupply := check.frame.2.1
    have hshares : a₁.supply + a₁.requested - (a₁.requested + amount) = a₁.supply - amount := by
      omega
    have hle : a₁.requested + amount ≤ a₁.pool.shares := by
      simp only [Accounts.pool]
      omega
    have htx : SharePool.Tx DECIMAL_FRACTIONAL R a.pool
        (a₁.pool.redeem DECIMAL_FRACTIONAL (a₁.requested + amount)) :=
      .redeem (a₁.requested + amount) (hcheck rfl a₁ check) hle enough (skip _)
    have heq : ((a₁.close amount).credit funds).pool =
        a₁.pool.redeem DECIMAL_FRACTIONAL (a₁.requested + amount) := by
      simp only [Accounts.pool, Accounts.close, Accounts.credit, SharePool.redeem, hshares,
        Nat.add_zero]
      rfl
    rw [heq]
    exact htx
  | @check a₁ funds check =>
    have htx : SharePool.Tx DECIMAL_FRACTIONAL R a.pool a₁.pool := .check (hcheck rfl a₁ check)
    exact htx
  | pay => exact .check (skip _)
  | quiet => exact .check (skip _)

/-- **A transaction with losses keeps the pool sound.** -/
theorem Tx.sound {a a' : Accounts} {ran : Bool} (h : a.Tx ran a')
    (ha : a.pool.Sound DECIMAL_FRACTIONAL) : a'.pool.Sound DECIMAL_FRACTIONAL := by
  have skip : ∀ p, SharePool.Reconcile DECIMAL_FRACTIONAL p p := fun _ => .skip
  cases h with
  | call call => exact (call.pool (fun _ _ h => h.reconcile) skip).sound ha
  | unstake call check =>
    exact check.reconcile.sound ((call.pool (fun _ _ h => h.reconcile) skip).sound ha)
  | @burn amount a' le check =>
    have hburn : (a.burn amount).pool = a.pool.burn amount := by
      simp only [Accounts.pool, Accounts.burn, SharePool.burn]
      congr 1
      omega
    have hle : amount ≤ a.pool.shares := le.trans (Nat.le_add_right _ _)
    exact (SharePool.Tx.burn amount hle (hburn ▸ check.reconcile)).sound ha
  | still => exact ha

/-- A call of the hub loses nothing. -/
theorem Call.noLoss {a a' : Accounts} (h : a.Call true a') (ha : a.NoLoss) : a'.NoLoss := by
  cases h with
  | @stake t payment mint a₁ check pos minted =>
    obtain ⟨-, h₁, -⟩ := check.settle ha
    intro hlisted
    have hle := h₁ hlisted
    simp only [Accounts.stake]
    omega
  | request funds check le => exact (check.settle ha).2.1
  | @close amount a₁ funds check le enough listed =>
    obtain ⟨-, h₁, -⟩ := check.settle ha
    intro hlisted
    have hle := h₁ hlisted
    simp only [Accounts.close, Accounts.credit]
    omega
  | check funds check => exact (check.settle ha).2.1

/-- **A transaction without losses does not lower the rate**, as long as tokens
remain. -/
theorem Tx.grown {a a' : Accounts} {ran : Bool} (h : a.Tx ran a') (ha : ran = true → a.NoLoss)
    (hpool : a.pool.Grown DECIMAL_FRACTIONAL)
    (keep : a.pool.shares ≠ 0 → a'.pool.shares ≠ 0) :
    a'.pool.Grown DECIMAL_FRACTIONAL ∧ a.pool.rate ≤ a'.pool.rate := by
  have skip : ∀ p, SharePool.Settle DECIMAL_FRACTIONAL p p := fun _ => .skip
  have hone := DECIMAL_FRACTIONAL_pos
  cases h with
  | call call =>
    exact (call.pool (fun hran _ h => (h.settle (ha hran)).1) skip).le_rate hone hpool keep
  | @unstake a₁ a' call check =>
    have hcall := call.pool (fun hran _ h => (h.settle (ha hran)).1) skip
    have hcheck := (check.settle (call.noLoss (ha rfl))).1
    obtain ⟨hrequested, hsupply, -⟩ := check.frame
    have hshares : a'.pool.shares = a₁.pool.shares := by
      simp only [Accounts.pool, hrequested, hsupply]
    obtain ⟨hgrown, hle⟩ := hcall.le_rate hone hpool fun h => hshares ▸ keep h
    obtain ⟨hgrown', hle', -⟩ :=
      hcheck.grown hgrown.backed hone hgrown.one_le hgrown.positive
    exact ⟨hgrown', hle.trans hle'⟩
  | @burn amount a' le check =>
    have hburn : (a.burn amount).pool = a.pool.burn amount := by
      simp only [Accounts.pool, Accounts.burn, SharePool.burn]
      congr 1
      omega
    have hle : amount ≤ a.pool.shares := le.trans (Nat.le_add_right _ _)
    have hnoloss : (a.burn amount).NoLoss := ha rfl
    have hsettle := (check.settle hnoloss).1
    rw [hburn] at hsettle
    exact (SharePool.Tx.burn amount hle hsettle).le_rate hone hpool keep
  | still => exact ⟨hpool, le_rfl⟩

end Accounts

/-! ### Worlds -/

/-- The tokens outstanding: the supply, and what is requested in the current
batch. -/
def World.outstanding (d : Deployment T) (w : World T) : ℕ :=
  d.cw20.totalSupply w.token.cw20 + w.hub.currentBatch.requestedLstTokenAmount

/-- A move that is no transaction leaves the pool alone. -/
theorem Move.pool {b b' : Books} {act : Action} (h : Move d b act b') (regular : b.Regular d) :
    (∃ sender contract msg funds, act = .transact sender contract msg funds ∧
      b.accounts.Tx (msg.reconciles b.accounts.requested) b'.accounts) ∨
    b'.accounts.pool = b.accounts.pool := by
  cases h with
  | transact tx => exact .inl ⟨_, _, _, _, rfl, (tx.accounts regular).1⟩
  | credit => exact .inr rfl
  | within height_le time_le same =>
    rw [(regular.within height_le same).2]
    exact .inr rfl
  | enter height_le time_le later enough =>
    rw [(regular.entered height_le later).2]
    exact .inr rfl

theorem World.Created.pool {w : World T} (created : w.Created d) :
    (w.accounts d).pool = ⟨0, 0, DECIMAL_FRACTIONAL⟩ := by
  rw [created.reached.2]
  rfl

/-- The delegations add up to what is recorded, corrected by the pending
amounts, if the chain reports any. -/
def World.NoLoss (d : Deployment T) (w : World T) : Prop :=
  delegationList d w.delegations ≠ [] →
    w.hub.state.totalStakedAmount + (w.hub.pendingDelegation.current w.block.height).2 ≤
      delegated w.delegations + (w.hub.pendingDelegation.current w.block.height).1

theorem World.NoLoss.accounts {w : World T} (h : w.NoLoss d) : (w.accounts d).NoLoss := by
  intro hlisted
  refine h ?_
  rw [Ne, delegationList_eq_nil]
  simpa [World.accounts, World.books, Books.accounts] using hlisted

/-- **One step without losses**: a transaction that asks for the delegations
finds no less than is recorded, and tokens stay outstanding once they are. -/
structure GrowthStep (d : Deployment T) (w : World T) (act : Action) (w' : World T) : Prop where
  step : w.Step d act w'
  noLoss : ∀ sender contract msg funds, act = .transact sender contract msg funds →
    msg.reconciles w.hub.currentBatch.requestedLstTokenAmount = true → w.NoLoss d
  outstanding : w.outstanding d ≠ 0 → w'.outstanding d ≠ 0

theorem GrowthStep.grown {w w' : World T} {act : Action} (h : GrowthStep d w act w')
    (reached : w.Reached d) (hpool : (w.accounts d).pool.Grown DECIMAL_FRACTIONAL) :
    (w'.accounts d).pool.Grown DECIMAL_FRACTIONAL ∧
      (w.accounts d).pool.rate ≤ (w'.accounts d).pool.rate := by
  obtain ⟨hmove, -, -⟩ := reached.exec h.step
  rcases hmove.pool reached.regular with ⟨sender, contract, msg, funds, hact, htx⟩ | heq
  · exact htx.grown (fun hran => (h.noLoss _ _ _ _ hact hran).accounts) hpool h.outstanding
  · have heq' : (w'.accounts d).pool = (w.accounts d).pool := heq
    rw [heq']
    exact ⟨hpool, le_rfl⟩

/-- **Without losses the rate never falls**, and the tokens outstanding are never
worth more than is recorded. -/
theorem rate_never_falls {w w₁ w₂ : World T} {tr tr' : List (Action × World T)}
    (created : w.Created d) (run : Run (GrowthStep d) w tr w₁)
    (rest : Run (GrowthStep d) w₁ tr' w₂) :
    w₁.hub.state.lstExchangeRate.atomics ≤ w₂.hub.state.lstExchangeRate.atomics ∧
      w₂.hub.state.lstExchangeRate.mulFloor (w₂.outstanding d) ≤
        w₂.hub.state.totalStakedAmount := by
  have start : (w.accounts d).pool.Grown DECIMAL_FRACTIONAL := by
    rw [created.pool]
    exact ⟨by simp [SharePool.Backed], le_rfl, fun _ => rfl⟩
  obtain ⟨reached₁, grown₁⟩ := created.reached.1.invariant run (fun h => h.step) start
    fun ht hgrown hstep => (hstep.grown ht hgrown).1
  obtain ⟨-, grown₂⟩ := reached₁.invariant rest (fun h => h.step) grown₁
    fun ht hgrown hstep => (hstep.grown ht hgrown).1
  refine ⟨?_, grown₂.backed.worth_le le_rfl⟩
  refine rest.monotone (P := fun w => w.Reached d ∧ (w.accounts d).pool.Grown DECIMAL_FRACTIONAL)
    (f := fun w => (w.accounts d).pool.rate) ⟨reached₁, grown₁⟩ ?_
  rintro t act u ⟨hreached, ht⟩ hstep
  obtain ⟨hgrown, hle⟩ := hstep.grown hreached ht
  exact ⟨⟨(hreached.exec hstep.step).2.2, hgrown⟩, hle⟩

instance (w : World T) : Decidable (w.NoLoss d) :=
  inferInstanceAs (Decidable (delegationList d w.delegations ≠ [] → _ ≤ _))

/-- The line finds no loss, and leaves tokens outstanding where there were some. -/
def ScriptLine.grows (w : World Token.Ledger) (line : ScriptLine) : Bool :=
  w.NoLoss sampleDeployment ∧ (w.outstanding sampleDeployment ≠ 0 →
    (w.next (line.action w)).outstanding sampleDeployment ≠ 0)

theorem World.line_grows {w w' : World Token.Ledger} {line : ScriptLine} {act : Action}
    (h : w.line (fun w line => line.grows w) line = some (act, w')) :
    GrowthStep sampleDeployment w act w' := by
  obtain ⟨hstep, rfl, hgrows⟩ := World.line_sound h
  obtain ⟨hnoloss, hkeep⟩ := of_decide_eq_true hgrows
  rw [World.next_of_step hstep] at hkeep
  exact ⟨hstep, fun _ _ _ _ _ _ => hnoloss, hkeep⟩

/-- 60 of 100 are unstaked, and rewards of 30 are staked: the rate has grown to
70 for 40. -/
theorem rate_never_falls_sample :
    ∃ tr w tr' w', Run (GrowthStep sampleDeployment) sampleWorld tr w ∧
      Run (GrowthStep sampleDeployment) w tr' w' ∧
      w.outstanding sampleDeployment = 100 ∧ w'.outstanding sampleDeployment = 40 ∧
      w'.hub.state.lstExchangeRate = ⟨1750000000000000000⟩ ∧
      w.hub.state.lstExchangeRate.atomics ≤ w'.hub.state.lstExchangeRate.atomics ∧
      w'.hub.state.lstExchangeRate.mulFloor (w'.outstanding sampleDeployment) ≤
        w'.hub.state.totalStakedAmount := by
  have run := playedFrom sampleWorld sampleStake World.line_grows (by decide +kernel)
  have rest := playedFrom (playEnd (World.line fun w line => line.grows w) sampleWorld sampleStake)
    (sampleUnstake 60 ++ [.send "dispatcher" "hub" (.hub .stakeRewards) [⟨"ubbn", 30⟩]])
    World.line_grows (by decide +kernel)
  exact ⟨_, _, _, _, run, rest, by decide +kernel, by decide +kernel, by decide +kernel,
    rate_never_falls sampleWorld_created run rest⟩

/-- What the tokens outstanding are worth is held, or nothing is held and the
rate is the fallback one. -/
def Hub.State.Promises (state : Hub.State) (outstanding : ℕ) : Prop :=
  (∀ amount ≤ outstanding, state.lstExchangeRate.mulFloor amount ≤ state.totalStakedAmount) ∨
    state.totalStakedAmount = 0 ∧ state.lstExchangeRate = Decimal.one

theorem Accounts.promises {a : Accounts} (h : a.pool.Sound DECIMAL_FRACTIONAL) {state : Hub.State}
    (hstaked : state.totalStakedAmount = a.staked) (hrate : state.lstExchangeRate = a.rate) :
    state.Promises (a.supply + a.requested) := by
  rcases h with hbacked | ⟨hzero, hone⟩
  · refine .inl fun amount hle => ?_
    rw [hstaked, hrate]
    exact hbacked.worth_le hle
  · refine .inr ⟨hstaked.trans hzero, hrate.trans ?_⟩
    have hone' : a.rate.atomics = DECIMAL_FRACTIONAL := hone
    rw [Decimal.one, ← hone']

/-- **The pool keeps its promise**, in every world reached and in whatever a
check for slashing finds there: what is outstanding is worth at most what is
recorded, unless nothing is recorded.  So where something is, the worth of any
batch can be taken from it. -/
theorem pool_keeps_its_promise {w w' : World T} {tr : List (Action × World T)}
    (created : w.Created d) (run : Run (World.Step d) w tr w') :
    ∀ state, state = w'.hub.state ∨
        Hub.queryActualState (w'.querier d) w'.hub (w'.env d.hub) w'.hub.state = .ok state →
      state.Promises (w'.outstanding d) ∧
      (state.totalStakedAmount ≠ 0 → ∀ amount ≤ w'.outstanding d, ∀ claim,
        decimalMultiplication amount state.lstExchangeRate = .ok claim →
          ∃ left, checkedSub state.totalStakedAmount claim = .ok left) := by
  have start : (w.accounts d).pool.Sound DECIMAL_FRACTIONAL := by
    rw [created.pool]
    exact .inr ⟨rfl, rfl⟩
  have keep : ∀ {t act u}, World.Reached d t → (t.accounts d).pool.Sound DECIMAL_FRACTIONAL →
      World.Step d t act u → (u.accounts d).pool.Sound DECIMAL_FRACTIONAL := by
    intro t act u hreached hsound hstep
    rcases (hreached.exec hstep).1.pool hreached.regular with
      ⟨sender, contract, msg, funds, -, htx⟩ | heq
    · exact htx.sound hsound
    · have heq' : (u.accounts d).pool = (t.accounts d).pool := heq
      rw [heq']
      exact hsound
  obtain ⟨reached, sound⟩ := created.reached.1.invariant run id start keep
  intro state hstate
  have promises : state.Promises (w'.outstanding d) := by
    rcases hstate with rfl | h
    · exact Accounts.promises sound rfl rfl
    · have answers : Answers d ((w'.books d).paid d ⟨d.token, []⟩) (w'.querier d) := w'.answers d
      have hcheck := (Hub.queryActualState_ok h).accounts answers reached.regular rfl rfl rfl
      exact Accounts.promises (hcheck.reconcile.sound sound) rfl rfl
  refine ⟨promises, fun hne amount hle claim hclaim => ?_⟩
  rw [decimalMultiplication_eq_ok] at hclaim
  rcases promises with hworth | ⟨hzero, -⟩
  · exact ⟨_, checkedSub_eq_ok.2 ⟨hclaim.2 ▸ hworth amount hle, rfl⟩⟩
  · exact absurd hzero hne

/-- 100 are staked and 60 unstaked, and the check finds the delegation slashed by
10: 40 tokens are worth 30. -/
theorem pool_keeps_its_promise_sample :
    let w := sampleEnd (sampleStake ++ sampleUnstake 60 ++
      [.slashes ⟨910, 8100⟩ sampleValidator 90, toHub "bob" .checkSlashing])
    w.outstanding sampleDeployment = 40 ∧ w.hub.state.totalStakedAmount = 30 ∧
      w.hub.state.lstExchangeRate = ⟨750000000000000000⟩ ∧
    ∀ state, state = w.hub.state ∨ Hub.queryActualState (w.querier sampleDeployment) w.hub
        (w.env "hub") w.hub.state = .ok state →
      state.Promises (w.outstanding sampleDeployment) ∧
      (state.totalStakedAmount ≠ 0 → ∀ amount ≤ w.outstanding sampleDeployment, ∀ claim,
        decimalMultiplication amount state.lstExchangeRate = .ok claim →
          ∃ left, checkedSub state.totalStakedAmount claim = .ok left) := by
  intro w
  have facts : w.outstanding sampleDeployment = 40 ∧ w.hub.state.totalStakedAmount = 30 ∧
      w.hub.state.lstExchangeRate = ⟨750000000000000000⟩ := by
    decide +kernel
  obtain ⟨outstanding, staked, rate⟩ := facts
  exact ⟨outstanding, staked, rate,
    pool_keeps_its_promise sampleWorld_created (sampleRun _ (by decide +kernel))⟩

/-- **An empty pool promises at par**: 50 of 100 are to be undelegated, and a
slashing leaves just that.  The check finds a delegation and nothing recorded,
so the 50 tokens left have the fallback rate, and their worth cannot be taken. -/
theorem empty_pool_promises_at_par :
    ∃ tr w w', sampleWorld.Created sampleDeployment ∧
      Run (TrackedStep sampleDeployment) sampleWorld tr w ∧
      delegationList sampleDeployment w.delegations ≠ [] ∧
      w.Step sampleDeployment (.transact "bob" "hub" (.hub .checkSlashing) []) w' ∧
      w'.outstanding sampleDeployment = 50 ∧ w'.hub.state.totalStakedAmount = 0 ∧
      decimalMultiplication 50 w'.hub.state.lstExchangeRate = .ok 50 ∧
      checkedSub w'.hub.state.totalStakedAmount 50 =
        .error (.err (.overflow "Cannot Sub with given operands")) ∧
      Hub.processUndelegationsForBatch (w'.querier sampleDeployment) w'.hub (w'.env "hub")
        ⟨2, 50⟩ w'.hub.state = .error (.err (.overflow "Cannot Sub with given operands")) := by
  have run := playedFrom sampleWorld (sampleStake ++ sampleUnstake 50 ++
    [.slashes ⟨910, 8100⟩ sampleValidator 50]) World.line_inFull (by decide +kernel)
  have step := World.step_next (playEnd (World.line fun w line => line.inFull w) sampleWorld
    (sampleStake ++ sampleUnstake 50 ++ [.slashes ⟨910, 8100⟩ sampleValidator 50]))
    (.transact "bob" "hub" (.hub .checkSlashing) []) (by decide +kernel)
  exact ⟨_, _, _, sampleWorld_created, run, by decide +kernel, step, by decide +kernel,
    by decide +kernel, by rfl, by rfl, by rfl⟩

end BabyLst
