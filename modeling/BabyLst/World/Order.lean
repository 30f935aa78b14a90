/-
# The order of withdrawals

Withdrawals of different users and releases, called one after the other in one
block, a failing call leaving everything as it was: who comes first changes
neither who is paid nor how much, nor what is left (`withdrawals_commute`), as
long as nobody attaches coins of the staking denom to such a call.  Coins that a
call brings along are on the hub when it releases, and may be what a batch
lacked (`attached_coins_depend_on_order`).

The calls are an instance of `Lib.Settling`: each does first what
`ProcessWithdrawRequests` does, and then pays from a settled hub.
-/

import BabyLst.Hub.Settled
import BabyLst.Lib.Settle
import BabyLst.World.Solvency

namespace BabyLst

open Lib Std

variable {T : Type} {d : Deployment T}

/-- A call of the collection. -/
inductive PayoutCall
  | withdraw (user : Addr) (funds : List Coin)
  | process (sender : Addr) (funds : List Coin)
  deriving DecidableEq

namespace PayoutCall

def sender : PayoutCall → Addr
  | .withdraw user _ => user
  | .process sender _ => sender

def funds : PayoutCall → List Coin
  | .withdraw _ funds => funds
  | .process _ funds => funds

def msg : PayoutCall → HubMsg
  | .withdraw _ _ => .withdrawUnstaked
  | .process _ _ => .processWithdrawRequests

/-- The user who asks to be paid. -/
def user : PayoutCall → Option Addr
  | .withdraw user _ => some user
  | .process _ _ => none

/-- The transaction of a call. -/
def action (d : Deployment T) (c : PayoutCall) : Action :=
  .transact c.sender d.hub (.hub c.msg) c.funds

/-- What the users were paid so far, with the payment of a call noted. -/
def note (c : PayoutCall) (amount : ℕ) (payments : Addr → Option ℕ) : Addr → Option ℕ :=
  match c with
  | .withdraw user _ => Function.update payments user (some amount)
  | .process _ _ => payments

end PayoutCall

/-- What the hub's response to a message of a user sends to the user. -/
def World.sentBy (d : Deployment T) (w : World T) (user : Addr) (msg : HubMsg)
    (funds : List Coin) : ℕ :=
  match callContract d w user d.hub funds (.hub msg) with
  | .ok r => Hub.sentTo user r.2
  | .error _ => 0

/-- What the hub's response to a call sends to the caller. -/
def World.paidBy (d : Deployment T) (w : World T) (c : PayoutCall) : ℕ :=
  match callContract d w c.sender d.hub c.funds (.hub c.msg) with
  | .ok r => Hub.sentTo c.sender r.2
  | .error _ => 0

/-- The world and what the users were paid, after one more call; a failing call
leaves both as they were. -/
def World.tryCall (d : Deployment T) (s : World T × (Addr → Option ℕ)) (c : PayoutCall) :
    World T × (Addr → Option ℕ) :=
  match s.1.exec d (c.action d) with
  | .ok w => (w, c.note (s.1.paidBy d c) s.2)
  | .error _ => s

/-- The world and what the users were paid, after the calls in the given order. -/
def World.tryAll (d : Deployment T) (w : World T) (calls : List PayoutCall) :
    World T × (Addr → Option ℕ) :=
  calls.foldl (World.tryCall d) (w, fun _ => none)

/-! ### One call -/

/-- A transaction with the hub, by its call and what comes of it. -/
theorem World.exec_hub {w w' : World T} {sender : Addr} {msg : HubMsg} {funds : List Coin} :
    w.exec d (.transact sender d.hub (.hub msg) funds) = .ok w' ↔
      d.IsUser sender ∧ ∃ w₁ messages,
        callContract d w sender d.hub funds (.hub msg) = .ok (w₁, messages) ∧
        deliverAll d 5 w₁ d.hub messages = .ok w' := by
  simp only [World.exec, bind_eq_ok, require_eq_ok, CALL_DEPTH, deliverAll_call]
  constructor
  · rintro ⟨_, huser, h⟩
    exact ⟨huser, h⟩
  · rintro ⟨huser, h⟩
    exact ⟨(), huser, h⟩

/-- A call of the hub that brings no coins of the staking denom. -/
theorem callContract_bare {w w₁ : World T} {sender : Addr} {msg : HubMsg} {funds : List Coin}
    {messages : List CosmosMsg} (bare : fundsIn d.denom funds = 0) :
    callContract d w sender d.hub funds (.hub msg) = .ok (w₁, messages) ↔
      ∃ hub res, Hub.execute (w.querier d) w.hub (w.env d.hub) ⟨sender, funds⟩ msg =
        .ok (hub, res) ∧ w₁ = { w with hub := hub } ∧ messages = res.messages := by
  simp only [callContract, bare, Nat.add_zero, bind_eq_ok, require_eq_ok, Prod.exists, pure_eq_ok,
    Prod.mk.injEq]
  constructor
  · rintro ⟨_, -, hub, res, hx, rfl, rfl⟩
    exact ⟨hub, res, hx, rfl, rfl⟩
  · rintro ⟨hub, res, hx, rfl, rfl⟩
    exact ⟨(), trivial, hub, res, hx, rfl, rfl⟩

/-- The hub can release. -/
def World.Releases (d : Deployment T) (w : World T) : Prop :=
  ∃ r, Hub.executeProcessWithdrawRequests (w.querier d) w.hub (w.env d.hub) = .ok r

/-- The world once the hub has released what it can. -/
def World.settle (d : Deployment T) (w : World T) : World T :=
  match Hub.executeProcessWithdrawRequests (w.querier d) w.hub (w.env d.hub) with
  | .ok r => { w with hub := r.1 }
  | .error _ => w

/-- The hub has nothing left to release. -/
def World.Released (d : Deployment T) (w : World T) : Prop :=
  ∃ left, Hub.Settled (w.querier d) w.hub (w.env d.hub) left

/-- The world once a user is paid. -/
def World.payout (w : World T) (user : Addr) : World T :=
  { w with
    hub := w.hub.afterPayout user
    bank := w.bank - w.hub.withdrawal user none }

/-- The world once a user is paid for a list of batches, or for all. -/
def World.payoutFor (w : World T) (user : Addr) (batchIds : Option (List ℕ)) : World T :=
  { w with
    hub := w.hub.afterPayoutFor user batchIds
    bank := w.bank - w.hub.withdrawal user batchIds }

theorem World.Released.settle {w : World T} (h : w.Released d) : w.Releases d ∧ w.settle d = w := by
  obtain ⟨left, h⟩ := h
  obtain ⟨res, hx, -⟩ := h.process
  refine ⟨⟨_, hx⟩, ?_⟩
  unfold World.settle
  rw [hx]

/-- A hub that can release is settled by it, and keeps its parameters. -/
theorem World.Releases.settled {w : World T} (h : w.Releases d) :
    (w.settle d).Released d ∧ (w.settle d).hub.parameters = w.hub.parameters ∧
      ∃ res, Hub.executeProcessWithdrawRequests (w.querier d) w.hub (w.env d.hub) =
        .ok ((w.settle d).hub, res) ∧ res.messages = [] ∧
        w.settle d = { w with hub := (w.settle d).hub } := by
  obtain ⟨⟨hub, res⟩, hx⟩ := h
  have hsettle : w.settle d = { w with hub := hub } := by
    unfold World.settle
    rw [hx]
  obtain ⟨st₁, events, free, left, -, -, hrate, -, rfl, hmessages, hsettled⟩ :=
    Hub.executeProcessWithdrawRequests_settles hx
  obtain ⟨-, released, rfl, -⟩ := Hub.processWithdrawRate_ok hrate
  rw [hsettle]
  exact ⟨⟨left, hsettled.congr rfl⟩, rfl, res, hx, hmessages, rfl⟩

/-- Settling a world settles it, or leaves it as it is. -/
theorem World.settled_settle_iff {w : World T} : (w.settle d).Released d ↔ w.Releases d := by
  refine ⟨fun h => ?_, fun h => h.settled.1⟩
  by_contra hnot
  have hsame : w.settle d = w := by
    unfold World.settle
    cases hx : Hub.executeProcessWithdrawRequests (w.querier d) w.hub (w.env d.hub) with
    | ok r => exact absurd ⟨r, hx⟩ hnot
    | error e => rfl
  rw [hsame] at h
  exact hnot h.settle.1

/-- **A call of `ProcessWithdrawRequests`.** -/
theorem World.exec_process {w w' : World T} {sender : Addr} {funds : List Coin}
    (bare : fundsIn d.denom funds = 0) :
    w.exec d ((PayoutCall.process sender funds).action d) = .ok w' ↔
      d.IsUser sender ∧ w.hub.parameters.paused = false ∧ w.Releases d ∧ w' = w.settle d := by
  unfold PayoutCall.action PayoutCall.sender PayoutCall.msg PayoutCall.funds
  simp only [World.exec_hub, callContract_bare bare, Hub.execute, Hub.dispatch, bind_eq_ok,
    require_eq_ok]
  constructor
  · rintro ⟨huser, _, _, ⟨hub, res, ⟨_, hpaused, hx⟩, rfl, rfl⟩, hdeliver⟩
    have hreleases : w.Releases d := ⟨_, hx⟩
    obtain ⟨-, -, res', hx', hmessages, hsettle⟩ := hreleases.settled
    obtain ⟨rfl, rfl⟩ := Prod.mk.inj (Except.ok.inj (hx.symm.trans hx'))
    rw [hmessages, deliverAll_nil] at hdeliver
    exact ⟨huser, hpaused, hreleases, (Except.ok.inj hdeliver).symm.trans hsettle.symm⟩
  · rintro ⟨huser, hpaused, hreleases, rfl⟩
    obtain ⟨-, -, res, hx, hmessages, hsettle⟩ := hreleases.settled
    refine ⟨huser, _, _, ⟨_, res, ⟨(), hpaused, hx⟩, rfl, rfl⟩, ?_⟩
    rw [hmessages, deliverAll_nil, ← hsettle]

/-- The hub pays a user from its bank balance. -/
theorem deliverAll_bankSend {w w' : World T} {n : ℕ} {user : Addr} {amount : ℕ} :
    deliverAll d (n + 1) w d.hub [.bankSend user ⟨d.denom, amount⟩] = .ok w' ↔
      user ≠ d.hub ∧ amount ≤ w.bank ∧ w' = { w with bank := w.bank - amount } := by
  simp only [deliverAll_cons, deliver, bind_eq_ok, require_eq_ok, pure_eq_ok, Prod.mk.injEq,
    deliverAll_nil, Except.ok.injEq, true_and]
  constructor
  · rintro ⟨_, _, _, _, ⟨_, ⟨hne, hle⟩, rfl, rfl, rfl⟩, hinner, rfl⟩
    rw [deliverAll_nil] at hinner
    exact ⟨hne, hle, (Except.ok.inj hinner).symm⟩
  · rintro ⟨hne, hle, rfl⟩
    exact ⟨_, _, _, _, ⟨(), ⟨hne, hle⟩, rfl, rfl, rfl⟩, deliverAll_nil .., rfl⟩

/-- A withdrawal, for a list of batches or for all. -/
theorem Hub.execute_withdrawMsg {q : Querier} {st hub : Hub.Storage} {env : Env}
    {info : MessageInfo} {res : Response} {batchIds : Option (List ℕ)} :
    Hub.execute q st env info (Hub.withdrawMsg batchIds) = .ok (hub, res) ↔
      st.parameters.paused = false ∧
        Hub.executeWithdrawUnstakedImpl q st env info batchIds = .ok (hub, res) := by
  cases batchIds with
  | none => simp [Hub.execute, Hub.dispatch, Hub.withdrawMsg, Hub.executeWithdrawUnstaked]
  | some ids =>
    simp [Hub.execute, Hub.dispatch, Hub.withdrawMsg, Hub.executeWithdrawUnstakedForBatches]

/-- Once the hub has released, the unclaimed balance is part of the bank balance. -/
theorem World.Releases.unclaimed_le {w : World T} (h : w.Releases d) (reached : w.Reached d) :
    (w.settle d).hub.state.unclaimedUnstakedBalance ≤ w.bank := by
  obtain ⟨⟨left, hsettled⟩, hparams, -, -, -, hsettle⟩ := h.settled
  have hdenom : w.hub.parameters.stakingCoinDenom = d.denom := reached.regular.denom_eq
  obtain ⟨-, -, hfree⟩ := Hub.actualFreeBalance_eq_ok.1 hsettled.free_eq
  have hsame : ((w.settle d).querier d).balance d.hub
      (w.settle d).hub.parameters.stakingCoinDenom = w.bank := by
    rw [hparams, hdenom, hsettle]
    exact if_pos ⟨rfl, rfl⟩
  rw [← hsame]
  change ((w.settle d).querier d).balance d.hub _ - _ = _ at hfree
  omega

/-- **A withdrawal** settles the hub and pays the user. -/
theorem World.exec_withdrawMsg {w w' : World T} {user : Addr} {funds : List Coin} {paid : ℕ}
    (reached : w.Reached d) (bare : fundsIn d.denom funds = 0) (batchIds : Option (List ℕ)) :
    (w.exec d (.transact user d.hub (.hub (Hub.withdrawMsg batchIds)) funds) = .ok w' ∧
      w.sentBy d user (Hub.withdrawMsg batchIds) funds = paid) ↔
      d.IsUser user ∧ w.hub.parameters.paused = false ∧ w.Releases d ∧
      (w.settle d).hub.withdrawal user batchIds ≠ 0 ∧
      (w.settle d).hub.withdrawal user batchIds < 2 ^ 128 ∧
      (w.settle d).hub.withdrawal user batchIds ≤
        (w.settle d).hub.state.unclaimedUnstakedBalance ∧
      w' = (w.settle d).payoutFor user batchIds ∧
      paid = (w.settle d).hub.withdrawal user batchIds := by
  have hdenom : w.hub.parameters.stakingCoinDenom = d.denom := reached.regular.denom_eq
  unfold World.sentBy
  rw [World.exec_hub]
  constructor
  · rintro ⟨⟨huser, w₁, messages, hcall, hdeliver⟩, hpaid⟩
    rw [hcall] at hpaid
    obtain ⟨hub, res, hx, rfl, rfl⟩ := (callContract_bare bare).1 hcall
    obtain ⟨hpaused, hx⟩ := Hub.execute_withdrawMsg.1 hx
    have hreleases : w.Releases d := Hub.executeWithdrawUnstakedImpl_releases hx
    obtain ⟨-, hparams, res', hprocess, -, hsettle⟩ := hreleases.settled
    obtain ⟨hpos, hfits, hle, hresult⟩ := (Hub.executeWithdrawUnstakedImpl_settled hprocess
      ⟨user, funds⟩ batchIds (r := (hub, res.messages))).1 ⟨res, hx, rfl⟩
    obtain ⟨rfl, hmessages⟩ := Prod.mk.inj hresult
    rw [hmessages, hparams, hdenom] at hdeliver
    obtain ⟨-, -, rfl⟩ := deliverAll_bankSend.1 hdeliver
    rw [hmessages] at hpaid
    refine ⟨huser, hpaused, hreleases, hpos, hfits, hle, ?_, ?_⟩
    · rw [hsettle]
      rfl
    · simpa [Hub.sentTo] using hpaid.symm
  · rintro ⟨huser, hpaused, hreleases, hpos, hfits, hle, rfl, rfl⟩
    obtain ⟨-, hparams, res', hprocess, -, hsettle⟩ := hreleases.settled
    obtain ⟨res, hx, hmessages⟩ := (Hub.executeWithdrawUnstakedImpl_settled hprocess
      ⟨user, funds⟩ batchIds (r := (_, _))).2 ⟨hpos, hfits, hle, rfl⟩
    have hcall := (callContract_bare (d := d) bare).2
      ⟨_, res, Hub.execute_withdrawMsg.2 ⟨hpaused, hx⟩, rfl, rfl⟩
    refine ⟨⟨huser, _, _, hcall, ?_⟩, ?_⟩
    · rw [hmessages, hparams, hdenom]
      refine deliverAll_bankSend.2 ⟨huser.1, hle.trans (hreleases.unclaimed_le reached), ?_⟩
      rw [hsettle]
      rfl
    · rw [hcall]
      dsimp only
      rw [hmessages]
      simp [Hub.sentTo]

/-- **A call of `WithdrawUnstaked`**: it settles the hub and pays the user. -/
theorem World.exec_withdraw {w w' : World T} {user : Addr} {funds : List Coin} {paid : ℕ}
    (reached : w.Reached d) (bare : fundsIn d.denom funds = 0) :
    (w.exec d ((PayoutCall.withdraw user funds).action d) = .ok w' ∧
      w.paidBy d (.withdraw user funds) = paid) ↔
      d.IsUser user ∧ w.hub.parameters.paused = false ∧ w.Releases d ∧
      (w.settle d).hub.withdrawal user none ≠ 0 ∧
      (w.settle d).hub.withdrawal user none < 2 ^ 128 ∧
      (w.settle d).hub.withdrawal user none ≤
        (w.settle d).hub.state.unclaimedUnstakedBalance ∧
      w' = (w.settle d).payout user ∧ paid = (w.settle d).hub.withdrawal user none :=
  World.exec_withdrawMsg reached bare none

/-- A payment that the unclaimed balance is enough for leaves a settled world
settled. -/
theorem World.Released.payoutFor {w : World T} (h : w.Released d) (reached : w.Reached d)
    {user : Addr} {batchIds : Option (List ℕ)}
    (enough : w.hub.withdrawal user batchIds ≤ w.hub.state.unclaimedUnstakedBalance) :
    (w.payoutFor user batchIds).Released d := by
  obtain ⟨left, hsettled⟩ := h
  refine ⟨left, hsettled.afterPayoutFor enough ?_⟩
  have hdenom : w.hub.parameters.stakingCoinDenom = d.denom := reached.regular.denom_eq
  show (if d.hub = d.hub ∧ _ = d.denom then (w.payoutFor user batchIds).bank else 0) =
    (if d.hub = d.hub ∧ _ = d.denom then w.bank else 0) - _
  rw [if_pos ⟨rfl, hdenom⟩, if_pos ⟨rfl, hdenom⟩]
  rfl

/-! ### Calls that settle first -/

/-- What is due to a user is within the unclaimed balance. -/
theorem World.Sound.due_le {w : World T} (h : w.Sound d) (user : Addr) :
    w.hub.withdrawal user none ≤ w.hub.state.unclaimedUnstakedBalance := by
  have hclaims := Hub.claims_withdrawal w.hub user none fun ids hids => by cases hids
  have hcovered : w.hub.claims ≤ w.hub.state.unclaimedUnstakedBalance := h.accounted.covered
  omega

/-- What a call asks of a settled world. -/
structure PayoutCall.Allowed (d : Deployment T) (c : PayoutCall) (w : World T) : Prop where
  user : d.IsUser c.sender
  running : w.hub.parameters.paused = false
  released : w.Released d
  due : ∀ user, c.user = some user →
    w.hub.withdrawal user none ≠ 0 ∧ w.hub.withdrawal user none < 2 ^ 128

/-- What an allowed call does to a settled world, and to the note of payments. -/
def PayoutCall.effect (c : PayoutCall) (s : World T × (Addr → Option ℕ)) :
    World T × (Addr → Option ℕ) :=
  match c with
  | .withdraw user funds =>
    (s.1.payout user, (PayoutCall.withdraw user funds).note (s.1.hub.withdrawal user none) s.2)
  | .process _ _ => s

theorem PayoutCall.allAtOnce (c : PayoutCall) : (c.action d).AllAtOnce := by
  intro sender contract ids funds h
  cases c <;> simp [PayoutCall.action, PayoutCall.msg] at h

/-- A world that a call settles is sound. -/
theorem PayoutCall.Allowed.sound {c : PayoutCall} {w : World T} (h : c.Allowed d (w.settle d))
    (sound : w.Sound d) : (w.settle d).Sound d := by
  have hreleases := World.settled_settle_iff.1 h.released
  have hpaused : w.hub.parameters.paused = false := by
    rw [← hreleases.settled.2.1]
    exact h.running
  have hstep : w.Step d ((PayoutCall.process c.sender []).action d) (w.settle d) :=
    (World.exec_process rfl).2 ⟨h.user, hpaused, hreleases, rfl⟩
  exact sound.step hstep (PayoutCall.allAtOnce _)

/-- A payment leaves a settled world settled. -/
theorem World.Released.payout {w : World T} (h : w.Released d) (sound : w.Sound d) (user : Addr) :
    (w.payout user).Released d :=
  h.payoutFor sound.reached (sound.due_le user)

/-- Two payments commute. -/
theorem World.payout_comm (w : World T) {user user' : Addr} (ne : user ≠ user') :
    (w.payout user).payout user' = (w.payout user').payout user := by
  have hhub : ((w.payout user).payout user').hub = ((w.payout user').payout user).hub :=
    Hub.afterPayout_comm w.hub ne
  have hbank : ((w.payout user).payout user').bank = ((w.payout user').payout user).bank := by
    show w.bank - _ - (w.hub.afterPayout user).withdrawal user' none =
      w.bank - _ - (w.hub.afterPayout user').withdrawal user none
    rw [(Hub.withdrawal_afterPayout w.hub ne).1, (Hub.withdrawal_afterPayout w.hub ne.symm).1,
      Nat.sub_right_comm]
  calc (w.payout user).payout user'
      = { w with
          hub := ((w.payout user).payout user').hub
          bank := ((w.payout user).payout user').bank } := rfl
    _ = { w with
          hub := ((w.payout user').payout user).hub
          bank := ((w.payout user').payout user).bank } := by rw [hhub, hbank]
    _ = (w.payout user').payout user := rfl

/-- An allowed call in a settled world keeps it sound and settled. -/
theorem PayoutCall.Allowed.effect {c : PayoutCall} {s : World T × (Addr → Option ℕ)}
    (h : c.Allowed d s.1) (sound : s.1.Sound d) :
    (c.effect s).1.Sound d ∧ (c.effect s).1.Released d := by
  cases c with
  | process sender funds => exact ⟨sound, h.released⟩
  | withdraw user funds =>
    obtain ⟨hreleases, hsettle⟩ := h.released.settle
    obtain ⟨hpos, hfits⟩ := h.due user rfl
    obtain ⟨hexec, -⟩ : s.1.exec d ((PayoutCall.withdraw user []).action d) =
          .ok (s.1.payout user) ∧
        s.1.paidBy d (.withdraw user []) = s.1.hub.withdrawal user none := by
      refine (World.exec_withdraw sound.reached rfl).2 ?_
      rw [hsettle]
      exact ⟨h.user, h.running, hreleases, hpos, hfits, sound.due_le user, rfl, rfl⟩
    exact ⟨sound.step hexec (PayoutCall.allAtOnce _), h.released.payout sound user⟩

/-- **Withdrawals and releases settle first.** -/
def payouts (d : Deployment T) : Settling (World T × (Addr → Option ℕ)) PayoutCall where
  good s := s.1.Sound d
  settle s := (s.1.settle d, s.2)
  allowed c s := c.Allowed d s.1
  effect := PayoutCall.effect
  apart a b := ∀ user, a.user = some user → b.user ≠ some user
  apart_symm h user hb ha := h user ha hb
  settled sound h := by
    refine ⟨h.sound sound, ?_⟩
    exact Prod.ext h.released.settle.2 rfl
  effect_settled sound _ h := by
    obtain ⟨hsound, hreleased⟩ := h.effect sound
    exact ⟨hsound, Prod.ext hreleased.settle.2 rfl⟩
  allowed_iff {s a b} sound _ apart ha := by
    cases a with
    | process sender funds => exact Iff.rfl
    | withdraw user funds =>
      have hdue : ∀ user', b.user = some user' →
          (s.1.payout user).hub.withdrawal user' none = s.1.hub.withdrawal user' none := by
        intro user' hb
        have hne : user ≠ user' := fun heq => apart user rfl (heq ▸ hb)
        exact (Hub.withdrawal_afterPayout s.1.hub hne).1
      have hreleased := (ha.effect sound).2
      constructor
      · rintro ⟨huser, hrunning, -, h⟩
        refine ⟨huser, hrunning, ha.released, fun user' hb => ?_⟩
        rw [← hdue user' hb]
        exact h user' hb
      · rintro ⟨huser, hrunning, -, h⟩
        refine ⟨huser, hrunning, hreleased, fun user' hb => ?_⟩
        show (s.1.payout user).hub.withdrawal user' none ≠ 0 ∧
          (s.1.payout user).hub.withdrawal user' none < 2 ^ 128
        rw [hdue user' hb]
        exact h user' hb
  effect_comm {s a b} _ _ apart _ _ := by
    cases a with
    | process sender funds => rfl
    | withdraw user funds =>
      cases b with
      | process sender funds' => rfl
      | withdraw user' funds' =>
        have hne : user ≠ user' := fun heq => apart user rfl (heq ▸ rfl)
        have hdue := (Hub.withdrawal_afterPayout s.1.hub hne).1
        have hdue' := (Hub.withdrawal_afterPayout s.1.hub hne.symm).1
        refine Prod.ext ?_ ?_
        · show (s.1.payout user).payout user' = (s.1.payout user').payout user
          exact World.payout_comm s.1 hne
        · show Function.update (Function.update s.2 user _) user'
              (some ((s.1.payout user).hub.withdrawal user' none)) =
            Function.update (Function.update s.2 user' _) user
              (some ((s.1.payout user').hub.withdrawal user none))
          rw [show (s.1.payout user).hub.withdrawal user' none = _ from hdue,
            show (s.1.payout user').hub.withdrawal user none = _ from hdue',
            Function.update_comm hne]

/-- **A call of the collection is such a call**, if it brings no coins of the
staking denom. -/
theorem World.tryCall_eq {s : World T × (Addr → Option ℕ)} {c : PayoutCall} (sound : s.1.Sound d)
    (bare : fundsIn d.denom c.funds = 0) : World.tryCall d s c = (payouts d).attempt s c := by
  by_cases h : c.Allowed d (s.1.settle d)
  · have hreleases := World.settled_settle_iff.1 h.released
    have hpaused : s.1.hub.parameters.paused = false := by
      rw [← hreleases.settled.2.1]
      exact h.running
    have hattempt : (payouts d).attempt s c = c.effect (s.1.settle d, s.2) :=
      Settling.attempt_of_allowed h
    rw [hattempt]
    unfold World.tryCall
    cases c with
    | process sender funds =>
      have hexec : s.1.exec d ((PayoutCall.process sender funds).action d) = .ok (s.1.settle d) :=
        (World.exec_process bare).2 ⟨h.user, hpaused, hreleases, rfl⟩
      rw [hexec]
      rfl
    | withdraw user funds =>
      obtain ⟨hpos, hfits⟩ := h.due user rfl
      obtain ⟨hexec, hpaid⟩ : s.1.exec d ((PayoutCall.withdraw user funds).action d) =
            .ok ((s.1.settle d).payout user) ∧
          s.1.paidBy d (.withdraw user funds) = (s.1.settle d).hub.withdrawal user none :=
        (World.exec_withdraw sound.reached bare).2 ⟨h.user, hpaused, hreleases, hpos, hfits,
          (h.sound sound).due_le user, rfl, rfl⟩
      rw [hexec, hpaid]
      rfl
  · have hattempt : (payouts d).attempt s c = s := Settling.attempt_of_refused h
    rw [hattempt]
    unfold World.tryCall
    cases hx : s.1.exec d (c.action d) with
    | error e => rfl
    | ok w =>
      refine absurd ?_ h
      cases c with
      | process sender funds =>
        obtain ⟨huser, hpaused, hreleases, rfl⟩ := (World.exec_process bare).1 hx
        obtain ⟨hreleased, hparams, -⟩ := hreleases.settled
        exact ⟨huser, by rw [hparams]; exact hpaused, hreleased, fun _ hnone => by cases hnone⟩
      | withdraw user funds =>
        obtain ⟨huser, hpaused, hreleases, hpos, hfits, -, rfl, -⟩ :=
          (World.exec_withdraw sound.reached bare).1 ⟨hx, rfl⟩
        obtain ⟨hreleased, hparams, -⟩ := hreleases.settled
        refine ⟨huser, by rw [hparams]; exact hpaused, hreleased, ?_⟩
        rintro _ ⟨rfl⟩
        exact ⟨hpos, hfits⟩

theorem World.tryAll_eq {w : World T} {calls : List PayoutCall} (sound : w.Sound d)
    (bare : ∀ c ∈ calls, fundsIn d.denom c.funds = 0) :
    w.tryAll d calls = calls.foldl (payouts d).attempt (w, fun _ => none) := by
  have key : ∀ {s : World T × (Addr → Option ℕ)}, s.1.Sound d →
      calls.foldl (World.tryCall d) s = calls.foldl (payouts d).attempt s := by
    induction calls with
    | nil => exact fun _ => rfl
    | cons c calls ih =>
      intro s hs
      have hgood : (World.tryCall d s c).1.Sound d := by
        rw [World.tryCall_eq hs (bare c (List.mem_cons_self ..))]
        exact Settling.attempt_good (m := payouts d) hs c
      rw [List.foldl_cons, List.foldl_cons,
        ih (fun c' hc' => bare c' (List.mem_cons_of_mem _ hc')) hgood,
        World.tryCall_eq hs (bare c (List.mem_cons_self ..))]
  exact key sound

/-- **Withdrawals are order-independent.**  After every run without
`WithdrawUnstakedForBatches`, and for every two orders of calls of
`WithdrawUnstaked` by different users and of `ProcessWithdrawRequests`, none of
which brings coins of the staking denom: the same users are paid, and the same
amounts, and the state, the history, the wait list and the bank balance of the
hub are the same in the end. -/
theorem withdrawals_commute {w w' : World T} {tr : List (Action × World T)}
    {calls calls' : List PayoutCall} (created : w.Created d) (run : Run (World.Step d) w tr w')
    (allAtOnce : ∀ e ∈ tr, e.1.AllAtOnce) (perm : calls.Perm calls')
    (users : (calls.filterMap PayoutCall.user).Nodup)
    (bare : ∀ c ∈ calls, fundsIn d.denom c.funds = 0) :
    (∀ user, (w'.tryAll d calls).2 user = (w'.tryAll d calls').2 user) ∧
    (w'.tryAll d calls).1.hub.state = (w'.tryAll d calls').1.hub.state ∧
    (w'.tryAll d calls).1.hub.unstakeHistory = (w'.tryAll d calls').1.hub.unstakeHistory ∧
    (w'.tryAll d calls).1.hub.unstakeWaitList = (w'.tryAll d calls').1.hub.unstakeWaitList ∧
    (w'.tryAll d calls).1.bank = (w'.tryAll d calls').1.bank := by
  have sound := created.sound run allAtOnce
  have hapart : calls.Pairwise (payouts d).apart := by
    rw [List.Nodup, List.pairwise_filterMap] at users
    exact users.imp fun h user ha hb => h user ha user hb rfl
  have hsame : w'.tryAll d calls = w'.tryAll d calls' := by
    rw [World.tryAll_eq sound bare,
      World.tryAll_eq sound fun c hc => bare c (perm.mem_iff.2 hc)]
    exact Settling.foldl_attempt_perm perm sound hapart
  rw [hsame]
  exact ⟨fun _ => rfl, rfl, rfl, rfl, rfl⟩

/-! ### Two users of one batch on the sample deployment -/

/-- Two users ask for 30 each, the batch is closed and old enough, and the given
amount has arrived for it. -/
def sampleTwoUsers (arrived : ℕ) : List ScriptLine :=
  [stakes "alice" 50, stakes "bob" 50, .ends ⟨460, 3600⟩,
   toToken "alice" (.increaseAllowance "hub" 50), toToken "bob" (.increaseAllowance "hub" 50),
   toHub "alice" (.unstake 30), .ends ⟨900, 8000⟩, toHub "bob" (.unstake 30),
   .ends ⟨1300, 12000⟩, .credit arrived, .passes ⟨1310, 19000⟩]

/-- With 60 arrived each is paid 30, whoever comes first. -/
theorem withdrawals_commute_sample :
    let w := sampleEnd (sampleTwoUsers 60)
    let calls : List PayoutCall :=
      [.withdraw "alice" [], .process "carol" [], .withdraw "bob" []]
    let calls' : List PayoutCall :=
      [.withdraw "bob" [], .withdraw "alice" [], .process "carol" []]
    (w.tryAll sampleDeployment calls).2 "bob" = some 30 ∧
    (∀ user, (w.tryAll sampleDeployment calls).2 user = (w.tryAll sampleDeployment calls').2 user) ∧
    (w.tryAll sampleDeployment calls).1.bank = (w.tryAll sampleDeployment calls').1.bank := by
  intro w calls calls'
  have run : Run (World.Step sampleDeployment) sampleWorld (sampleTrace (sampleTwoUsers 60)) w :=
    sampleRun _ (by decide +kernel)
  have perm : calls.Perm calls' := by decide +kernel
  have facts : (∀ e ∈ sampleTrace (sampleTwoUsers 60), e.1.AllAtOnce) ∧
      (w.tryAll sampleDeployment calls).2 "bob" = some 30 := by
    decide +kernel
  obtain ⟨allAtOnce, paid⟩ := facts
  obtain ⟨hpaid, -, -, -, hbank⟩ := withdrawals_commute sampleWorld_created run allAtOnce
    perm (by decide +kernel) (by decide +kernel)
  exact ⟨paid, hpaid, hbank⟩

/-- **Attached coins depend on the order**: with 40 arrived, the 20 that the first
user attaches to the withdrawal release the batch, and the second user is paid
after it, and not before. -/
theorem attached_coins_depend_on_order :
    ∃ tr w, sampleWorld.Created sampleDeployment ∧
      Run (World.Step sampleDeployment) sampleWorld tr w ∧ (∀ e ∈ tr, e.1.AllAtOnce) ∧
      (w.tryAll sampleDeployment [.withdraw "alice" [⟨"ubbn", 20⟩], .withdraw "bob" []]).2 "bob" =
        some 30 ∧
      (w.tryAll sampleDeployment [.withdraw "bob" [], .withdraw "alice" [⟨"ubbn", 20⟩]]).2 "bob" =
        none :=
  ⟨_, _, sampleWorld_created, sampleRun (sampleTwoUsers 40) (by decide +kernel),
    by decide +kernel⟩

end BabyLst
