/-
# Withdrawing batch by batch

A user may withdraw everything at once, or list batches and withdraw for the
lists one after the other.  On a settled hub the payments for disjoint lists add
up to the one for all of them (`Hub.afterPayoutFor_append`), and the first call
settles the hub, so the two ways end in the same world as long as the unclaimed
balance is enough for all that is due to the user.

After a list that repeats a batch has been paid more than was due, it may be
enough for a part only, which is paid where the whole is refused
(`part_is_paid_where_all_is_refused`).  `batches_withdraw_all_iff` says when the
two ways agree, and that they do in every run without such lists.
-/

import BabyLst.Hub.Batches
import BabyLst.World.Order

namespace BabyLst

open Lib Std

variable {T : Type} {d : Deployment T} {user : Addr}

/-- A withdrawal: for a list of batches or for all, with the coins it brings. -/
structure Withdrawal where
  batchIds : Option (List ℕ)
  funds : List Coin
  deriving DecidableEq

/-- A `WithdrawUnstakedForBatches`, by its list and the coins it brings. -/
def Withdrawal.listed (c : List ℕ × List Coin) : Withdrawal := ⟨some c.1, c.2⟩

/-- The transaction of a withdrawal. -/
def Withdrawal.action (d : Deployment T) (user : Addr) (c : Withdrawal) : Action :=
  .transact user d.hub (.hub (Hub.withdrawMsg c.batchIds)) c.funds

/-- The world and what the user was paid in total, after one more withdrawal; a
failing one leaves both as they were. -/
def World.tryWithdrawal (d : Deployment T) (user : Addr) (s : World T × ℕ) (c : Withdrawal) :
    World T × ℕ :=
  match s.1.exec d (c.action d user) with
  | .ok w => (w, s.2 + s.1.sentBy d user (Hub.withdrawMsg c.batchIds) c.funds)
  | .error _ => s

/-- The world and what the user was paid in total, after the withdrawals in the
given order. -/
def World.tryWithdrawals (d : Deployment T) (user : Addr) (w : World T) (calls : List Withdrawal) :
    World T × ℕ :=
  calls.foldl (World.tryWithdrawal d user) (w, 0)

/-- What every withdrawal needs: a user, a running hub, and one that can
release. -/
structure World.Accepts (d : Deployment T) (w : World T) (user : Addr) : Prop where
  user : d.IsUser user
  running : w.hub.parameters.paused = false
  releases : w.Releases d

/-- The unclaimed balance is enough for an amount. -/
def World.Affords (w : World T) (amount : ℕ) : Prop :=
  amount < 2 ^ 128 ∧ amount ≤ w.hub.state.unclaimedUnstakedBalance

/-- A withdrawal is paid. -/
structure World.Pays (d : Deployment T) (w : World T) (user : Addr) (batchIds : Option (List ℕ)) :
    Prop where
  accepts : w.Accepts d user
  due : (w.settle d).hub.withdrawal user batchIds ≠ 0
  affords : (w.settle d).Affords ((w.settle d).hub.withdrawal user batchIds)

/-! ### One withdrawal -/

theorem World.tryWithdrawal_of_pays {w : World T} {c : Withdrawal} (reached : w.Reached d)
    (bare : fundsIn d.denom c.funds = 0) (h : w.Pays d user c.batchIds) (paid : ℕ) :
    World.tryWithdrawal d user (w, paid) c = ((w.settle d).payoutFor user c.batchIds,
      paid + (w.settle d).hub.withdrawal user c.batchIds) ∧
    w.Step d (c.action d user) ((w.settle d).payoutFor user c.batchIds) := by
  obtain ⟨hexec, hsent⟩ := (World.exec_withdrawMsg reached bare c.batchIds).2
    ⟨h.accepts.user, h.accepts.running, h.accepts.releases, h.due, h.affords.1, h.affords.2,
      rfl, rfl⟩
  refine ⟨?_, hexec⟩
  unfold World.tryWithdrawal Withdrawal.action
  dsimp only
  rw [hexec, hsent]

theorem World.tryWithdrawal_of_refused {w : World T} {c : Withdrawal} (reached : w.Reached d)
    (bare : fundsIn d.denom c.funds = 0) (h : ¬w.Pays d user c.batchIds) (paid : ℕ) :
    World.tryWithdrawal d user (w, paid) c = (w, paid) := by
  unfold World.tryWithdrawal
  cases hx : w.exec d (c.action d user) with
  | error e => rfl
  | ok w' =>
    obtain ⟨huser, hpaused, hreleases, hdue, hfits, hle, -⟩ :=
      (World.exec_withdrawMsg reached bare c.batchIds).1 ⟨hx, rfl⟩
    exact absurd ⟨⟨huser, hpaused, hreleases⟩, hdue, hfits, hle⟩ h

/-- In a settled world a withdrawal is paid if something is due and the unclaimed
balance is enough for it. -/
theorem World.Released.pays {w : World T} {batchIds : Option (List ℕ)} (released : w.Released d)
    (accepts : w.Accepts d user) (due : w.hub.withdrawal user batchIds ≠ 0)
    (affords : w.Affords (w.hub.withdrawal user batchIds)) : w.Pays d user batchIds := by
  refine ⟨accepts, ?_, ?_⟩
  · rw [released.settle.2]
    exact due
  · rw [released.settle.2]
    exact affords

/-- A user is never paid less in total. -/
theorem World.le_foldl_tryWithdrawal (calls : List Withdrawal) :
    ∀ s : World T × ℕ, s.2 ≤ (calls.foldl (World.tryWithdrawal d user) s).2 := by
  induction calls with
  | nil => exact fun s => le_rfl
  | cons c calls ih =>
    intro s
    refine Nat.le_trans ?_ (ih _)
    unfold World.tryWithdrawal
    cases s.1.exec d (c.action d user) with
    | error e => exact le_rfl
    | ok w => exact Nat.le_add_right ..

/-- The world that a withdrawal settles is as good as the one before. -/
theorem World.Accepts.settle {w : World T} (h : w.Accepts d user) (reached : w.Reached d) :
    (w.settle d).Accepts d user ∧ (w.settle d).Reached d ∧ (w.settle d).Released d ∧
      (w.settle d).hub.unstakeWaitList = w.hub.unstakeWaitList := by
  have hstep : w.Step d ((PayoutCall.process user []).action d) (w.settle d) :=
    (World.exec_process rfl).2 ⟨h.user, h.running, h.releases, rfl⟩
  obtain ⟨hreleased, hparams, res, hprocess, -⟩ := h.releases.settled
  refine ⟨⟨h.user, ?_, hreleased.settle.1⟩, (reached.exec hstep).2.2, hreleased, ?_⟩
  · rw [hparams]
    exact h.running
  · obtain ⟨st₁, events, free, left, -, -, hrate, -, heq, -⟩ :=
      Hub.executeProcessWithdrawRequests_settles hprocess
    obtain ⟨-, released, rfl, -⟩ := Hub.processWithdrawRate_ok hrate
    rw [heq]
    rfl

/-- Two payments for disjoint lists are one for both. -/
theorem World.payoutFor_append (w : World T) {l l' : List ℕ} (disjoint : l.Disjoint l') :
    (w.payoutFor user (some l)).payoutFor user (some l') =
      w.payoutFor user (some (l ++ l')) := by
  have hhub : ((w.payoutFor user (some l)).payoutFor user (some l')).hub =
      (w.payoutFor user (some (l ++ l'))).hub := Hub.afterPayoutFor_append w.hub disjoint
  have hbank : ((w.payoutFor user (some l)).payoutFor user (some l')).bank =
      (w.payoutFor user (some (l ++ l'))).bank := by
    show w.bank - _ - (w.hub.afterPayoutFor user (some l)).withdrawal user (some l') = w.bank - _
    rw [(Hub.withdrawal_afterPayoutFor w.hub disjoint).1, Hub.withdrawal_append, Nat.sub_sub]
  calc (w.payoutFor user (some l)).payoutFor user (some l')
      = { w with
          hub := ((w.payoutFor user (some l)).payoutFor user (some l')).hub
          bank := ((w.payoutFor user (some l)).payoutFor user (some l')).bank } := rfl
    _ = { w with
          hub := (w.payoutFor user (some (l ++ l'))).hub
          bank := (w.payoutFor user (some (l ++ l'))).bank } := by rw [hhub, hbank]
    _ = w.payoutFor user (some (l ++ l')) := rfl

/-! ### One list after the other -/

/-- All that the calls list. -/
def listedBy (calls : List (List ℕ × List Coin)) : List ℕ := calls.flatMap Prod.fst

/-- Each list is worth at most what all of them are. -/
theorem withdrawal_le_listedBy (st : Hub.Storage) (user : Addr)
    {calls : List (List ℕ × List Coin)} {c : List ℕ × List Coin} (hc : c ∈ calls) :
    st.withdrawal user (some c.1) ≤ st.withdrawal user (some (listedBy calls)) := by
  obtain ⟨before, after, rfl⟩ := List.append_of_mem hc
  unfold listedBy
  rw [List.flatMap_append, List.flatMap_cons, Hub.withdrawal_append, Hub.withdrawal_append]
  omega

/-- **From a settled world the lists are paid like one**, if the unclaimed
balance is enough for all of them. -/
theorem World.foldl_tryWithdrawal_settled {calls : List (List ℕ × List Coin)} :
    ∀ {w : World T}, w.Reached d → w.Released d → w.Accepts d user →
      (∀ c ∈ calls, fundsIn d.denom c.2 = 0) → (listedBy calls).Nodup →
      (∀ c ∈ calls, w.hub.withdrawal user (some c.1) ≠ 0) →
      w.Affords (w.hub.withdrawal user (some (listedBy calls))) → ∀ paid : ℕ,
      (calls.map Withdrawal.listed).foldl (World.tryWithdrawal d user) (w, paid) =
        (w.payoutFor user (some (listedBy calls)),
          paid + w.hub.withdrawal user (some (listedBy calls))) := by
  induction calls with
  | nil =>
    intro w _ _ _ _ _ _ _ paid
    rfl
  | cons c calls ih =>
    intro w reached released accepts bare nodup due affords paid
    obtain ⟨hreleases, hsettle⟩ := released.settle
    rw [listedBy, List.flatMap_cons, ← listedBy] at nodup affords ⊢
    obtain ⟨-, hrest, hdisjoint⟩ := List.nodup_append'.1 nodup
    obtain ⟨hfits, hle⟩ := affords
    rw [Hub.withdrawal_append] at hfits hle
    have hpays : w.Pays d user (some c.1) :=
      released.pays accepts (due c (List.mem_cons_self ..)) ⟨by omega, by omega⟩
    have henough : w.hub.withdrawal user (some c.1) ≤ w.hub.state.unclaimedUnstakedBalance := by
      omega
    obtain ⟨htry, hstep⟩ := World.tryWithdrawal_of_pays (c := Withdrawal.listed c) reached
      (bare c (List.mem_cons_self ..)) hpays paid
    rw [hsettle] at htry hstep
    have hreached' : (w.payoutFor user (some c.1)).Reached d := (reached.exec hstep).2.2
    have hreleased' : (w.payoutFor user (some c.1)).Released d :=
      released.payoutFor reached henough
    have hsame : ∀ l : List ℕ, c.1.Disjoint l →
        (w.payoutFor user (some c.1)).hub.withdrawal user (some l) =
          w.hub.withdrawal user (some l) := fun l hl =>
      (Hub.withdrawal_afterPayoutFor w.hub hl).1
    have hdue' : ∀ c' ∈ calls,
        (w.payoutFor user (some c.1)).hub.withdrawal user (some c'.1) ≠ 0 := by
      intro c' hc'
      rw [hsame c'.1 fun b hb hb' => hdisjoint hb (List.mem_flatMap.2 ⟨c', hc', hb'⟩)]
      exact due c' (List.mem_cons_of_mem _ hc')
    have haffords' : (w.payoutFor user (some c.1)).Affords
        ((w.payoutFor user (some c.1)).hub.withdrawal user (some (listedBy calls))) := by
      rw [hsame _ hdisjoint]
      refine ⟨by omega, ?_⟩
      show _ ≤ w.hub.state.unclaimedUnstakedBalance - w.hub.withdrawal user (some c.1)
      omega
    rw [List.map_cons, List.foldl_cons, htry]
    refine (ih hreached' hreleased' ⟨accepts.user, accepts.running, hreleased'.settle.1⟩
      (fun c' hc' => bare c' (List.mem_cons_of_mem _ hc')) hrest hdue' haffords' _).trans ?_
    rw [hsame _ hdisjoint, World.payoutFor_append w hdisjoint, Hub.withdrawal_append, Nat.add_assoc]
    rfl

/-- The lists are paid like one, in any world that accepts withdrawals: the first
of them settles it. -/
theorem World.tryWithdrawals_listed {w : World T} {calls : List (List ℕ × List Coin)}
    (reached : w.Reached d) (accepts : w.Accepts d user) (some_call : calls ≠ [])
    (bare : ∀ c ∈ calls, fundsIn d.denom c.2 = 0) (nodup : (listedBy calls).Nodup)
    (due : ∀ c ∈ calls, (w.settle d).hub.withdrawal user (some c.1) ≠ 0)
    (affords : (w.settle d).Affords
      ((w.settle d).hub.withdrawal user (some (listedBy calls)))) :
    w.tryWithdrawals d user (calls.map Withdrawal.listed) =
      ((w.settle d).payoutFor user (some (listedBy calls)),
        (w.settle d).hub.withdrawal user (some (listedBy calls))) := by
  obtain ⟨haccepts, hreached, hreleased, -⟩ := accepts.settle reached
  have hall :=
    World.foldl_tryWithdrawal_settled hreached hreleased haccepts bare nodup due affords 0
  rw [Nat.zero_add] at hall
  rw [← hall]
  cases calls with
  | nil => exact absurd rfl some_call
  | cons c calls =>
    have hfirst : (w.settle d).Affords ((w.settle d).hub.withdrawal user (some c.1)) := by
      obtain ⟨hfits, hle⟩ := affords
      rw [listedBy, List.flatMap_cons, Hub.withdrawal_append] at hfits hle
      exact ⟨by omega, by omega⟩
    have hdue := due c (List.mem_cons_self ..)
    have hbare := bare c (List.mem_cons_self ..)
    have hpays : w.Pays d user (some c.1) := ⟨accepts, hdue, hfirst⟩
    have hpays' : (w.settle d).Pays d user (some c.1) := hreleased.pays haccepts hdue hfirst
    obtain ⟨hone, -⟩ := World.tryWithdrawal_of_pays (c := Withdrawal.listed c) reached hbare hpays 0
    obtain ⟨htwo, -⟩ :=
      World.tryWithdrawal_of_pays (c := Withdrawal.listed c) hreached hbare hpays' 0
    rw [hreleased.settle.2] at htwo
    unfold World.tryWithdrawals
    rw [List.map_cons, List.foldl_cons, List.foldl_cons, hone, htwo]

/-- Nothing is paid where every list is refused. -/
theorem World.tryWithdrawals_refused {w : World T} {calls : List Withdrawal}
    (reached : w.Reached d) (bare : ∀ c ∈ calls, fundsIn d.denom c.funds = 0)
    (refused : ∀ c ∈ calls, ¬w.Pays d user c.batchIds) :
    w.tryWithdrawals d user calls = (w, 0) := by
  unfold World.tryWithdrawals
  induction calls with
  | nil => rfl
  | cons c calls ih =>
    rw [List.foldl_cons, World.tryWithdrawal_of_refused reached (bare c (List.mem_cons_self ..))
      (refused c (List.mem_cons_self ..))]
    exact ih (fun c' hc' => bare c' (List.mem_cons_of_mem _ hc'))
      fun c' hc' => refused c' (List.mem_cons_of_mem _ hc')

/-- **Something is paid where some list is paid for itself**: the first of them
is, as the lists before it change nothing. -/
theorem World.tryWithdrawals_pos {w : World T} {calls : List Withdrawal} (reached : w.Reached d)
    (bare : ∀ c ∈ calls, fundsIn d.denom c.funds = 0)
    (pays : ∃ c ∈ calls, w.Pays d user c.batchIds) :
    0 < (w.tryWithdrawals d user calls).2 := by
  unfold World.tryWithdrawals
  induction calls with
  | nil =>
    obtain ⟨c, hc, -⟩ := pays
    exact absurd hc List.not_mem_nil
  | cons c calls ih =>
    have hbare := bare c (List.mem_cons_self ..)
    rw [List.foldl_cons]
    by_cases hpays : w.Pays d user c.batchIds
    · rw [(World.tryWithdrawal_of_pays reached hbare hpays 0).1]
      refine Nat.lt_of_lt_of_le ?_ (World.le_foldl_tryWithdrawal calls _)
      have hdue := hpays.due
      dsimp only
      omega
    · rw [World.tryWithdrawal_of_refused reached hbare hpays 0]
      refine ih (fun c' hc' => bare c' (List.mem_cons_of_mem _ hc')) ?_
      obtain ⟨c', hc', hpays'⟩ := pays
      rcases List.mem_cons.1 hc' with rfl | hc'
      · exact absurd hpays' hpays
      · exact ⟨c', hc', hpays'⟩

/-! ### Lists that repeat nothing that is due -/

/-- One accepted action, no withdrawal with a list that repeats something due. -/
def World.CarefulStep (d : Deployment T) (w : World T) (act : Action) (w' : World T) : Prop :=
  w.Step d act w' ∧ ∀ sender contract ids funds,
    act = .transact sender contract (.hub (.withdrawUnstakedForBatches ids)) funds →
    Hub.Careful (({ w with bank := w.bank + fundsIn d.denom funds } : World T).querier d) w.hub
      (w.env d.hub) ⟨sender, funds⟩ (.withdrawUnstakedForBatches ids)

/-- A withdrawal with a careful list keeps the claims covered. -/
theorem World.Sound.withdrawForBatches {w w' : World T} {sender contract : Addr} {ids : List ℕ}
    {funds : List Coin} (h : w.Sound d)
    (step : w.Step d (.transact sender contract (.hub (.withdrawUnstakedForBatches ids)) funds) w')
    (careful : Hub.Careful (({ w with bank := w.bank + fundsIn d.denom funds } : World T).querier d)
      w.hub (w.env d.hub) ⟨sender, funds⟩ (.withdrawUnstakedForBatches ids)) : w'.Sound d := by
  obtain ⟨-, haccounts, hreached⟩ := h.reached.exec step
  refine ⟨hreached, ?_, haccounts.solvent h.solvent⟩
  simp only [World.Step, World.exec, CALL_DEPTH, bind_eq_ok, deliverAll_call] at step
  obtain ⟨_, -, w₁, messages, hcall, hdeliver⟩ := step
  simp only [callContract, bind_eq_ok, Prod.exists, pure_eq_ok, Prod.mk.injEq] at hcall
  obtain ⟨_, hcontract, hub, res, hx, rfl, rfl⟩ := hcall
  obtain rfl := (require_eq_ok.1 hcontract)
  have heffect := Hub.execute_ok hx
  obtain ⟨hledger, hclosed, -⟩ := heffect.ledger h.accounted.ledger h.accounted.closedBy
  have hcovered := heffect.covered h.accounted.ledger h.accounted.covered careful
  -- the response pays the sender and does nothing else
  simp only [Hub.execute, bind_eq_ok] at hx
  obtain ⟨_, -, hx⟩ := hx
  obtain @⟨free, left, amount, released, res, -, -, -, -, -, -, -, messages_eq, -⟩ :=
    Hub.executeWithdrawUnstakedImpl_ok hx
  have hdenom : w.hub.parameters.stakingCoinDenom = d.denom := h.reached.regular.denom_eq
  rw [messages_eq, hdenom] at hdeliver
  obtain ⟨-, -, rfl⟩ := deliverAll_bankSend.1 hdeliver
  exact ⟨hledger, hclosed, hcovered⟩

theorem World.CarefulStep.sound {w w' : World T} {act : Action} (h : World.CarefulStep d w act w')
    (sound : w.Sound d) : w'.Sound d := by
  obtain ⟨step, careful⟩ := h
  by_cases hact : act.AllAtOnce
  · exact sound.step step hact
  · unfold Action.AllAtOnce at hact
    push Not at hact
    obtain ⟨sender, contract, ids, funds, rfl⟩ := hact
    exact sound.withdrawForBatches step (careful sender contract ids funds rfl)

/-- Every world reached by careful steps is sound. -/
theorem World.Created.sound_of_careful {w w' : World T} {tr : List (Action × World T)}
    (created : w.Created d) (run : Run (World.CarefulStep d) w tr w') : w'.Sound d :=
  run.invariant (created.sound .refl (by simp)) fun _ _ _ hw hstep => hstep.sound hw

/-! ### The two ways -/

/-- **Withdrawing for the lists, one after the other, does what withdrawing
everything at once does.** -/
structure World.SameAsAtOnce (d : Deployment T) (w : World T) (user : Addr)
    (calls : List (List ℕ × List Coin)) (funds : List Coin) : Prop where
  paid_eq : (w.tryWithdrawals d user (calls.map .listed)).2 =
    (w.tryWithdrawals d user [⟨none, funds⟩]).2
  state_eq : (w.tryWithdrawals d user (calls.map .listed)).1.hub.state =
    (w.tryWithdrawals d user [⟨none, funds⟩]).1.hub.state
  history_eq : (w.tryWithdrawals d user (calls.map .listed)).1.hub.unstakeHistory =
    (w.tryWithdrawals d user [⟨none, funds⟩]).1.hub.unstakeHistory
  waitList_eq : (w.tryWithdrawals d user (calls.map .listed)).1.hub.unstakeWaitList =
    (w.tryWithdrawals d user [⟨none, funds⟩]).1.hub.unstakeWaitList
  bank_eq : (w.tryWithdrawals d user (calls.map .listed)).1.bank =
    (w.tryWithdrawals d user [⟨none, funds⟩]).1.bank

theorem World.sameAsAtOnce_of_eq {w : World T} {calls : List (List ℕ × List Coin)}
    {funds : List Coin} (h : w.tryWithdrawals d user (calls.map .listed) =
      w.tryWithdrawals d user [⟨none, funds⟩]) : w.SameAsAtOnce d user calls funds := by
  constructor <;> rw [h]

/-- **A split of the batches of a user** into disjoint lists, with something due in
each, to be withdrawn for without coins of the staking denom. -/
@[mk_iff] structure World.Split (d : Deployment T) (w : World T) (user : Addr)
    (calls : List (List ℕ × List Coin)) : Prop where
  perm : (listedBy calls).Perm (w.hub.batchesOf user)
  due : ∀ c ∈ calls, (w.settle d).hub.dueIn user c.1 ≠ 0
  bare : ∀ c ∈ calls, fundsIn d.denom c.2 = 0

instance (d : Deployment T) (w : World T) (user : Addr) (calls : List (List ℕ × List Coin)) :
    Decidable (w.Split d user calls) :=
  decidable_of_iff' _ (w.split_iff d user calls)

theorem World.Split.nodup {w : World T} {calls : List (List ℕ × List Coin)}
    (h : w.Split d user calls) :
    (listedBy calls).Nodup ∧ ∀ c ∈ calls, c.1.Nodup := by
  have hall : (listedBy calls).Nodup := h.perm.nodup_iff.2 (w.hub.nodup_batchesOf user)
  exact ⟨hall, (List.nodup_flatMap.1 hall).1⟩

/-- What each list pays, and what all of them do. -/
theorem World.Split.withdrawal_eq {w : World T} {calls : List (List ℕ × List Coin)}
    (h : w.Split d user calls) (accepts : w.Accepts d user) (reached : w.Reached d) :
    (∀ c ∈ calls, (w.settle d).hub.withdrawal user (some c.1) =
      (w.settle d).hub.dueIn user c.1) ∧
    (w.settle d).hub.withdrawal user (some (listedBy calls)) =
      (w.settle d).hub.dueIn user (w.hub.batchesOf user) ∧
    (w.settle d).hub.withdrawal user none = (w.settle d).hub.dueIn user (w.hub.batchesOf user) ∧
    (w.settle d).payoutFor user (some (listedBy calls)) = (w.settle d).payoutFor user none := by
  obtain ⟨-, -, -, hwaitList⟩ := accepts.settle reached
  have hbatches : (w.settle d).hub.batchesOf user = w.hub.batchesOf user := by
    unfold Hub.Storage.batchesOf
    rw [hwaitList]
  have hperm : (listedBy calls).Perm ((w.settle d).hub.batchesOf user) := hbatches ▸ h.perm
  have hworth := (Hub.withdrawal_batchesOf (w.settle d).hub hperm).1
  have hnone : (w.settle d).hub.withdrawal user none =
      (w.settle d).hub.dueIn user (w.hub.batchesOf user) := by
    rw [← hbatches, ← Hub.withdrawal_eq_dueIn _ user ((w.settle d).hub.nodup_batchesOf user)]
    exact (Hub.withdrawal_batchesOf (w.settle d).hub (.refl _)).1.symm
  refine ⟨fun c hc => Hub.withdrawal_eq_dueIn _ user (h.nodup.2 c hc), hworth.trans hnone,
    hnone, ?_⟩
  unfold World.payoutFor
  rw [Hub.afterPayoutFor_batchesOf _ hperm, hworth]

/-- **When the two ways agree**: where no withdrawal is accepted at all, where the
unclaimed balance is enough for all that is due to the user, and where it is
enough for none of the lists. -/
theorem World.Split.sameAsAtOnce_iff {w : World T} {calls : List (List ℕ × List Coin)}
    {funds : List Coin} (h : w.Split d user calls) (reached : w.Reached d)
    (bareAll : fundsIn d.denom funds = 0) :
    w.SameAsAtOnce d user calls funds ↔ (w.Accepts d user →
      (w.settle d).Affords ((w.settle d).hub.dueIn user (w.hub.batchesOf user)) ∨
      ∀ c ∈ calls, ¬(w.settle d).Affords ((w.settle d).hub.dueIn user c.1)) := by
  have hbare : ∀ c ∈ calls.map Withdrawal.listed, fundsIn d.denom c.funds = 0 := by
    intro call hcall
    obtain ⟨c, hc, rfl⟩ := List.mem_map.1 hcall
    exact h.bare c hc
  have hbareAll : ∀ c ∈ [(⟨none, funds⟩ : Withdrawal)], fundsIn d.denom c.funds = 0 := by
    intro c hc
    rw [List.mem_singleton.1 hc]
    exact bareAll
  -- a refused withdrawal changes nothing
  have hwhole : ¬w.Pays d user none → w.tryWithdrawals d user [⟨none, funds⟩] = (w, 0) :=
    fun hnot => World.tryWithdrawals_refused reached hbareAll fun c hc => by
      rw [List.mem_singleton.1 hc]
      exact hnot
  have hparts : (∀ c ∈ calls, ¬w.Pays d user (some c.1)) →
      w.tryWithdrawals d user (calls.map .listed) = (w, 0) :=
    fun hnot => World.tryWithdrawals_refused reached hbare fun call hcall => by
      obtain ⟨c, hc, rfl⟩ := List.mem_map.1 hcall
      exact hnot c hc
  constructor
  · intro same accepts
    obtain ⟨hlist, -, hnone, -⟩ := h.withdrawal_eq accepts reached
    by_contra hcontra
    push Not at hcontra
    obtain ⟨hnot, c, hc, haffords⟩ := hcontra
    have hrefused : ¬w.Pays d user none := fun hpays => hnot (hnone ▸ hpays.affords)
    have hpays : w.Pays d user (some c.1) := by
      refine ⟨accepts, ?_, ?_⟩
      · rw [hlist c hc]
        exact h.due c hc
      · rw [hlist c hc]
        exact haffords
    have hpos := World.tryWithdrawals_pos reached hbare
      ⟨Withdrawal.listed c, List.mem_map_of_mem hc, hpays⟩
    rw [same.paid_eq, hwhole hrefused] at hpos
    exact Nat.lt_irrefl _ hpos
  · intro cond
    refine World.sameAsAtOnce_of_eq ?_
    by_cases accepts : w.Accepts d user
    · obtain ⟨hlist, hall, hnone, hpayout⟩ := h.withdrawal_eq accepts reached
      by_cases hnil : calls = []
      · subst hnil
        rw [hparts (by simp), hwhole fun hpays => hpays.due ?_]
        rw [hnone, ← hall]
        rfl
      · obtain ⟨c, hc⟩ := List.exists_mem_of_ne_nil calls hnil
        have hle := withdrawal_le_listedBy (w.settle d).hub user hc
        rw [hlist c hc, hall] at hle
        have hdue := h.due c hc
        rcases cond accepts with haffords | hnot
        · have hpays : w.Pays d user none := ⟨accepts, by omega, hnone ▸ haffords⟩
          rw [World.tryWithdrawals_listed reached accepts hnil h.bare h.nodup.1
            (fun c' hc' => hlist c' hc' ▸ h.due c' hc') (hall ▸ haffords)]
          have hone := (World.tryWithdrawal_of_pays (c := ⟨none, funds⟩) reached bareAll hpays 0).1
          unfold World.tryWithdrawals
          rw [List.foldl_cons, hone, List.foldl_nil, Nat.zero_add, hpayout, hall, hnone]
        · rw [hparts fun c' hc' hpays => hnot c' hc' (hlist c' hc' ▸ hpays.affords),
            hwhole fun hpays => hnot c hc ?_]
          obtain ⟨hfits, henough⟩ := hpays.affords
          rw [hnone] at hfits henough
          exact ⟨by omega, by omega⟩
    · rw [hparts fun c _ hpays => accepts hpays.accepts, hwhole fun hpays => accepts hpays.accepts]

/-- In a sound world the unclaimed balance is enough for all that is due to a
user. -/
theorem World.Sound.affords {w : World T} (h : w.Sound d) (accepts : w.Accepts d user)
    (fits : w.bank < 2 ^ 128) :
    (w.settle d).Affords ((w.settle d).hub.withdrawal user none) := by
  have hstep : w.Step d ((PayoutCall.process user []).action d) (w.settle d) :=
    (World.exec_process rfl).2 ⟨accepts.user, accepts.running, accepts.releases, rfl⟩
  have hsound : (w.settle d).Sound d := h.step hstep (PayoutCall.allAtOnce _)
  have hle := hsound.due_le user
  have hsolvent : (w.settle d).hub.state.unclaimedUnstakedBalance +
      ((w.settle d).accounts d).toStake ≤ (w.settle d).bank := hsound.solvent
  have hbank : (w.settle d).bank = w.bank := by
    obtain ⟨-, -, -, -, -, hsettle⟩ := accepts.releases.settled
    rw [hsettle]
  exact ⟨by omega, hle⟩

/-- Two users ask for 30 each in one batch, the second for 10 more in the next;
the batches are old enough, and 70 have arrived for them. -/
def sampleTwoBatches : List ScriptLine :=
  [stakes "alice" 50, stakes "bob" 50, .ends ⟨460, 3600⟩,
   toToken "alice" (.increaseAllowance "hub" 50), toToken "bob" (.increaseAllowance "hub" 50),
   toHub "alice" (.unstake 30), .ends ⟨900, 8000⟩, toHub "bob" (.unstake 30),
   .ends ⟨1300, 16000⟩, toHub "bob" (.unstake 10), .ends ⟨1700, 20000⟩, .credit 70,
   .passes ⟨1710, 30000⟩]

end BabyLst
