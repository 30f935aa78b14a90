/-
# Whose requests they are

The wait list inside the system.  A user's entries change by what this user sends
to the hub, or sends it tokens with, and by nothing else that goes on
(`strangers_touch_no_request`); and an entry is not paid before the unstaking
period has passed since its batch was closed, whoever releases the batch
(`requests_wait_their_period`).
-/

import BabyLst.Hub.Entries
import BabyLst.World.HubRuns

namespace BabyLst

open Lib Std

variable {T : Type} {d : Protocol T}

/-- The action is a transaction of the user. -/
def SystemAction.sentBy (user : Addr) : SystemAction → Bool
  | .act (.transact sender _ _ _) => sender = user
  | _ => false

/-- The action sets no unstaking period below `period`. -/
def SystemAction.keepsPeriod (period : ℕ) : SystemAction → Bool
  | .act (.transact _ _ (.hub msg) _) => Hub.KeepsPeriod period msg
  | _ => true

/-- The calls that an action makes are on behalf of nobody else. -/
theorem SystemAction.Makes.actor_ne {act : SystemAction} {c : Hub.Call} {user : Addr}
    (h : act.Makes d c) (silent : act.sentBy user = false) :
    Hub.actor c.info c.msg ≠ some user := by
  cases h with
  | @direct sender contract msg funds c _ msg_eq sender_eq own =>
    have hne : sender ≠ user := of_decide_eq_false silent
    rw [msg_eq]
    cases msg with
    | receive received => exact absurd rfl (own received)
    | unstake => exact fun h => hne (sender_eq.symm.trans (Option.some.inj h))
    | withdrawUnstaked => exact fun h => hne (sender_eq.symm.trans (Option.some.inj h))
    | withdrawUnstakedForBatches => exact fun h => hne (sender_eq.symm.trans (Option.some.inj h))
    | _ => exact fun h => by cases h
  | @handed sender contract msg funds c received sends msg_eq sender_eq =>
    have hne : sender ≠ user := of_decide_eq_false silent
    rw [msg_eq]
    exact fun h => hne (sender_eq.symm.trans (Option.some.inj h))
  | between hbetween =>
    cases hmsg : c.msg with
    | checkSlashing => exact fun h => by cases h
    | stakeRewards => exact fun h => by cases h
    | redelegateProxy => exact fun h => by cases h
    | _ =>
      rw [hmsg] at hbetween
      cases hbetween

theorem SystemAction.Makes.keepsPeriod {act : SystemAction} {c : Hub.Call} {period : ℕ}
    (h : act.Makes d c) (keeps : act.keepsPeriod period = true) :
    Hub.KeepsPeriod period c.msg = true := by
  cases h with
  | direct user msg_eq =>
    rw [msg_eq]
    exact keeps
  | handed sends msg_eq =>
    rw [msg_eq]
    rfl
  | between hbetween =>
    cases hmsg : c.msg with
    | updateParams =>
      rw [hmsg] at hbetween
      cases hbetween
    | _ => rfl

/-- The hub of a system, as of the system's block. -/
def System.clocked (s : System T) : Hub.Clocked := ⟨s.world.block, s.world.hub⟩

theorem System.Wired.hubAt {s : System T} (h : s.Wired d) : HubAt d s s.clocked :=
  ⟨rfl, le_rfl, le_rfl, h.world.hub_token⟩

/-- What a run of the hub has kept, it keeps until the system's block. -/
theorem HubAt.waited {s : System T} {t : Hub.Clocked} (h : HubAt d s t) {period : ℕ}
    (ht : t.Waited period) : s.clocked.Waited period := by
  have htime := h.time_le
  obtain ⟨⟨ledger, closed⟩, period_le, waited⟩ := ht
  rw [h.hub_eq] at ledger closed period_le waited
  exact ⟨⟨ledger, fun b e hb => (closed b e hb).trans htime⟩, period_le,
    fun b e hb hreleased => (waited b e hb hreleased).trans htime⟩

/-- A system just set up has waited, having closed no batch. -/
theorem System.Created.waited {s : System T} (created : s.Created d) {period : ℕ}
    (period_le : period ≤ d.init.unstakingPeriod) : s.clocked.Waited period := by
  obtain ⟨h, setup, t, hcreated, hsetup, ht⟩ := created.hubAt
  have hledger := (Hub.Run.ledger hsetup hcreated.ledger).1
  obtain ⟨q, info, st, res, res', dispatcher, hinst, hupdate⟩ := created.world.hub_created
  have hi := Hub.instantiate_ok hinst
  have hhistory : s.world.hub.unstakeHistory = ∅ := by
    rw [(Hub.executeUpdateConfig_ok hupdate).2.1]
    exact hi.history_eq
  refine ⟨⟨?_, fun b e hb => ?_⟩, ?_, fun b e hb => ?_⟩
  · rw [← show t.st = s.clocked.st from ht.hub_eq]
    exact hledger.1
  · simp [System.clocked, hhistory] at hb
  · have hparams : s.world.hub.parameters = st.parameters := by
      rw [(Hub.executeUpdateConfig_ok hupdate).2.1]
    simp only [System.clocked, hparams, hi.parameters_eq]
    exact period_le
  · simp [System.clocked, hhistory] at hb

/-- What the system has waited, it waits on. -/
theorem System.waited {s s' : System T} {tr : List (SystemAction × System T)} {period : ℕ}
    (run : Run (System.Step d) s tr s') (wired : s.Wired d)
    (keeps : ∀ e ∈ tr, e.1.keepsPeriod period = true) (hs : s.clocked.Waited period) :
    s'.clocked.Waited period := by
  obtain ⟨calls, t, hrun, ht, hcalls⟩ := System.hubRun run wired.hubAt
  refine ht.waited (Hub.Run.waited hrun hs fun c hc => ?_)
  obtain ⟨a, ha, hmakes⟩ := hcalls c hc
  exact hmakes.keepsPeriod (keeps a ha)

/-- Two users have staked 50 each, and one has asked for 30. -/
def sampleRequested : List (System Token.Ledger → SystemAction) :=
  [stakes "alice" 50, stakes "bob" 50, .ends ⟨460, 3600⟩,
   toToken "alice" (.increaseAllowance "hub" 50), toToken "bob" (.increaseAllowance "hub" 50),
   toHub "alice" (.unstake 30)].map acts

/-- The other one asks for 30 too, which closes the batch, and 60 arrive for it
when it is old enough. -/
def sampleArrived : List (System Token.Ledger → SystemAction) :=
  [.ends ⟨900, 8000⟩, toHub "bob" (.unstake 30), .ends ⟨1300, 12000⟩, .credit 60,
   .passes ⟨1310, 19000⟩].map acts

/-- **Strangers touch no request**: over any run in which a user sends nothing,
whatever all others send to whichever contract, the user's entries stay as they
are; what is due for them does not get less, and stays what it is once the batch
is released. -/
theorem strangers_touch_no_request {s₀ s s' : System T}
    {tr₀ tr : List (SystemAction × System T)} (created : s₀.Created d)
    (before : Run (System.Step d) s₀ tr₀ s) (run : Run (System.Step d) s tr s') {user : Addr}
    (silent : ∀ e ∈ tr, e.1.sentBy user = false) (b : ℕ) :
    s'.world.hub.unstakeWaitList[(user, b)]? = s.world.hub.unstakeWaitList[(user, b)]? ∧
      s.world.hub.due user b ≤ s'.world.hub.due user b ∧
      (s.world.hub.released b = true → s'.world.hub.due user b = s.world.hub.due user b) := by
  obtain ⟨h, setup, t, hcreated, hsetup, ht⟩ := created.hubAt
  obtain ⟨calls₀, u, hrun₀, hu, -⟩ := System.hubRun before ht
  obtain ⟨calls, v, hrun, hv, hcalls⟩ := System.hubRun run hu
  have hledger := (Hub.Run.ledger (hsetup.append hrun₀) hcreated.ledger).1
  have hkept := (Hub.Run.ledger hrun hledger).2
  have hentry := Hub.Run.entry_kept (k := (user, b)) hrun fun e he => by
    obtain ⟨a, ha, hmakes⟩ := hcalls e he
    exact hmakes.actor_ne (silent a ha)
  rw [hu.hub_eq, hv.hub_eq] at hkept hentry
  exact ⟨hentry, hkept.due hentry⟩

/-- The batch is released and the other user paid: the 30 are still there, and due. -/
theorem strangers_touch_no_request_sample :
    let s := systemEnd sampleRequested
    let s' := playEnd (System.line anyAct) s
      (sampleArrived ++ [acts (toHub "bob" .withdrawUnstaked)])
    s'.world.hub.unstakeWaitList[("bob", 1)]? = none ∧ s'.world.hub.due "alice" 1 = 30 ∧
      s'.world.hub.unstakeWaitList[("alice", 1)]? = s.world.hub.unstakeWaitList[("alice", 1)]? ∧
      s.world.hub.due "alice" 1 ≤ s'.world.hub.due "alice" 1 := by
  intro s s'
  have before := systemRun sampleRequested (by decide +kernel)
  have run := System.playedFrom s (sampleArrived ++ [acts (toHub "bob" .withdrawUnstaked)])
    (fun {s s' act} (h : s.Step sampleProtocol act s') (_ : anyAct s act = true) => h)
    (by decide +kernel)
  have facts : s'.world.hub.unstakeWaitList[("bob", 1)]? = none ∧
      s'.world.hub.due "alice" 1 = 30 ∧
      ∀ e ∈ playTrace (System.line anyAct) s
          (sampleArrived ++ [acts (toHub "bob" .withdrawUnstaked)]),
        e.1.sentBy "alice" = false := by
    decide +kernel
  obtain ⟨hpaid, hdue, hsilent⟩ := facts
  obtain ⟨hentry, hle, -⟩ := strangers_touch_no_request sampleSystem_created before run hsilent 1
  exact ⟨hpaid, hdue, hentry, hle⟩

/-- **Requests wait their period**: as long as no unstaking period below `period`
is set, a user's entry that is gone at the end of a run was of a batch that is
released and had been closed for `period` at least, and it is gone by what the
user has sent; if the batch was still open at the beginning, `period` has passed
since then. -/
theorem requests_wait_their_period {s₀ s s' : System T} {tr₀ tr : List (SystemAction × System T)}
    {period : ℕ} (created : s₀.Created d) (before : Run (System.Step d) s₀ tr₀ s)
    (run : Run (System.Step d) s tr s') (period_le : period ≤ d.init.unstakingPeriod)
    (keeps : ∀ e ∈ tr₀ ++ tr, e.1.keepsPeriod period = true) {user : Addr} {b : ℕ}
    (requested : s.world.hub.unstakeWaitList[(user, b)]? ≠ none)
    (gone : s'.world.hub.unstakeWaitList[(user, b)]? = none) :
    (∃ e, s'.world.hub.unstakeHistory[b]? = some e ∧ e.released = true ∧
      e.time + period ≤ s'.world.block.time) ∧
      (s.world.hub.unstakeHistory[b]? = none →
        s.world.block.time + period ≤ s'.world.block.time) ∧
      ∃ e ∈ tr, e.1.sentBy user = true := by
  have wired := (created.regular before).1
  have hs := System.waited before created.wired
    (fun e he => keeps e (List.mem_append_left _ he)) (created.waited period_le)
  obtain ⟨calls, t, hrun, ht, hcalls⟩ := System.hubRun run wired.hubAt
  have hgone : t.st.unstakeWaitList[(user, b)]? = none := by
    rw [ht.hub_eq]
    exact gone
  have hkeeps : ∀ c ∈ calls, Hub.KeepsPeriod period c.1.msg = true := by
    intro c hc
    obtain ⟨a, ha, hmakes⟩ := hcalls c hc
    exact hmakes.keepsPeriod (keeps a (List.mem_append_right _ ha))
  obtain ⟨e, he, hreleased, hwaited, hopen⟩ :=
    Hub.Run.paid_after hrun hs hkeeps requested hgone
  have htime := ht.time_le
  rw [ht.hub_eq] at he
  refine ⟨⟨e, he, hreleased, hwaited.trans htime⟩, fun habsent => (hopen habsent).trans htime, ?_⟩
  -- had the user sent nothing, the entry would be there
  by_contra hsent
  push Not at hsent
  refine requested ((Hub.Run.entry_kept (k := (user, b)) hrun fun c hc => ?_).symm.trans hgone)
  obtain ⟨a, ha, hmakes⟩ := hcalls c hc
  exact hmakes.actor_ne (Bool.eq_false_iff.2 (hsent a ha))

/-- The user is paid at 19000, of a batch that was open at 3600 and closed at 8000. -/
theorem requests_wait_their_period_sample :
    let s := systemEnd sampleRequested
    let s' := playEnd (System.line anyAct) s
      (sampleArrived ++ [acts (toHub "alice" .withdrawUnstaked)])
    s.world.block.time = 3600 ∧ s'.world.block.time = 19000 ∧
      (∃ e, s'.world.hub.unstakeHistory[1]? = some e ∧ e.released = true ∧
        e.time + 10000 ≤ s'.world.block.time) ∧
      s.world.block.time + 10000 ≤ s'.world.block.time := by
  intro s s'
  have before := systemRun sampleRequested (by decide +kernel)
  have run := System.playedFrom s (sampleArrived ++ [acts (toHub "alice" .withdrawUnstaked)])
    (fun {s s' act} (h : s.Step sampleProtocol act s') (_ : anyAct s act = true) => h)
    (by decide +kernel)
  have facts : s.world.block.time = 3600 ∧ s'.world.block.time = 19000 ∧
      10000 ≤ sampleProtocol.init.unstakingPeriod ∧
      (∀ e ∈ systemTrace sampleRequested ++ playTrace (System.line anyAct) s
          (sampleArrived ++ [acts (toHub "alice" .withdrawUnstaked)]),
        e.1.keepsPeriod 10000 = true) ∧
      s.world.hub.unstakeWaitList[("alice", 1)]? ≠ none ∧
      s'.world.hub.unstakeWaitList[("alice", 1)]? = none ∧
      s.world.hub.unstakeHistory[1]? = none := by
    decide +kernel
  obtain ⟨hstart, hfinish, hle, hkeeps, hrequested, hgone, hopen⟩ := facts
  obtain ⟨hwaited, hlong, -⟩ := requests_wait_their_period sampleSystem_created before run hle
    hkeeps hrequested hgone
  exact ⟨hstart, hfinish, hwaited, hlong hopen⟩

end BabyLst
