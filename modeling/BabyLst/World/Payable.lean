/-
# Funded requests are paid

The other side of the bounds on what is paid: in a system that is reached without
a withdrawal for a list that names a batch twice, a user whose request is old
enough and funded can withdraw it, unless the hub is paused
(`funded_requests_are_paid`).  Funded is: the hub's coins, but for the stake not
yet taken and those set aside for released batches, are enough for all batches
not yet released up to the one of the request.
-/

import BabyLst.Hub.Payable
import BabyLst.World.Listing

namespace BabyLst

open Lib Std Finset

variable {T : Type} {d : Protocol T}

/-- The action withdraws for a list that names a batch twice. -/
def SystemAction.repeats : SystemAction → Bool
  | .act (.transact _ _ (.hub (.withdrawUnstakedForBatches batchIds)) _) => !decide batchIds.Nodup
  | _ => false

/-- A list without repetition repeats nothing that is due. -/
theorem repeatsPayNothing_of_nodup {st : Hub.Storage} {user : Addr} {batchIds : List ℕ}
    (nodup : batchIds.Nodup) : st.RepeatsPayNothing user batchIds := by
  intro b hb
  have := List.nodup_iff_count_le_one.1 nodup b
  omega

theorem SystemAction.Makes.careful {act : SystemAction} {c : Hub.Call} (h : act.Makes d c)
    (once : act.repeats = false) (st : Hub.Storage) :
    Hub.Careful c.querier st c.env c.info c.msg := by
  intro batchIds hmsg st₁ _
  cases h with
  | direct user msg_eq =>
    rw [msg_eq] at hmsg
    subst hmsg
    have hnodup : batchIds.Nodup := by simpa [SystemAction.repeats] using once
    exact repeatsPayNothing_of_nodup hnodup
  | handed sends msg_eq =>
    rw [msg_eq] at hmsg
    cases hmsg
  | between hbetween =>
    rw [hmsg] at hbetween
    cases hbetween

theorem HubAt.payable {s : System T} {t : Hub.Clocked} (h : HubAt d s t) (ht : t.Payable) :
    s.clocked.Payable := by
  have htime := h.time_le
  obtain ⟨⟨⟨ledger, closed⟩, id_lt, worth⟩, opened, covered⟩ := ht
  unfold Hub.Clocked.Opened at opened
  rw [h.hub_eq] at ledger closed id_lt worth opened covered
  exact ⟨⟨⟨ledger, fun b e hb => (closed b e hb).trans htime⟩, id_lt, worth⟩,
    fun hid => (opened hid).trans h.height_le, covered⟩

theorem System.Created.payable {s : System T} (created : s.Created d) : s.clocked.Payable := by
  obtain ⟨hub, setup, t, hcreated, hsetup, ht⟩ := created.hubAt
  obtain ⟨q, info, st, res, res', dispatcher, hinst, hupdate⟩ := created.world.hub_created
  refine ht.payable ⟨hcreated.releasable hsetup, fun hid => ?_, ?_⟩
  · -- no batch is closed yet
    have hfirst : t.st.currentBatch = ⟨1, 0⟩ := by
      rw [ht.hub_eq, (Hub.executeUpdateConfig_ok hupdate).2.1]
      exact (Hub.instantiate_ok hinst).batch_eq
    rw [hfirst] at hid
    exact absurd hid (Nat.lt_irrefl 1)
  · rw [ht.hub_eq]
    exact created.world.accounted.covered

/-- **A run without repeated lists** keeps what makes requests payable. -/
theorem System.payable {s s' : System T} {tr : List (SystemAction × System T)}
    (run : Run (System.Step d) s tr s') (wired : s.Wired d)
    (once : ∀ e ∈ tr, e.1.repeats = false) (hs : s.clocked.Payable) : s'.clocked.Payable := by
  obtain ⟨calls, t, hrun, ht, hcalls⟩ := System.hubRun run wired.hubAt
  have careful : Run Hub.CarefulStep s.clocked calls t := hrun.mono fun c hc t _ hstep => by
    obtain ⟨a, ha, hmakes⟩ := hcalls c hc
    exact ⟨hstep, hmakes.careful (once a ha) t.st⟩
  exact ht.payable (careful.invariant hs fun _ _ _ ht hstep => hstep.payable ht)

/-- **An accepted withdrawal of the hub is one of the system.** -/
theorem System.withdraw_step {s : System T} {user : Addr} {hub : Hub.Storage} {res : Response}
    {amount : ℕ} (isUser : d.IsUser user)
    (accepted : Hub.execute (s.world.querier d.toDeployment) s.world.hub (s.world.env d.hub)
      ⟨user, []⟩ .withdrawUnstaked = .ok (hub, res))
    (messages_eq : res.messages = [.bankSend user ⟨d.denom, amount⟩])
    (enough : amount ≤ s.world.bank) :
    ∃ s', s.Step d (.act (.transact user d.hub (.hub .withdrawUnstaked) [])) s' ∧
      s'.world.hub = hub ∧ s'.world.bank + amount = s.world.bank := by
  have hbare : fundsIn d.denom ([] : List Coin) = 0 := rfl
  have hcall := (callContract_bare (d := d.toDeployment) hbare).2
    ⟨hub, res, accepted, rfl, rfl⟩
  have hub_ne : d.hub ≠ d.dispatcher := d.dispatcher_ne_hub.symm
  let called : System T := { s with world := { s.world with hub := hub } }
  let paid : System T := { called with world := { called.world with
    bank := s.world.bank - amount } }
  have hdeliver : s.deliver d user (.wasmExecute d.hub (.hub .withdrawUnstaked) []) =
      .ok (called, d.hub, res.messages) := by
    simp only [System.deliver, System.attaches, if_neg isUser.2, System.call, bind_eq_ok,
      pure_eq_ok]
    exact ⟨s, rfl, (called, res.messages), ⟨(called.world, res.messages), hcall, rfl⟩, rfl⟩
  have hsend : called.deliver d d.hub (.bankSend user ⟨d.denom, amount⟩) =
      .ok (paid, d.hub, []) := by
    have hworld : BabyLst.deliver d.toDeployment called.world d.hub
        (.bankSend user ⟨d.denom, amount⟩) = .ok (paid.world, d.hub, []) := by
      simp only [BabyLst.deliver, bind_eq_ok, require_eq_ok, pure_eq_ok]
      exact ⟨(), ⟨trivial, isUser.1.1, trivial, enough⟩, rfl⟩
    simp only [System.deliver, if_neg hub_ne, hworld, bind_eq_ok, pure_eq_ok, System.receives,
      if_neg isUser.1.1, if_neg isUser.2]
    exact ⟨_, rfl, rfl⟩
  refine ⟨paid, ?_, rfl, Nat.sub_add_cancel enough⟩
  simp only [System.Step, System.exec, bind_eq_ok, require_eq_ok, System.deliverAll, CALL_DEPTH,
    delivered_cons]
  refine ⟨(), isUser, called, d.hub, res.messages, paid, hdeliver, ?_, delivered_nil ..⟩
  rw [messages_eq, delivered_cons]
  exact ⟨paid, d.hub, [], paid, hsend, delivered_nil .., delivered_nil ..⟩

/-- **What the hub can pay from**: its coins but the stake that is queued. -/
theorem System.Reached.actualFreeBalance {s : System T} (reached : s.Reached d)
    (started : s.world.hub.pendingDelegation.stakingEpochStartBlockHeight ≤ s.world.block.height)
    (queued : queuedStake s.world.queue ≤ s.world.bank) :
    Hub.actualFreeBalance (s.world.querier d.toDeployment) s.world.hub (s.world.env d.hub) =
      .ok (s.world.bank - queuedStake s.world.queue) := by
  have regular := reached.regular
  have hpending : (s.world.hub.pendingDelegation.current s.world.block.height).1 =
      queuedStake s.world.queue := congrArg Prod.fst regular.pending_eq
  have hbalance : (s.world.querier d.toDeployment).balance d.hub
      s.world.hub.parameters.stakingCoinDenom = s.world.bank := if_pos ⟨rfl, regular.denom_eq⟩
  refine Hub.actualFreeBalance_eq_ok.2 ⟨started, ?_, ?_⟩
  · show (s.world.hub.pendingDelegation.current s.world.block.height).1 ≤
      (s.world.querier d.toDeployment).balance d.hub _
    rw [hpending, hbalance]
    exact queued
  · show (s.world.querier d.toDeployment).balance d.hub _ -
      (s.world.hub.pendingDelegation.current s.world.block.height).1 = _
    rw [hpending, hbalance]

end BabyLst
