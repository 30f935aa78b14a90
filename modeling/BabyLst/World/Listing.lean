/-
# Reading the lists of a system that goes on

A client reads the requests of a user, or the histories of the batches, page by
page, while the users and the chain go on: between two pages any run may lie.
The pages together list every batch once (`pages_list_every_batch`), and every
request of a user who withdraws nothing meanwhile (`pages_list_every_request`);
what they say is still so at the end, but that a batch may have been released.

What is listed as released is what a withdrawal pays, whatever lies between the
two (`listed_requests_are_paid`).
-/

import BabyLst.Hub.Listing
import BabyLst.World.Batches
import BabyLst.World.Requests

namespace BabyLst

open Lib Std

variable {T : Type} {d : Protocol T}

/-- The answer of the hub to a query. -/
def System.queryHub (d : Protocol T) (s : System T) (msg : Hub.QueryMsg) : Exec Hub.QueryAnswer :=
  Hub.query (s.querier d) s.world.hub (s.world.env d.hub) msg

/-- A system that has been set up, and has gone on. -/
def System.Reached (d : Protocol T) (s : System T) : Prop :=
  ∃ s₀ tr, System.Created d s₀ ∧ Run (System.Step d) s₀ tr s

theorem System.Reached.go {s s' : System T} {tr : List (SystemAction × System T)}
    (h : s.Reached d) (run : Run (System.Step d) s tr s') : s'.Reached d := by
  obtain ⟨s₀, tr₀, created, before⟩ := h
  exact ⟨s₀, _, created, before.append run⟩

theorem System.Reached.wired {s : System T} (h : s.Reached d) : s.Wired d := by
  obtain ⟨s₀, tr₀, created, before⟩ := h
  exact (created.regular before).1

theorem System.Reached.regular {s : System T} (h : s.Reached d) :
    (s.world.books d.toDeployment).Regular d.toDeployment := by
  obtain ⟨s₀, tr₀, created, before⟩ := h
  exact (created.regular before).2

theorem HubAt.numbered {s : System T} {t : Hub.Clocked} (h : HubAt d s t) (ht : t.Numbered) :
    s.clocked.Numbered := by
  have htime := h.time_le
  obtain ⟨⟨ledger, closed⟩, entry_pos⟩ := ht
  rw [h.hub_eq] at ledger closed entry_pos
  exact ⟨⟨ledger, fun b e hb => (closed b e hb).trans htime⟩, entry_pos⟩

theorem System.Reached.numbered {s : System T} (h : s.Reached d) : s.clocked.Numbered := by
  obtain ⟨s₀, tr₀, created, before⟩ := h
  obtain ⟨hub, setup, t, hcreated, hsetup, ht⟩ := created.hubAt
  obtain ⟨calls, u, hrun, hu, -⟩ := System.hubRun before ht
  exact hu.numbered (Hub.Run.numbered (hsetup.append hrun) hcreated.numbered)

theorem System.Reached.ledger {s : System T} (h : s.Reached d) : Hub.BatchLedger s.world.hub :=
  h.numbered.ledger.1

/-! ### What lies between two pages -/

/-- The action is a withdrawal of the user. -/
def SystemAction.withdrawsFor (user : Addr) : SystemAction → Bool
  | .act (.transact sender _ (.hub msg) _) => Hub.withdrawsFor user ⟨sender, []⟩ msg
  | _ => false

theorem SystemAction.Makes.withdrawsFor {act : SystemAction} {c : Hub.Call} {user : Addr}
    (h : act.Makes d c) (never : act.withdrawsFor user = false) :
    Hub.withdrawsFor user c.info c.msg = false := by
  cases h with
  | @direct sender contract msg funds c _ msg_eq sender_eq =>
    rw [msg_eq]
    cases msg with
    | withdrawUnstaked => rw [Hub.withdrawsFor, sender_eq]; exact never
    | withdrawUnstakedForBatches => rw [Hub.withdrawsFor, sender_eq]; exact never
    | _ => rfl
  | handed sends msg_eq =>
    rw [msg_eq]
    rfl
  | between hbetween =>
    cases hmsg : c.msg with
    | withdrawUnstaked =>
      rw [hmsg] at hbetween
      cases hbetween
    | withdrawUnstakedForBatches =>
      rw [hmsg] at hbetween
      cases hbetween
    | _ => rfl

/-- The system goes on. -/
def System.Later (d : Protocol T) (s s' : System T) : Prop := ∃ tr, Run (System.Step d) s tr s'

/-- The system goes on, and the user withdraws nothing. -/
def System.LaterFor (d : Protocol T) (user : Addr) (s s' : System T) : Prop :=
  ∃ tr, Run (System.Step d) s tr s' ∧ ∀ e ∈ tr, e.1.withdrawsFor user = false

theorem System.Reached.histories_grow {s s' : System T} (h : s.Reached d) (later : s.Later d s') :
    s'.Reached d ∧ Grows Hub.UnstakeHistory.batchId Hub.UnstakeHistory.Stays
      s.world.hub.histories s'.world.hub.histories := by
  obtain ⟨tr, run⟩ := later
  have hs := h.numbered.ledger
  have hs' := (h.go run).numbered.ledger
  obtain ⟨calls, t, hrun, ht, -⟩ := System.hubRun run h.wired.hubAt
  have hkept := (Hub.Run.ledger hrun hs).2
  rw [ht.hub_eq] at hkept
  exact ⟨h.go run, hkept.histories_grow hs.1 hs'.1⟩

/-- What a run keeps in which a user withdraws nothing. -/
theorem System.Reached.kept {s s' : System T} {user : Addr} (h : s.Reached d)
    (later : s.LaterFor d user s') :
    s'.Reached d ∧ Hub.Kept s.world.hub s'.world.hub ∧ ∀ b < s.world.hub.currentBatch.id,
      s'.world.hub.unstakeWaitList[(user, b)]? = s.world.hub.unstakeWaitList[(user, b)]? := by
  obtain ⟨tr, run, never⟩ := later
  have hs := h.numbered.ledger
  obtain ⟨calls, t, hrun, ht, hcalls⟩ := System.hubRun run h.wired.hubAt
  have hkept := (Hub.Run.ledger hrun hs).2
  rw [ht.hub_eq] at hkept
  refine ⟨h.go run, hkept, fun b hb => ?_⟩
  have hentry := Hub.Run.closed_entry_kept hrun hs hb fun e he => by
    obtain ⟨a, ha, hmakes⟩ := hcalls e he
    exact hmakes.withdrawsFor (never a ha)
  rw [ht.hub_eq] at hentry
  exact hentry

theorem System.Reached.requests_grow {s s' : System T} {user : Addr} (h : s.Reached d)
    (later : s.LaterFor d user s') :
    s'.Reached d ∧ Grows Hub.UserUnstakeRequestsResponse.batchId
      Hub.UserUnstakeRequestsResponse.Stays (s.world.hub.requests user)
      (s'.world.hub.requests user) := by
  obtain ⟨h', hkept, entries⟩ := h.kept later
  exact ⟨h', hkept.requests_grow h.ledger h'.ledger entries⟩

/-! ### Pages -/

/-- A page of a user's requests. -/
def System.RequestsPage (d : Protocol T) (user : Addr) (limit : ℕ) (s : System T) (start : ℕ)
    (requests : List Hub.UserUnstakeRequestsResponse) : Prop :=
  s.queryHub d (.unstakeRequestsLimit user (some start) (some limit)) =
    .ok (.unstakeRequests ⟨user, requests⟩)

/-- A page of the histories. -/
def System.HistoryPage (d : Protocol T) (limit : ℕ) (s : System T) (start : ℕ)
    (history : List Hub.UnstakeHistory) : Prop :=
  s.queryHub d (.allHistory (some start) (some limit)) = .ok (.allHistory ⟨history⟩)

theorem System.Reached.requestsPage {s : System T} {user : Addr} {start limit : ℕ}
    {requests : List Hub.UserUnstakeRequestsResponse} (h : s.Reached d)
    (shown : s.RequestsPage d user limit start requests) :
    requests = page Hub.UserUnstakeRequestsResponse.batchId start limit
      (s.world.hub.requests user) := by
  simp only [System.RequestsPage, System.queryHub, Hub.query, Hub.queryUnstakeRequestsLimit,
    bind_eq_ok, toCheckedAddress_eq_ok, pure_eq_ok, Hub.QueryAnswer.unstakeRequests.injEq] at shown
  obtain ⟨_, ⟨_, ⟨-, rfl⟩, rfl⟩, hpage⟩ := shown
  rw [← (Hub.UnstakeRequestsResponses.mk.inj hpage).2]
  exact h.numbered.getUnstakeRequests_eq_page user start limit

theorem System.Reached.historyPage {s : System T} {start limit : ℕ}
    {history : List Hub.UnstakeHistory} (h : s.Reached d)
    (shown : s.HistoryPage d limit start history) :
    history = page Hub.UnstakeHistory.batchId start limit s.world.hub.histories := by
  simp only [System.HistoryPage, System.queryHub, Hub.query, pure_eq_ok,
    Hub.QueryAnswer.allHistory.injEq] at shown
  rw [← h.ledger.queryUnstakeRequestsLimitation_eq_page, shown]

/-- **The requests of a user from a batch on, as they have been listed**: each
closed batch that the user has an entry in once, in order, with what the hub has
of it, but that it may have been released since. -/
structure Hub.ListsRequests (st : Hub.Storage) (user : Addr) (start : ℕ)
    (requests : List Hub.UserUnstakeRequestsResponse) : Prop where
  ascending : (requests.map (·.batchId)).Pairwise (· < ·)
  complete : ∀ b, b ∈ requests.map (·.batchId) ↔
    start ≤ b ∧ st.unstakeWaitList[(user, b)]? ≠ none ∧ st.unstakeHistory[b]? ≠ none
  current : ∀ r ∈ requests, st.unstakeWaitList[(user, r.batchId)]? = some r.lstAmount ∧
    ∃ h, st.unstakeHistory[r.batchId]? = some h ∧ (r.released = true → h.released = true) ∧
      r = ⟨r.batchId, r.lstAmount, h.lstWithdrawRate, h.lstAppliedExchangeRate, h.time, r.released⟩

/-- **The histories from a batch on, as they have been listed.** -/
structure Hub.ListsHistories (st : Hub.Storage) (start : ℕ) (history : List Hub.UnstakeHistory) :
    Prop where
  ids : history.map (·.batchId) =
    (List.range' 1 (st.currentBatch.id - 1)).filter fun b => start ≤ b
  current : ∀ e ∈ history, ∃ released,
    st.unstakeHistory[e.batchId]? = some { e with released := released } ∧
      (e.released = true → released = true)

/-- **The pages list every request**: read page by page, with whatever run in which
the user withdraws nothing between two pages, until a page is short, the requests
are those that the user has in the end. -/
theorem pages_list_every_request {s t : System T} {user : Addr} {start limit : ℕ}
    {requests : List Hub.UserUnstakeRequestsResponse} (reached : s.Reached d)
    (walk : Walk (System.RequestsPage d user limit) Hub.UserUnstakeRequestsResponse.batchId limit
      (System.LaterFor d user) s start requests t) :
    Hub.ListsRequests t.world.hub user start requests := by
  obtain ⟨-, -, hkeys, hkept⟩ := walk.complete (P := System.Reached d)
    (fun _ _ _ h shown => h.requestsPage shown)
    (fun s _ => Hub.ascending_requests s.world.hub user) (fun _ _ h later => h.requests_grow later)
    Hub.UserUnstakeRequestsResponse.Stays.refl Hub.UserUnstakeRequestsResponse.Stays.trans reached
  have hall := (Hub.ascending_requests t.world.hub user).entriesFrom start
  refine ⟨?_, fun b => ?_, fun r hr => ?_⟩
  · rw [hkeys]
    exact List.pairwise_map.2 hall
  · rw [hkeys, ← Hub.mem_requests_batchId]
    simp only [entriesFrom, List.mem_map, List.mem_filter, decide_eq_true_eq]
    grind
  · obtain ⟨r', hr', released, rfl, himp⟩ := hkept r hr
    obtain ⟨hentry, h, hb, heq⟩ := Hub.mem_requests.1 hr'
    simp only [Hub.UserUnstakeRequestsResponse.mk.injEq, true_and] at heq
    obtain ⟨hwithdraw, happlied, htime, hreleased⟩ := heq
    refine ⟨hentry, h, hb, fun hr => hreleased ▸ himp hr, ?_⟩
    rw [← hwithdraw, ← happlied, ← htime]

/-- The first batch of the sample is closed. -/
def sampleFirstClosed : System Token.Ledger := systemEnd ((sampleTwoBatches.take 8).map acts)

/-- So is the second, and both are old enough. -/
def sampleBothClosed : System Token.Ledger :=
  playEnd (System.line anyAct) sampleFirstClosed ((sampleTwoBatches.drop 8).map acts)

theorem sampleFirstClosed_reached : sampleFirstClosed.Reached sampleProtocol :=
  ⟨_, _, sampleSystem_created, systemRun ((sampleTwoBatches.take 8).map acts) (by decide +kernel)⟩

/-- What lies between the two: the trace of the second part. -/
def sampleBetween : List (SystemAction × System Token.Ledger) :=
  playTrace (System.line anyAct) sampleFirstClosed ((sampleTwoBatches.drop 8).map acts)

theorem sampleBetween_run :
    Run (System.Step sampleProtocol) sampleFirstClosed sampleBetween sampleBothClosed :=
  System.playedFrom sampleFirstClosed _ (fun h _ => h) (by decide +kernel)

/-- A request as it is listed before its batch is released. -/
def listedSample (batchId lstAmount time : ℕ) : Hub.UserUnstakeRequestsResponse :=
  ⟨batchId, lstAmount, Decimal.one, Decimal.one, time, false⟩

/-- The second batch is closed after the first page of one request is read. -/
theorem pages_list_every_request_sample :
    Hub.ListsRequests sampleBothClosed.world.hub "bob" 0
      [listedSample 1 30 8000, listedSample 2 10 16000] := by
  have facts : sampleFirstClosed.queryHub sampleProtocol
        (.unstakeRequestsLimit "bob" (some 0) (some 1)) =
        .ok (.unstakeRequests ⟨"bob", [listedSample 1 30 8000]⟩) ∧
      sampleBothClosed.queryHub sampleProtocol
        (.unstakeRequestsLimit "bob" (some 2) (some 1)) =
        .ok (.unstakeRequests ⟨"bob", [listedSample 2 10 16000]⟩) ∧
      sampleBothClosed.queryHub sampleProtocol
        (.unstakeRequestsLimit "bob" (some 3) (some 1)) = .ok (.unstakeRequests ⟨"bob", []⟩) ∧
      ∀ e ∈ sampleBetween, e.1.withdrawsFor "bob" = false := by
    decide +kernel
  obtain ⟨first, second, third, never⟩ := facts
  have rest : Walk (System.RequestsPage sampleProtocol "bob" 1)
      Hub.UserUnstakeRequestsResponse.batchId 1 (System.LaterFor sampleProtocol "bob")
      sampleBothClosed 2 ([listedSample 2 10 16000] ++ []) sampleBothClosed :=
    .more second rfl rfl ⟨[], .refl, by simp⟩ (.last third Nat.zero_lt_one)
  have walk : Walk (System.RequestsPage sampleProtocol "bob" 1)
      Hub.UserUnstakeRequestsResponse.batchId 1 (System.LaterFor sampleProtocol "bob")
      sampleFirstClosed 0 ([listedSample 1 30 8000] ++ ([listedSample 2 10 16000] ++ []))
      sampleBothClosed := .more first rfl rfl ⟨_, sampleBetween_run, never⟩ rest
  exact pages_list_every_request sampleFirstClosed_reached walk

/-- **The pages list every batch**: read page by page while the system goes on as
it likes, until a page is short, the histories are those of all batches closed in
the end. -/
theorem pages_list_every_batch {s t : System T} {start limit : ℕ}
    {history : List Hub.UnstakeHistory} (reached : s.Reached d)
    (walk : Walk (System.HistoryPage d limit) Hub.UnstakeHistory.batchId limit (System.Later d) s
      start history t) : Hub.ListsHistories t.world.hub start history := by
  obtain ⟨-, ht, hkeys, hkept⟩ := walk.complete (P := System.Reached d)
    (fun _ _ _ h shown => h.historyPage shown)
    (fun _ h => h.ledger.ascending_histories)
    (fun _ _ h later => h.histories_grow later)
    Hub.UnstakeHistory.Stays.refl Hub.UnstakeHistory.Stays.trans reached
  refine ⟨?_, fun e he => ?_⟩
  · rw [hkeys, ← ht.ledger.map_histories, List.filter_map]
    rfl
  · obtain ⟨_, he', released, rfl, himp⟩ := hkept e he
    exact ⟨released, ht.ledger.mem_histories.1 he', himp⟩

/-- Again the second batch is closed after the first page. -/
theorem pages_list_every_batch_sample :
    ∃ history : List Hub.UnstakeHistory, history.length = 2 ∧
      Hub.ListsHistories sampleBothClosed.world.hub 0 history := by
  let first : Hub.UnstakeHistory := ⟨1, 8000, 60, Decimal.one, Decimal.one, false⟩
  let second : Hub.UnstakeHistory := ⟨2, 16000, 10, Decimal.one, Decimal.one, false⟩
  have facts : sampleFirstClosed.queryHub sampleProtocol (.allHistory (some 0) (some 1)) =
        .ok (.allHistory ⟨[first]⟩) ∧
      sampleBothClosed.queryHub sampleProtocol (.allHistory (some 2) (some 1)) =
        .ok (.allHistory ⟨[second]⟩) ∧
      sampleBothClosed.queryHub sampleProtocol (.allHistory (some 3) (some 1)) =
        .ok (.allHistory ⟨[]⟩) := by
    decide +kernel
  obtain ⟨page₁, page₂, page₃⟩ := facts
  have rest : Walk (System.HistoryPage sampleProtocol 1) Hub.UnstakeHistory.batchId 1
      (System.Later sampleProtocol) sampleBothClosed 2 ([second] ++ []) sampleBothClosed :=
    .more page₂ rfl rfl ⟨[], .refl⟩ (.last page₃ Nat.zero_lt_one)
  have walk : Walk (System.HistoryPage sampleProtocol 1) Hub.UnstakeHistory.batchId 1
      (System.Later sampleProtocol) sampleFirstClosed 0 ([first] ++ ([second] ++ []))
      sampleBothClosed := .more page₁ rfl rfl ⟨_, sampleBetween_run⟩ rest
  exact ⟨_, rfl, pages_list_every_batch sampleFirstClosed_reached walk⟩

/-! ### What is listed as released -/

/-- **A withdrawal in the system**: it releases what it can, and pays the user
what the released requests are then worth. -/
structure System.Withdrawn (d : Protocol T) (s : System T) (user : Addr) (funds : List Coin)
    (released : List (ℕ × Hub.UnstakeHistory)) (s' : System T) : Prop where
  release : ∃ cutoff balance left, Hub.Release s.world.hub.unstakeHistory cutoff
    s.world.hub.state.lastProcessedBatch balance released left
  bank_eq : s'.world.bank + (s.world.hub.afterRelease released).withdrawal user none =
    s.world.bank + fundsIn d.denom funds
  history_eq : s'.world.hub.unstakeHistory = (s.world.hub.afterRelease released).unstakeHistory
  last_eq : s'.world.hub.state.lastProcessedBatch =
    (s.world.hub.afterRelease released).state.lastProcessedBatch
  entries_eq : ∀ b, s'.world.hub.unstakeWaitList[(user, b)]? =
    if (s.world.hub.afterRelease released).released b = true then none
    else s.world.hub.unstakeWaitList[(user, b)]?

theorem System.withdraw_ok {s s' : System T} {user contract : Addr} {funds : List Coin}
    (reached : s.Reached d)
    (step : s.Step d (.act (.transact user contract (.hub .withdrawUnstaked) funds)) s') :
    ∃ released, s.Withdrawn d user funds released s' := by
  obtain ⟨-, ⟨-, -, hworld⟩ | ⟨hne, -⟩⟩ := System.transact_cases reached.wired step
  · rw [CALL_DEPTH, deliverAll_call] at hworld
    obtain ⟨w₁, messages, hcall, hdeliver⟩ := hworld
    obtain ⟨rfl, q, hub, res, -, hx, rfl, rfl⟩ := callContract_hub hcall
    have hmsg : Hub.execute q s.world.hub ⟨s.world.block, d.hub⟩ ⟨user, funds⟩
        (Hub.withdrawMsg none) = .ok (hub, res) := hx
    have hwithdrawn := Hub.executeWithdrawUnstakedImpl_ok (Hub.execute_withdrawMsg.1 hmsg).2
    obtain @⟨free, left, amount, released, res, -, -, -, release, amount_eq, -, -, messages_eq,
      -⟩ := hwithdrawn
    have hdenom : s.world.hub.parameters.stakingCoinDenom = d.denom := reached.regular.denom_eq
    rw [messages_eq, hdenom] at hdeliver
    obtain ⟨-, hle, hw⟩ := deliverAll_bankSend.1 hdeliver
    refine ⟨released, ⟨⟨_, _, _, release⟩, ?_, ?_, ?_, fun b => ?_⟩⟩
    · rw [hw, ← amount_eq]
      dsimp only at hle ⊢
      omega
    · rw [hw]
      rfl
    · rw [hw]
    · have hentry := Hub.removeUnstakeWaitList_getElem? user
        ((s.world.hub.afterRelease released).finishedBatches user none)
        (s.world.hub.afterRelease released) (user, b)
      rw [hw]
      refine hentry.trans ?_
      by_cases hreleased : (s.world.hub.afterRelease released).released b = true
      · rw [if_pos hreleased]
        split_ifs with hin
        · rfl
        · by_contra hne
          obtain ⟨amount, hamount⟩ := Option.ne_none_iff_exists'.1 hne
          refine hin ⟨rfl, List.mem_map.2 ⟨(b, amount), List.mem_filter.2 ⟨?_, hreleased⟩, rfl⟩⟩
          exact Hub.mem_userEntries.2 hamount
      · rw [if_neg hreleased, if_neg fun hin => hreleased (Hub.mem_finishedBatches hin.2)]
        rfl
  · cases hne

/-- The query of all requests lists them, so many at most. -/
theorem System.Reached.requestsListed {s : System T} {user : Addr}
    {requests : List Hub.UserUnstakeRequestsResponse} (h : s.Reached d)
    (listed : s.queryHub d (.unstakeRequests user) = .ok (.unstakeRequests ⟨user, requests⟩)) :
    requests = (s.world.hub.requests user).take Hub.U32_MAX := by
  simp only [System.queryHub, Hub.query, Hub.queryUnstakeRequests, bind_eq_ok,
    toCheckedAddress_eq_ok, pure_eq_ok, Hub.QueryAnswer.unstakeRequests.injEq] at listed
  obtain ⟨_, ⟨_, ⟨-, rfl⟩, rfl⟩, hpage⟩ := listed
  rw [← (Hub.UnstakeRequestsResponses.mk.inj hpage).2]
  exact h.numbered.getUnstakeRequests_none user

/-- What a withdrawal finds released after a run, when no batch has been released
since the requests were listed. -/
theorem Hub.Kept.listed_before {st st' : Hub.Storage} (h : Hub.Kept st st')
    (ledger : Hub.BatchLedger st) (ledger' : Hub.BatchLedger st')
    (last_eq : st'.state.lastProcessedBatch = st.state.lastProcessedBatch) {user : Addr}
    (entries : ∀ b < st.currentBatch.id,
      st'.unstakeWaitList[(user, b)]? = st.unstakeWaitList[(user, b)]?)
    {r : Hub.UserUnstakeRequestsResponse} (hr : r ∈ st'.requests user)
    (hreleased : r.released = true) :
    r ∈ st.requests user := by
  obtain ⟨hentry, e', he', heq⟩ := Hub.mem_requests.1 hr
  have hflag' : e'.released = true := by
    rw [heq] at hreleased
    exact hreleased
  have hlast := (ledger'.released_iff _ e' he').1 hflag'
  rw [last_eq] at hlast
  have hlt := hlast.trans_lt ledger.last_lt
  have hpos := ((ledger'.closed_iff _).1 ⟨e', he'⟩).1
  obtain ⟨e, he⟩ := (ledger.closed_iff r.batchId).2 ⟨hpos, hlt⟩
  have hflag := (ledger.released_iff _ e he).2 hlast
  obtain ⟨_, hkept, himp⟩ := h _ e he
  obtain rfl := Option.some.inj (he'.symm.trans hkept)
  refine Hub.mem_requests.2 ⟨(entries _ hlt).symm.trans hentry, e, he, ?_⟩
  rw [heq]
  simp [himp hflag, hflag]

/-- **Listed requests are paid**: what a user's requests are listed as released
with is paid by the withdrawal of this user, whatever lies between but other
withdrawals of the user; it is all that is paid if no batch is released in
between or by the withdrawal, and nothing that is released is left then. -/
theorem listed_requests_are_paid {s s' s'' : System T} {user contract : Addr} {funds : List Coin}
    {requests : List Hub.UserUnstakeRequestsResponse} (reached : s.Reached d)
    (listed : s.queryHub d (.unstakeRequests user) = .ok (.unstakeRequests ⟨user, requests⟩))
    (later : s.LaterFor d user s')
    (step : s'.Step d (.act (.transact user contract (.hub .withdrawUnstaked) funds)) s'') :
    ∃ paid, s''.world.bank + paid = s'.world.bank + fundsIn d.denom funds ∧
      Hub.releasedWorth requests ≤ paid ∧
      (requests.length < Hub.U32_MAX →
        s''.world.hub.state.lastProcessedBatch = s.world.hub.state.lastProcessedBatch →
        paid = Hub.releasedWorth requests) ∧
      ∀ r ∈ s''.world.hub.requests user, r.released = false := by
  obtain ⟨reached', kept, entries⟩ := reached.kept later
  have grows := kept.requests_grow reached.ledger reached'.ledger entries
  obtain ⟨released, withdrawn⟩ := System.withdraw_ok reached' step
  obtain ⟨cutoff, balance, left, release⟩ := withdrawn.release
  have hlisted := reached.requestsListed listed
  have hpaid : ∀ r ∈ s.world.hub.requests user, r.released = true →
      r ∈ (s'.world.hub.afterRelease released).requests user := by
    intro r hr hreleased
    obtain ⟨r', hr', hstays⟩ := grows.kept r hr
    rw [hstays.of_released hreleased] at hr'
    exact release.listed hr' hreleased
  have hnodup := Hub.nodup_requests s.world.hub user
  refine ⟨_, withdrawn.bank_eq, ?_, fun short last_eq => ?_, fun r hr => ?_⟩
  · rw [← Hub.releasedWorth_requests, hlisted]
    exact Hub.releasedWorth_mono (hnodup.sublist (List.take_sublist ..)) fun r hr =>
      hpaid r (List.mem_of_mem_take hr)
  · -- nothing is cut off, and nothing is released that was not listed as such
    have hall : requests = s.world.hub.requests user := by
      rw [hlisted, List.length_take] at short
      rw [hlisted, List.take_of_length_le (by omega)]
    rw [withdrawn.last_eq] at last_eq
    rw [← Hub.releasedWorth_requests, hall]
    refine Nat.le_antisymm ?_ (Hub.releasedWorth_mono hnodup hpaid)
    exact Hub.releasedWorth_mono (Hub.nodup_requests _ user) fun r hr hreleased =>
      (kept.trans release.kept).listed_before reached.ledger (release.ledger reached'.ledger)
        last_eq entries hr hreleased
  · obtain ⟨hentry, e, he, heq⟩ := Hub.mem_requests.1 hr
    rw [withdrawn.entries_eq] at hentry
    split_ifs at hentry with hreleased
    rw [withdrawn.history_eq] at he
    simp only [Hub.Storage.released, he, Bool.not_eq_true] at hreleased
    rw [heq]
    exact hreleased

/-- Both batches are released and 40 listed; the other user withdraws first. -/
theorem listed_requests_are_paid_sample :
    let s := playEnd (System.line anyAct) sampleBothClosed
      [acts (toHub "carol" .processWithdrawRequests)]
    let s' := playEnd (System.line anyAct) s [acts (toHub "alice" .withdrawUnstaked)]
    let act := SystemAction.act (.transact "bob" "hub" (.hub .withdrawUnstaked) [])
    s'.world.bank = 40 ∧ (s'.next act).world.bank = 0 ∧
      ∃ requests paid, Hub.releasedWorth requests = 40 ∧
        (s'.next act).world.bank + paid = s'.world.bank ∧
        Hub.releasedWorth requests ≤ paid := by
  intro s s' act
  have released := System.playedFrom sampleBothClosed
    [acts (toHub "carol" .processWithdrawRequests)]
    (fun {s s' act} (h : s.Step sampleProtocol act s') (_ : anyAct s act = true) => h)
    (by decide +kernel)
  have between : Run (System.Step sampleProtocol) s
      (playTrace (System.line anyAct) s [acts (toHub "alice" .withdrawUnstaked)]) s' :=
    System.playedFrom s [acts (toHub "alice" .withdrawUnstaked)]
      (fun {s s' act} (h : s.Step sampleProtocol act s') (_ : anyAct s act = true) => h)
      (by decide +kernel)
  let requests : List Hub.UserUnstakeRequestsResponse :=
    [{ listedSample 1 30 8000 with released := true },
     { listedSample 2 10 16000 with released := true }]
  have facts : s'.world.bank = 40 ∧ (s'.next act).world.bank = 0 ∧
      Hub.releasedWorth requests = 40 ∧
      s.queryHub sampleProtocol (.unstakeRequests "bob") =
        .ok (.unstakeRequests ⟨"bob", requests⟩) ∧
      (∀ e ∈ playTrace (System.line anyAct) s [acts (toHub "alice" .withdrawUnstaked)],
        e.1.withdrawsFor "bob" = false) ∧
      (s'.exec sampleProtocol act).isOk = true := by
    decide +kernel
  obtain ⟨hbank, hafter, hworth, hlisted, hnever, haccepted⟩ := facts
  have reached := (sampleFirstClosed_reached.go sampleBetween_run).go released
  obtain ⟨paid, hpaid, hle, -⟩ := listed_requests_are_paid reached hlisted ⟨_, between, hnever⟩
    (System.step_next s' act haccepted)
  have hnone : fundsIn sampleProtocol.toDeployment.denom [] = 0 := rfl
  rw [hnone, Nat.add_zero] at hpaid
  exact ⟨hbank, hafter, requests, paid, hworth, hpaid, hle⟩

end BabyLst
