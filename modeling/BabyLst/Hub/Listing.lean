/-
# What the pages of the hub show

`get_unstake_requests` takes so many entries of a user before it passes over those
without a history, so a page may show less than was asked for although more is to
come.  In a hub that is reached only the open batch has no history, and it is the
last; so what is shown is a page of the requests of closed batches
(`getUnstakeRequests_eq_page`), and a short page is the last one.  The requests
and the histories only grow while the hub is used (`Numbered.requests_grow`,
`Numbered.histories_grow`), a user's requests unless this user withdraws.
-/

import BabyLst.Hub.Entries
import BabyLst.Hub.Query
import BabyLst.Lib.Paging

namespace BabyLst
namespace Hub

open Lib Std

/-- A user's requests in the batches that are closed. -/
def Storage.requests (st : Storage) (user : Addr) : List UserUnstakeRequestsResponse :=
  (userEntries st.unstakeWaitList user).filterMap (unstakeRequest st)

/-- The histories of the closed batches. -/
def Storage.histories (st : Storage) : List UnstakeHistory := st.unstakeHistory.toList.map Prod.snd

/-! ### Entries and requests -/

theorem mem_userEntries {waitList : WaitList} {user : Addr} {e : ℕ × ℕ} :
    e ∈ userEntries waitList user ↔ waitList[(user, e.1)]? = some e.2 := by
  refine ⟨fun h => ?_, fun h => ?_⟩
  · have he : e ∈ requestedEntries waitList user none := h
    exact mem_requestedEntries he
  refine List.mem_map.2 ⟨((user, e.1), e.2), List.mem_filter.2 ⟨?_, by simp⟩, rfl⟩
  exact ExtTreeMap.mem_toList_iff_getElem?_eq_some.2 h

theorem ascending_userEntries (waitList : WaitList) (user : Addr) :
    Ascending Prod.fst (userEntries waitList user) := by
  unfold Ascending userEntries
  rw [List.pairwise_map, List.pairwise_filter]
  refine waitList.ordered_keys_toList.imp ?_
  intro e e' hlt he he'
  rw [decide_eq_true_eq] at he he'
  have hsame : compare e.1.1 e'.1.1 = .eq := by rw [he, he', Std.compare_eq_iff_eq]
  simp only [compareLex, compareOn, hsame, Ordering.eq_then] at hlt
  exact Nat.compare_eq_lt.1 hlt

theorem unstakeRequest_eq_some {st : Storage} {e : ℕ × ℕ} {r : UserUnstakeRequestsResponse} :
    unstakeRequest st e = some r ↔ ∃ h, st.unstakeHistory[e.1]? = some h ∧
      r = ⟨e.1, e.2, h.lstWithdrawRate, h.lstAppliedExchangeRate, h.time, h.released⟩ := by
  unfold unstakeRequest readUnstakeHistory
  cases st.unstakeHistory[e.1]? with
  | none => simp [okOr]
  | some h => simp [okOr, eq_comm]

theorem unstakeRequest_batchId {st : Storage} (e : ℕ × ℕ) (r : UserUnstakeRequestsResponse)
    (h : unstakeRequest st e = some r) : r.batchId = e.1 := by
  obtain ⟨_, -, rfl⟩ := unstakeRequest_eq_some.1 h
  rfl

theorem ascending_requests (st : Storage) (user : Addr) :
    Ascending UserUnstakeRequestsResponse.batchId (st.requests user) :=
  (ascending_userEntries _ user).filterMap unstakeRequest_batchId

/-- A request is listed with its entry and its history. -/
theorem mem_requests {st : Storage} {user : Addr} {r : UserUnstakeRequestsResponse} :
    r ∈ st.requests user ↔ st.unstakeWaitList[(user, r.batchId)]? = some r.lstAmount ∧
      ∃ h, st.unstakeHistory[r.batchId]? = some h ∧ r = ⟨r.batchId, r.lstAmount,
        h.lstWithdrawRate, h.lstAppliedExchangeRate, h.time, h.released⟩ := by
  unfold Storage.requests
  rw [List.mem_filterMap]
  constructor
  · rintro ⟨e, he, hr⟩
    obtain ⟨h, hb, rfl⟩ := unstakeRequest_eq_some.1 hr
    exact ⟨mem_userEntries.1 he, h, hb, rfl⟩
  · rintro ⟨hentry, h, hb, hr⟩
    exact ⟨(r.batchId, r.lstAmount), mem_userEntries.2 hentry,
      unstakeRequest_eq_some.2 ⟨h, hb, hr⟩⟩

/-- The batches of the requests: those closed that the user has an entry in. -/
theorem mem_requests_batchId {st : Storage} {user : Addr} {b : ℕ} :
    b ∈ (st.requests user).map UserUnstakeRequestsResponse.batchId ↔
      st.unstakeWaitList[(user, b)]? ≠ none ∧ st.unstakeHistory[b]? ≠ none := by
  rw [List.mem_map]
  constructor
  · rintro ⟨r, hr, rfl⟩
    obtain ⟨hentry, h, hb, -⟩ := mem_requests.1 hr
    simp [hentry, hb]
  · rintro ⟨hentry, hb⟩
    obtain ⟨amount, hentry⟩ := Option.ne_none_iff_exists'.1 hentry
    obtain ⟨h, hb⟩ := Option.ne_none_iff_exists'.1 hb
    exact ⟨⟨b, amount, h.lstWithdrawRate, h.lstAppliedExchangeRate, h.time, h.released⟩,
      mem_requests.2 ⟨hentry, h, hb, rfl⟩, rfl⟩

/-! ### Histories -/

theorem BatchLedger.mem_histories {st : Storage} (ledger : BatchLedger st) {e : UnstakeHistory} :
    e ∈ st.histories ↔ st.unstakeHistory[e.batchId]? = some e := by
  unfold Storage.histories
  rw [List.mem_map]
  constructor
  · rintro ⟨⟨b, e⟩, he, rfl⟩
    have hb := ExtTreeMap.mem_toList_iff_getElem?_eq_some.1 he
    rw [ledger.id_eq b e hb]
    exact hb
  · intro hb
    exact ⟨(e.batchId, e), ExtTreeMap.mem_toList_iff_getElem?_eq_some.2 hb, rfl⟩

/-- A history is listed under its own id. -/
theorem BatchLedger.batchId_eq {st : Storage} (ledger : BatchLedger st) {p : ℕ × UnstakeHistory}
    (hp : p ∈ st.unstakeHistory.toList) : p.2.batchId = p.1 :=
  ledger.id_eq p.1 p.2 (ExtTreeMap.mem_toList_iff_getElem?_eq_some.1 hp)

theorem BatchLedger.ascending_histories {st : Storage} (ledger : BatchLedger st) :
    Ascending UnstakeHistory.batchId st.histories := by
  unfold Ascending Storage.histories
  rw [List.pairwise_map]
  refine st.unstakeHistory.ordered_keys_toList.imp_of_mem ?_
  intro p p' hp hp' hlt
  rw [ledger.batchId_eq hp, ledger.batchId_eq hp']
  exact Nat.compare_eq_lt.1 hlt

/-- The ids of the histories: all of the closed batches. -/
theorem BatchLedger.map_histories {st : Storage} (ledger : BatchLedger st) :
    st.histories.map UnstakeHistory.batchId = List.range' 1 (st.currentBatch.id - 1) := by
  have hrange : Ascending id (List.range' 1 (st.currentBatch.id - 1)) := List.pairwise_lt_range' ..
  have hkeys := ledger.ascending_histories.keys_eq hrange fun b => by
    rw [List.map_id, List.mem_range'_1, List.mem_map]
    have hiff := ledger.closed_iff b
    constructor
    · rintro ⟨e, he, rfl⟩
      have := hiff.1 ⟨e, ledger.mem_histories.1 he⟩
      omega
    · intro hb
      obtain ⟨e, he⟩ := hiff.2 (by omega)
      have hid := ledger.id_eq b e he
      exact ⟨e, ledger.mem_histories.2 (by rw [hid]; exact he), hid⟩
  rw [hkeys, List.map_id]

/-! ### Pages -/

/-- What a run keeps: the ledger, and that no entry is of a batch 0. -/
structure Clocked.Numbered (s : Clocked) : Prop where
  ledger : s.Ledger
  entry_pos : ∀ user : Addr, s.st.unstakeWaitList[(user, (0 : ℕ))]? = none

theorem Created.numbered {msg : InstantiateMsg} {s : Clocked} (h : Created msg s) :
    s.Numbered := by
  refine ⟨h.ledger, fun user => ?_⟩
  obtain ⟨env, info, res, -, h⟩ := h
  simp [(instantiate_ok h).waitList_eq]

theorem Step.numbered {s s' : Clocked} {c : Call} (h : Step s c s') (hs : s.Numbered) :
    s'.Numbered := by
  refine ⟨(h.ledger hs.ledger).1, fun user => ?_⟩
  cases h.effect.entry (user, 0) with
  | kept entry_eq => exact entry_eq.trans (hs.entry_pos user)
  | requested mine current entry_eq =>
    have hlast := hs.ledger.1.last_lt
    rw [← current] at hlast
    exact absurd hlast (Nat.not_lt_zero _)
  | paid mine withdrawal released entry_eq => exact entry_eq

theorem Run.numbered {s t : Clocked} {tr : List (Call × Clocked)} (run : Run Step s tr t)
    (hs : s.Numbered) : t.Numbered :=
  run.invariant hs fun _ _ _ ht hstep => hstep.numbered ht

/-- **A page of a user's requests** is so many of the requests in closed batches:
the entry that is passed over is the last. -/
theorem Clocked.Numbered.getUnstakeRequests_eq_page {s : Clocked} (hs : s.Numbered) (user : Addr)
    (start limit : ℕ) : getUnstakeRequests s.st user (some start) (some limit) =
      page UserUnstakeRequestsResponse.batchId start limit (s.st.requests user) := by
  have passed : ∀ e ∈ userEntries s.st.unstakeWaitList user,
      unstakeRequest s.st e = none ↔ s.st.currentBatch.id ≤ e.1 := by
    intro e he
    have hentry := mem_userEntries.1 he
    have hpos : e.1 ≠ 0 := by
      intro h0
      rw [h0, hs.entry_pos user] at hentry
      cases hentry
    have hclosed := hs.ledger.1.closed_iff e.1
    unfold unstakeRequest readUnstakeHistory
    cases hb : s.st.unstakeHistory[e.1]? with
    | none =>
      simp only [okOr, true_iff]
      by_contra hlt
      obtain ⟨h, hh⟩ := hclosed.2 ⟨by omega, by omega⟩
      rw [hb] at hh
      cases hh
    | some h =>
      have hlt := (hclosed.1 ⟨h, hb⟩).2
      simp only [okOr, reduceCtorEq, false_iff]
      omega
  exact page_filterMap unstakeRequest_batchId (ascending_userEntries _ user) passed start limit

/-- **A page of the histories** is so many of them. -/
theorem BatchLedger.queryUnstakeRequestsLimitation_eq_page {st : Storage} (ledger : BatchLedger st)
    (start limit : ℕ) : (queryUnstakeRequestsLimitation st (some start) (some limit)).history =
      page UnstakeHistory.batchId start limit st.histories := by
  simp only [queryUnstakeRequestsLimitation, allUnstakeHistory, rangeFrom, Option.getD_some,
    List.map_id', page, entriesFrom, Storage.histories, List.filter_map, List.map_take]
  congr 2
  refine List.filter_congr fun p hp => ?_
  rw [Function.comp_apply, ledger.batchId_eq hp]

/-! ### They only grow -/

/-- What is listed of a request stays, but that it may be released. -/
def UserUnstakeRequestsResponse.Stays (r r' : UserUnstakeRequestsResponse) : Prop :=
  ∃ released, r' = { r with released := released } ∧ (r.released = true → released = true)

/-- What is listed of a batch stays, but that it may be released. -/
def UnstakeHistory.Stays (e e' : UnstakeHistory) : Prop :=
  ∃ released, e' = { e with released := released } ∧ (e.released = true → released = true)

theorem UserUnstakeRequestsResponse.Stays.refl (r : UserUnstakeRequestsResponse) : r.Stays r :=
  ⟨r.released, rfl, id⟩

theorem UnstakeHistory.Stays.refl (e : UnstakeHistory) : e.Stays e := ⟨e.released, rfl, id⟩

theorem UserUnstakeRequestsResponse.Stays.trans (r r' r'' : UserUnstakeRequestsResponse)
    (h : r.Stays r') (h' : r'.Stays r'') : r.Stays r'' := by
  obtain ⟨_, rfl, himp⟩ := h
  obtain ⟨_, rfl, himp'⟩ := h'
  exact ⟨_, rfl, fun hr => himp' (himp hr)⟩

theorem UnstakeHistory.Stays.trans (e e' e'' : UnstakeHistory) (h : e.Stays e')
    (h' : e'.Stays e'') : e.Stays e'' := by
  obtain ⟨_, rfl, himp⟩ := h
  obtain ⟨_, rfl, himp'⟩ := h'
  exact ⟨_, rfl, fun hr => himp' (himp hr)⟩

/-- The current batch is never an earlier one again. -/
theorem Kept.id_le {st st' : Storage} (h : Kept st st') (ledger : BatchLedger st)
    (ledger' : BatchLedger st') : st.currentBatch.id ≤ st'.currentBatch.id := by
  have hlast := ledger'.last_lt
  by_cases hfirst : st.currentBatch.id ≤ 1
  · omega
  · obtain ⟨e, he⟩ := (ledger.closed_iff (st.currentBatch.id - 1)).2 (by omega)
    obtain ⟨_, he', -⟩ := h _ e he
    have := ((ledger'.closed_iff _).1 ⟨_, he'⟩).2
    omega

/-- A batch closed before is one closed now, and before the batch that was current. -/
theorem Kept.history_iff {st st' : Storage} (h : Kept st st') (ledger : BatchLedger st)
    (ledger' : BatchLedger st') {b : ℕ} (hb : b < st.currentBatch.id) :
    st.unstakeHistory[b]? ≠ none ↔ st'.unstakeHistory[b]? ≠ none := by
  have hle := h.id_le ledger ledger'
  rw [Option.ne_none_iff_exists', Option.ne_none_iff_exists', ledger.closed_iff,
    ledger'.closed_iff]
  omega

/-- **The histories only grow.** -/
theorem Kept.histories_grow {st st' : Storage} (h : Kept st st') (ledger : BatchLedger st)
    (ledger' : BatchLedger st') :
    Grows UnstakeHistory.batchId UnstakeHistory.Stays st.histories st'.histories := by
  have hle := h.id_le ledger ledger'
  have hbelow : ∀ e ∈ st.histories, e.batchId < st.currentBatch.id := fun e he =>
    ((ledger.closed_iff _).1 ⟨e, ledger.mem_histories.1 he⟩).2
  refine .of_cut ledger.ascending_histories ledger'.ascending_histories hbelow
    (fun b hb => ?_) fun e he => ?_
  · rw [ledger.map_histories, ledger'.map_histories, List.mem_range'_1, List.mem_range'_1]
    omega
  · obtain ⟨released, he', himp⟩ := h _ e (ledger.mem_histories.1 he)
    exact ⟨_, ledger'.mem_histories.2 he', released, rfl, himp⟩

/-- **The requests of a user only grow** while the entries of closed batches stay. -/
theorem Kept.requests_grow {st st' : Storage} (h : Kept st st') (ledger : BatchLedger st)
    (ledger' : BatchLedger st') {user : Addr} (entries : ∀ b < st.currentBatch.id,
      st'.unstakeWaitList[(user, b)]? = st.unstakeWaitList[(user, b)]?) :
    Grows UserUnstakeRequestsResponse.batchId UserUnstakeRequestsResponse.Stays
      (st.requests user) (st'.requests user) := by
  have hbelow : ∀ r ∈ st.requests user, r.batchId < st.currentBatch.id := by
    intro r hr
    obtain ⟨-, e, he, -⟩ := mem_requests.1 hr
    exact ((ledger.closed_iff _).1 ⟨e, he⟩).2
  refine .of_cut (ascending_requests st user) (ascending_requests st' user) hbelow
    (fun b hb => ?_) fun r hr => ?_
  · rw [mem_requests_batchId, mem_requests_batchId, entries b hb,
      h.history_iff ledger ledger' hb]
  · obtain ⟨hentry, e, he, hr'⟩ := mem_requests.1 hr
    obtain ⟨released, he', himp⟩ := h _ e he
    refine ⟨{ r with released := released }, mem_requests.2 ⟨?_, _, he', ?_⟩, released, rfl, ?_⟩
    · exact (entries _ (hbelow r hr)).trans hentry
    · rw [hr']
    · rw [hr']
      exact himp

/-- The message withdraws for a user. -/
def withdrawsFor (user : Addr) (info : MessageInfo) : HubMsg → Bool
  | .withdrawUnstaked => info.sender = user
  | .withdrawUnstakedForBatches _ => info.sender = user
  | _ => false

/-- A run in which a user withdraws nothing leaves the user's entries of closed
batches alone. -/
theorem Run.closed_entry_kept {s t : Clocked} {tr : List (Call × Clocked)} (run : Run Step s tr t)
    (hs : s.Ledger) {user : Addr} {b : ℕ} (hb : b < s.st.currentBatch.id)
    (never : ∀ e ∈ tr, withdrawsFor user e.1.info e.1.msg = false) :
    t.st.unstakeWaitList[(user, b)]? = s.st.unstakeWaitList[(user, b)]? := by
  refine run.unchanged (P := fun t => t.Ledger ∧ b < t.st.currentBatch.id)
    (f := fun t : Clocked => t.st.unstakeWaitList[(user, b)]?)
    (g := fun _ c => withdrawsFor user c.info c.msg = true) ⟨hs, hb⟩ (fun t c u ht hstep => ?_)
    fun e he => by rw [never e he]; simp
  obtain ⟨hledger, hkept⟩ := hstep.ledger ht.1
  refine ⟨⟨hledger, ht.2.trans_le (hkept.id_le ht.1.1 hledger.1)⟩, ?_⟩
  cases hstep.effect.entry (user, b) with
  | kept entry_eq => exact .inl entry_eq
  | requested mine current =>
    -- a request is noted in the batch that is current, and this one is closed
    have hlt := ht.2
    simp only at current
    omega
  | paid mine withdrawal =>
    obtain ⟨batchIds, hmsg⟩ := withdrawal
    rw [hmsg] at mine ⊢
    cases batchIds with
    | none => exact .inr (decide_eq_true (Option.some.inj mine))
    | some ids => exact .inr (decide_eq_true (Option.some.inj mine))

/-! ### What the listed requests are worth -/

/-- What the released ones of the listed requests are worth. -/
def releasedWorth (requests : List UserUnstakeRequestsResponse) : ℕ :=
  ((requests.filter (·.released)).map fun r => r.appliedExchangeRate.mulFloor r.lstAmount).sum

/-- **The released requests of a user are worth what a withdrawal pays.** -/
theorem releasedWorth_requests (st : Storage) (user : Addr) :
    releasedWorth (st.requests user) = st.withdrawal user none := by
  unfold releasedWorth Storage.requests Storage.withdrawal requestedEntries
  induction userEntries st.unstakeWaitList user with
  | nil => rfl
  | cons e entries ih =>
    rw [List.map_cons, List.sum_cons, ← ih, List.filterMap_cons]
    unfold unstakeRequest readUnstakeHistory Storage.payout
    cases st.unstakeHistory[e.1]? with
    | none => simp [okOr]
    | some h => cases hr : h.released <;> simp [okOr, hr]

/-- More requests are worth no less. -/
theorem releasedWorth_mono {l l' : List UserUnstakeRequestsResponse} (nodup : l.Nodup)
    (sub : ∀ r ∈ l, r.released = true → r ∈ l') : releasedWorth l ≤ releasedWorth l' := by
  have hsub : l.filter (·.released) ⊆ l'.filter (·.released) := by
    intro r hr
    obtain ⟨hmem, hreleased⟩ := List.mem_filter.1 hr
    exact List.mem_filter.2 ⟨sub r hmem hreleased, hreleased⟩
  obtain ⟨m, hperm, hsublist⟩ := List.subperm_of_subset (nodup.filter _) hsub
  unfold releasedWorth
  rw [← (hperm.map _).sum_eq]
  exact (hsublist.map _).sum_le_sum fun _ _ => Nat.zero_le _

theorem nodup_requests (st : Storage) (user : Addr) : (st.requests user).Nodup := by
  refine List.Pairwise.imp ?_ (ascending_requests st user)
  rintro r r' hlt rfl
  exact Nat.lt_irrefl _ hlt

/-- All requests at once: so many of them at most. -/
theorem Clocked.Numbered.getUnstakeRequests_none {s : Clocked} (hs : s.Numbered) (user : Addr) :
    getUnstakeRequests s.st user none none = (s.st.requests user).take U32_MAX := by
  have hall : ∀ l : List UserUnstakeRequestsResponse, page (·.batchId) 0 U32_MAX l =
      l.take U32_MAX := fun l => by
    rw [page, entriesFrom, List.filter_eq_self.2 fun _ _ => decide_eq_true (Nat.zero_le _)]
  have hentries : ∀ l : List (ℕ × ℕ), l.filter (fun e => decide (0 ≤ e.1)) = l := fun l =>
    List.filter_eq_self.2 fun _ _ => decide_eq_true (Nat.zero_le _)
  have hpage := hs.getUnstakeRequests_eq_page user 0 U32_MAX
  rw [hall] at hpage
  rw [← hpage]
  simp only [getUnstakeRequests, rangeFrom, Option.getD_some, Option.getD_none, hentries]

/-- A request listed as released stays as it is listed. -/
theorem UserUnstakeRequestsResponse.Stays.of_released {r r' : UserUnstakeRequestsResponse}
    (h : r.Stays r') (released : r.released = true) : r' = r := by
  obtain ⟨_, rfl, himp⟩ := h
  rw [himp released, ← released]

/-- A request listed as released is listed so after a release. -/
theorem Release.listed {st : Storage} {cutoff balance left : ℕ}
    {released : List (ℕ × UnstakeHistory)}
    (h : Release st.unstakeHistory cutoff st.state.lastProcessedBatch balance released left)
    {user : Addr} {r : UserUnstakeRequestsResponse} (hr : r ∈ st.requests user)
    (hreleased : r.released = true) : r ∈ (st.afterRelease released).requests user := by
  obtain ⟨hentry, e, he, heq⟩ := mem_requests.1 hr
  obtain ⟨_, he', himp⟩ := h.kept r.batchId e he
  refine mem_requests.2 ⟨hentry, _, he', ?_⟩
  have hflag : e.released = true := by
    rw [heq] at hreleased
    exact hreleased
  rw [himp hflag, ← hflag]
  exact heq

end Hub
end BabyLst
