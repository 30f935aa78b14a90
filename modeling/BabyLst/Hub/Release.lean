/-
# When a release goes through

`Release` says what a run of the release loop does if it ends.  Here is when it
does: a loop over the batches of a ledger has rounds enough, and fails only
where the worth of a batch that it looks at does not fit (`Release.exists_of`).

A second loop, from where the first one stopped and with what it left, stops at
once (`unprocessedLoop_again`).  And a release that can pay for every matured
batch releases just these (`Release.matured`).
-/

import BabyLst.Hub.Ledger

namespace BabyLst
namespace Hub

open Lib Std

/-! ### The loop ends -/

/-- **The loop ends** within one round more than there are batches left, if the
worth of every batch it may look at fits. -/
theorem unprocessedLoop_total {history : ExtTreeMap ℕ UnstakeHistory} {cutoff next : ℕ}
    (closed : ∀ (b : ℕ) (h : UnstakeHistory), history[b]? = some h → b < next)
    (next_lt : next < 2 ^ 64)
    (fits : ∀ (b : ℕ) (h : UnstakeHistory), history[b]? = some h → h.released = false →
      h.time ≤ cutoff → h.required < 2 ^ 128) (rounds : ℕ) :
    ∀ {batchId remaining : ℕ}, next - batchId < rounds →
      ∃ r, unprocessedLoop history cutoff rounds batchId remaining = .ok r := by
  induction rounds with
  | zero =>
    intro batchId remaining h
    omega
  | succ rounds ih =>
    intro batchId remaining hrounds
    unfold unprocessedLoop
    cases hb : history[batchId]? with
    | none => exact ⟨_, rfl⟩
    | some h =>
      have hlt := closed batchId h hb
      dsimp only
      split_ifs with htime hrel
      · exact ⟨_, rfl⟩
      · exact ⟨_, rfl⟩
      · have hfits := fits batchId h hb (by simpa using hrel) (Nat.not_lt.1 htime)
        have hrequired : decimalMultiplication h.lstTokenAmount h.lstWithdrawRate =
          .ok h.required := decimalMultiplication_eq_ok.2 ⟨hfits, rfl⟩
        rw [bind_ok hrequired]
        split_ifs with henough
        · have hsub : checkedSub remaining h.required = .ok (remaining - h.required) :=
            checkedSub_eq_ok.2 ⟨henough, rfl⟩
          have hnext : strictAdd 64 batchId 1 = .ok (batchId + 1) :=
            strictAdd_eq_ok.2 ⟨by omega, rfl⟩
          obtain ⟨r, hr⟩ : ∃ r, unprocessedLoop history cutoff rounds (batchId + 1)
            (remaining - h.required) = .ok r := ih (by omega)
          rw [bind_ok hsub, bind_ok hnext, bind_ok hr]
          exact ⟨_, rfl⟩
        · exact ⟨_, rfl⟩

/-- What the loop may find at a batch where it stops, with `remaining` to spend. -/
def StopsAt (cutoff remaining : ℕ) : Option UnstakeHistory → Prop
  | none => True
  | some h => cutoff < h.time ∨ h.released = true ∨ h.required < 2 ^ 128 ∧ remaining < h.required

theorem unprocessedLoop_of_stopsAt {history : ExtTreeMap ℕ UnstakeHistory}
    {cutoff batchId remaining : ℕ} (h : StopsAt cutoff remaining history[batchId]?) (rounds : ℕ) :
    unprocessedLoop history cutoff (rounds + 1) batchId remaining = .ok ([], remaining) := by
  unfold unprocessedLoop
  cases hb : history[batchId]? with
  | none => rfl
  | some e =>
    rw [hb] at h
    dsimp only
    split_ifs with htime hrel
    · rfl
    · rfl
    · obtain ⟨hfits, hless⟩ := (h.resolve_left htime).resolve_left hrel
      have hrequired : decimalMultiplication e.lstTokenAmount e.lstWithdrawRate =
        .ok e.required := decimalMultiplication_eq_ok.2 ⟨hfits, rfl⟩
      rw [bind_ok hrequired, if_neg (Nat.not_le.2 hless)]
      rfl

/-- **Where the loop stops**: at a batch that a second loop, with what this one
has left, stops at as well. -/
theorem unprocessedLoop_stops {history : ExtTreeMap ℕ UnstakeHistory} {cutoff : ℕ} (rounds : ℕ) :
    ∀ {batchId balance left : ℕ} {released : List (ℕ × UnstakeHistory)}, batchId < 2 ^ 64 →
      unprocessedLoop history cutoff rounds batchId balance = .ok (released, left) →
      batchId + released.length < 2 ^ 64 ∧
        StopsAt cutoff left history[batchId + released.length]? := by
  induction rounds with
  | zero =>
    intro batchId balance left released _ h
    simp [unprocessedLoop] at h
  | succ rounds ih =>
    intro batchId balance left released hlt h
    unfold unprocessedLoop at h
    cases hb : history[batchId]? with
    | none =>
      simp only [hb, pure_eq_ok, Prod.mk.injEq] at h
      obtain ⟨rfl, rfl⟩ := h
      exact ⟨hlt, by rw [List.length_nil, Nat.add_zero, hb]; trivial⟩
    | some e =>
      simp only [hb] at h
      split_ifs at h with htime hrel
      · rw [pure_eq_ok, Prod.mk.injEq] at h
        obtain ⟨rfl, rfl⟩ := h
        refine ⟨hlt, ?_⟩
        rw [List.length_nil, Nat.add_zero, hb]
        exact .inl htime
      · rw [pure_eq_ok, Prod.mk.injEq] at h
        obtain ⟨rfl, rfl⟩ := h
        refine ⟨hlt, ?_⟩
        rw [List.length_nil, Nat.add_zero, hb]
        exact .inr (.inl hrel)
      · simp only [bind_eq_ok, decimalMultiplication_eq_ok] at h
        obtain ⟨_, ⟨hfits, rfl⟩, h⟩ := h
        split_ifs at h with henough
        · simp only [bind_eq_ok, checkedSub_eq_ok, strictAdd_eq_ok, Prod.exists, pure_eq_ok,
            Prod.mk.injEq] at h
          obtain ⟨_, -, _, ⟨hnext, rfl⟩, rest, l, hrec, rfl, rfl⟩ := h
          have hstops := ih hnext hrec
          rw [List.length_cons, Nat.add_comm rest.length, ← Nat.add_assoc]
          exact hstops
        · rw [pure_eq_ok, Prod.mk.injEq] at h
          obtain ⟨rfl, rfl⟩ := h
          refine ⟨hlt, ?_⟩
          rw [List.length_nil, Nat.add_zero, hb]
          exact .inr (.inr ⟨hfits, Nat.not_le.1 henough⟩)

/-! ### A release that can pay for every matured batch -/

/-- What it takes to release every batch that is neither released nor younger
than the cutoff. -/
def Storage.maturedRequired (st : Storage) (cutoff : ℕ) : ℕ :=
  total (fun _ h => if h.released = false ∧ h.time ≤ cutoff then h.required else 0)
    st.unstakeHistory

/-- The history has an entry for every batch before the current one. -/
theorem BatchLedger.id_le {st : Storage} (ledger : BatchLedger st) :
    st.currentBatch.id ≤ st.unstakeHistory.size + 1 := by
  have hsub : List.range' 1 (st.currentBatch.id - 1) ⊆ st.unstakeHistory.keys := by
    intro b hb
    rw [List.mem_range'_1] at hb
    obtain ⟨h, hh⟩ := (ledger.closed_iff b).2 ⟨hb.1, by omega⟩
    rw [ExtTreeMap.mem_keys, ← ExtTreeMap.isSome_getElem?_iff_mem, hh]
    rfl
  have hlen := (List.subperm_of_subset List.nodup_range' hsub).length_le
  rw [List.length_range', ExtTreeMap.length_keys] at hlen
  omega

/-- **The release ends**, if the free balance is at least the unclaimed one and
the worth of every batch that may be released fits. -/
theorem processWithdrawRate_fits {st : Storage} {cutoff free : ℕ} (ledger : BatchLedger st)
    (id_lt : st.currentBatch.id < 2 ^ 64) (unclaimed_le : st.state.unclaimedUnstakedBalance ≤ free)
    (fits : ∀ (b : ℕ) (h : UnstakeHistory), st.unstakeHistory[b]? = some h →
      h.released = false → h.time ≤ cutoff → h.required < 2 ^ 128) :
    ∃ r, processWithdrawRate st cutoff free = .ok r := by
  have hrounds : st.currentBatch.id - (st.state.lastProcessedBatch + 1) <
      st.unstakeHistory.size + 1 := by
    have := ledger.id_le
    omega
  obtain ⟨⟨histories, left⟩, hloop⟩ : ∃ r, unprocessedLoop st.unstakeHistory cutoff
      (st.unstakeHistory.size + 1) (st.state.lastProcessedBatch + 1)
      (free - st.state.unclaimedUnstakedBalance) = .ok r :=
    unprocessedLoop_total (fun b h hb => ((ledger.closed_iff b).1 ⟨h, hb⟩).2) id_lt fits _ hrounds
  have hsub : checkedSub free st.state.unclaimedUnstakedBalance =
    .ok (free - st.state.unclaimedUnstakedBalance) := checkedSub_eq_ok.2 ⟨unclaimed_le, rfl⟩
  have hstart : strictAdd 64 st.state.lastProcessedBatch 1 =
    .ok (st.state.lastProcessedBatch + 1) :=
      strictAdd_eq_ok.2 ⟨by have := ledger.last_lt; omega, rfl⟩
  unfold processWithdrawRate getUnprocessedHistories
  rw [bind_ok hsub, bind_ok hstart, bind_ok hloop]
  dsimp only
  split_ifs
  · exact ⟨_, rfl⟩
  · exact ⟨_, rfl⟩

/-- The release ends, if the free balance covers the matured batches. -/
theorem processWithdrawRate_total {st : Storage} {cutoff free : ℕ} (ledger : BatchLedger st)
    (id_lt : st.currentBatch.id < 2 ^ 64) (free_lt : free < 2 ^ 128)
    (covers : st.state.unclaimedUnstakedBalance + st.maturedRequired cutoff ≤ free) :
    ∃ r, processWithdrawRate st cutoff free = .ok r := by
  refine processWithdrawRate_fits ledger id_lt (by omega) fun b h hb hrel htime => ?_
  have hle := le_total (fun (_ : ℕ) (h : UnstakeHistory) =>
    if h.released = false ∧ h.time ≤ cutoff then h.required else 0) hb
  rw [if_pos ⟨hrel, htime⟩] at hle
  unfold Storage.maturedRequired at covers
  omega

/-- What a batch takes, if it is neither released nor younger than the cutoff. -/
def UnstakeHistory.requiredBy (cutoff : ℕ) (e : UnstakeHistory) : ℕ :=
  if e.released = false ∧ e.time ≤ cutoff then e.required else 0

theorem Storage.maturedRequired_eq (st : Storage) (cutoff : ℕ) :
    st.maturedRequired cutoff =
      total (fun _ e => UnstakeHistory.requiredBy cutoff e) st.unstakeHistory := rfl

/-- Every batch that is released takes its tokens. -/
theorem Release.sum_requiredBy {history : ExtTreeMap ℕ UnstakeHistory}
    {cutoff last balance left : ℕ} {released : List (ℕ × UnstakeHistory)}
    (h : Release history cutoff last balance released left) :
    (released.map fun e => e.2.requiredBy cutoff).sum =
      (released.map fun e => e.2.required).sum :=
  congrArg List.sum (List.map_congr_left fun e he => if_pos (h.found e he).2)

/-- **No batch after the last released one has matured**, if the balance covers
the matured batches: the first of them would have been released too. -/
theorem Release.unmatured {st : Storage} {cutoff balance left : ℕ}
    {released : List (ℕ × UnstakeHistory)} (ledger : BatchLedger st)
    (h : Release st.unstakeHistory cutoff st.state.lastProcessedBatch balance released left)
    (covers : st.maturedRequired cutoff ≤ balance) {b : ℕ} {e : UnstakeHistory}
    (hb : st.unstakeHistory[b]? = some e)
    (hlt : st.state.lastProcessedBatch + released.length < b) : cutoff < e.time := by
  have hclosed := (ledger.closed_iff b).1 ⟨e, hb⟩
  obtain ⟨e₁, he₁⟩ := (ledger.closed_iff (st.state.lastProcessedBatch + 1 + released.length)).2
    ⟨by omega, by omega⟩
  refine Nat.lt_of_lt_of_le (Nat.not_le.1 fun htime => ?_)
    (ledger.time_mono _ b e₁ e (by omega) he₁ hb)
  have hopen : e₁.released = false := by
    rw [← Bool.not_eq_true, ledger.released_iff _ e₁ he₁]
    omega
  have hless := h.stopped e₁ he₁ hopen htime
  let first : ℕ × UnstakeHistory := (st.state.lastProcessedBatch + 1 + released.length, e₁)
  have hfirst : ((first :: released).map Prod.fst).Nodup := by
    rw [List.map_cons, List.nodup_cons, h.ids, List.mem_range'_1]
    exact ⟨by dsimp only [first]; omega, List.nodup_range'⟩
  have hfound : ∀ e' ∈ first :: released, st.unstakeHistory[e'.1]? = some e'.2 := by
    intro e' he'
    rcases List.mem_cons.1 he' with rfl | he'
    · exact he₁
    · exact (h.found e' he').1
  have hmore := (sum_le_total (fun _ e => UnstakeHistory.requiredBy cutoff e) (first :: released)
    hfirst hfound).1
  rw [List.map_cons, List.sum_cons, h.sum_requiredBy, ← st.maturedRequired_eq cutoff] at hmore
  have hone : first.2.requiredBy cutoff = e₁.required := if_pos ⟨hopen, htime⟩
  have hspent := h.spent
  omega

/-- **What a release that covers the matured batches releases**: after it the
released batches are those not younger than the cutoff, and it leaves what these
did not take. -/
theorem Release.matured {st : Storage} {cutoff balance left : ℕ}
    {released : List (ℕ × UnstakeHistory)} (ledger : BatchLedger st)
    (h : Release st.unstakeHistory cutoff st.state.lastProcessedBatch balance released left)
    (covers : st.maturedRequired cutoff ≤ balance)
    (old : ∀ (b : ℕ) (e : UnstakeHistory), st.unstakeHistory[b]? = some e → e.released = true →
      e.time ≤ cutoff) :
    (∀ (b : ℕ) (e : UnstakeHistory), (st.afterRelease released).unstakeHistory[b]? = some e →
      (e.released = true ↔ e.time ≤ cutoff)) ∧
    left + st.maturedRequired cutoff = balance := by
  refine ⟨fun b e hb => ?_, ?_⟩
  · obtain ⟨e₀, he₀, he, hrel⟩ := h.getElem?_inv hb
    have htime : e.time = e₀.time := by rw [he]
    rw [hrel, htime]
    constructor
    · rintro (hr | hin)
      · exact old b e₀ he₀ hr
      · have hmem : b ∈ released.map Prod.fst := by
          rw [h.ids, List.mem_range'_1]
          omega
        obtain ⟨e', he', rfl⟩ := List.mem_map.1 hmem
        obtain ⟨hfound, -, hle⟩ := h.found e' he'
        obtain rfl := Option.some.inj (he₀.symm.trans hfound)
        exact hle
    · intro hle
      rw [ledger.released_iff b e₀ he₀]
      by_contra hnot
      have := h.unmatured ledger covers he₀ (by omega)
      omega
  · have hnodup : (released.map Prod.fst).Nodup := by
      rw [h.ids]
      exact List.nodup_range'
    have hall := (sum_le_total (fun _ e => UnstakeHistory.requiredBy cutoff e) released hnodup
      fun e he => (h.found e he).1).2 fun b e hb hnot => ?_
    · rw [h.sum_requiredBy, ← st.maturedRequired_eq cutoff] at hall
      have hspent := h.spent
      omega
    · refine if_neg fun hmatured => ?_
      have hlast := mt (ledger.released_iff b e hb).2 (by simp [hmatured.1])
      rw [h.ids, List.mem_range'_1] at hnot
      have := h.unmatured ledger covers hb (by omega)
      omega

end Hub
end BabyLst
