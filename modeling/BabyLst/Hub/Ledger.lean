/-
# The ledger of the batches

One ledger of what users asked to unstake is spread over the wait list, the
history, the current batch and the last processed batch.  `BatchLedger` says how
they fit together: the closed batches are those before the current one, the
released ones those up to the last processed, and what the wait list holds for a
batch is what the batch was closed, or is being filled, with.

`Step` is one accepted call of the hub, the block not going back; whatever the
outside answers, every run from `instantiate` keeps the ledger
(`batch_ledger`), and a history once written only ever becomes released.
-/

import BabyLst.Hub.Contract

namespace BabyLst
namespace Hub

open Lib Std

/-- What the wait list holds for a batch, over all users. -/
def Storage.inBatch (st : Storage) (b : ℕ) : ℕ :=
  total (fun k amount => if k.2 = b then amount else 0) st.unstakeWaitList

/-- **The ledger of the batches.** -/
structure BatchLedger (st : Storage) : Prop where
  /-- The closed batches are those before the current one. -/
  closed_iff : ∀ b : ℕ, (∃ h, st.unstakeHistory[b]? = some h) ↔ 1 ≤ b ∧ b < st.currentBatch.id
  /-- A history is kept under its own id. -/
  id_eq : ∀ (b : ℕ) (h : UnstakeHistory), st.unstakeHistory[b]? = some h → h.batchId = b
  /-- The released batches are those up to the last processed one. -/
  released_iff : ∀ (b : ℕ) (h : UnstakeHistory), st.unstakeHistory[b]? = some h →
    (h.released = true ↔ b ≤ st.state.lastProcessedBatch)
  /-- The current batch is not processed. -/
  last_lt : st.state.lastProcessedBatch < st.currentBatch.id
  /-- Batches are closed in order. -/
  time_mono : ∀ (b b' : ℕ) (h h' : UnstakeHistory), b ≤ b' → st.unstakeHistory[b]? = some h →
    st.unstakeHistory[b']? = some h' → h.time ≤ h'.time
  /-- A batch is released at the rate it was closed at. -/
  rates_eq : ∀ (b : ℕ) (h : UnstakeHistory), st.unstakeHistory[b]? = some h →
    h.lstWithdrawRate = h.lstAppliedExchangeRate
  /-- The entries of a batch that is closed and not released add up to it. -/
  unreleased : ∀ (b : ℕ) (h : UnstakeHistory), st.unstakeHistory[b]? = some h →
    h.released = false → st.inBatch b = h.lstTokenAmount
  /-- The entries left of a released batch are at most what it was closed with. -/
  released_le : ∀ (b : ℕ) (h : UnstakeHistory), st.unstakeHistory[b]? = some h →
    h.released = true → st.inBatch b ≤ h.lstTokenAmount
  /-- The entries of the current batch add up to what is requested. -/
  current : st.inBatch st.currentBatch.id = st.currentBatch.requestedLstTokenAmount
  /-- No entry is for a batch to come. -/
  later : ∀ (u : Addr) (b : ℕ), st.currentBatch.id < b → st.unstakeWaitList[(u, b)]? = none

/-- No history was written after `time`. -/
def Storage.ClosedBy (st : Storage) (time : ℕ) : Prop :=
  ∀ (b : ℕ) (h : UnstakeHistory), st.unstakeHistory[b]? = some h → h.time ≤ time

/-- **Histories are kept**: all that may change in one is that it is released. -/
def Kept (st st' : Storage) : Prop :=
  ∀ (b : ℕ) (h : UnstakeHistory), st.unstakeHistory[b]? = some h →
    ∃ released, st'.unstakeHistory[b]? = some { h with released := released } ∧
      (h.released = true → released = true)

theorem Kept.refl (st : Storage) : Kept st st := fun _ h hb => ⟨h.released, hb, id⟩

theorem Kept.of_eq {st st' : Storage} (h : st'.unstakeHistory = st.unstakeHistory) :
    Kept st st' := fun _ e hb => ⟨e.released, h ▸ hb, id⟩

theorem Kept.trans {st st' st'' : Storage} (h : Kept st st') (h' : Kept st' st'') :
    Kept st st'' := by
  intro b e hb
  obtain ⟨r, hr, hle⟩ := h b e hb
  obtain ⟨r', hr', hle'⟩ := h' b _ hr
  exact ⟨r', hr', fun hrel => hle' (hle hrel)⟩

/-- The ledger is about four parts of the storage only. -/
theorem BatchLedger.congr {st st' : Storage} (h : BatchLedger st)
    (hw : st'.unstakeWaitList = st.unstakeWaitList) (hh : st'.unstakeHistory = st.unstakeHistory)
    (hc : st'.currentBatch = st.currentBatch)
    (hl : st'.state.lastProcessedBatch = st.state.lastProcessedBatch) : BatchLedger st' := by
  have hin : ∀ b, st'.inBatch b = st.inBatch b := fun b => by
    rw [Storage.inBatch, hw, Storage.inBatch]
  constructor
  · rw [hh, hc]
    exact h.closed_iff
  · rw [hh]
    exact h.id_eq
  · rw [hh, hl]
    exact h.released_iff
  · rw [hc, hl]
    exact h.last_lt
  · rw [hh]
    exact h.time_mono
  · rw [hh]
    exact h.rates_eq
  · rw [hh]
    exact fun b e hb hr => (hin b).trans (h.unreleased b e hb hr)
  · rw [hh]
    exact fun b e hb hr => (hin b).le.trans (h.released_le b e hb hr)
  · rw [hc, hin]
    exact h.current
  · rw [hc, hw]
    exact h.later

/-! ### The hub as created -/

theorem Instantiated.ledger {env : Env} {info : MessageInfo} {msg : InstantiateMsg} {st : Storage}
    (h : Instantiated env info msg st) : BatchLedger st := by
  have hh : ∀ b : ℕ, st.unstakeHistory[b]? = none := fun b => by simp [h.history_eq]
  have hin : ∀ b, st.inBatch b = 0 := fun b => by
    rw [Storage.inBatch, h.waitList_eq, total_empty]
  refine ⟨fun b => ?_, ?_, ?_, ?_, ?_, ?_, ?_, ?_, ?_, ?_⟩
  · rw [hh, h.batch_eq]
    simp
    omega
  · simp [hh]
  · simp [hh]
  · rw [h.batch_eq, h.state_eq]
    exact Nat.one_pos
  · simp [hh]
  · simp [hh]
  · simp [hh]
  · simp [hh]
  · rw [hin, h.batch_eq]
  · simp [h.waitList_eq]

/-! ### A request -/

/-- A request adds to the entries of the current batch, and of no other. -/
theorem inBatch_noted (st : Storage) (sender : Addr) (amount b : ℕ) :
    (st.noted sender amount).inBatch b =
      st.inBatch b + if st.currentBatch.id = b then amount else 0 := by
  unfold Storage.inBatch Storage.noted
  dsimp only
  cases hk : st.unstakeWaitList[(sender, st.currentBatch.id)]? with
  | none =>
    rw [total_insert_of_none _ hk]
    simp
  | some old =>
    have := total_insert_of_some (fun k amount => if k.2 = b then amount else 0)
      (v := old + amount) hk
    rw [Option.getD_some]
    split_ifs at this ⊢ <;> omega

theorem BatchLedger.noted {st : Storage} (h : BatchLedger st) (sender : Addr) (amount : ℕ) :
    BatchLedger { st.noted sender amount with currentBatch := st.currentBatch.plus amount } := by
  have hin := inBatch_noted st sender amount
  refine ⟨h.closed_iff, h.id_eq, h.released_iff, h.last_lt, h.time_mono, h.rates_eq, ?_, ?_, ?_, ?_⟩
  · intro b e hb hr
    have hne : st.currentBatch.id ≠ b := fun heq => by
      have := ((h.closed_iff b).1 ⟨e, hb⟩).2
      omega
    refine Eq.trans ?_ (h.unreleased b e hb hr)
    exact (hin b).trans (by rw [if_neg hne, Nat.add_zero])
  · intro b e hb hr
    have hne : st.currentBatch.id ≠ b := fun heq => by
      have := ((h.closed_iff b).1 ⟨e, hb⟩).2
      omega
    refine le_of_eq_of_le ?_ (h.released_le b e hb hr)
    exact (hin b).trans (by rw [if_neg hne, Nat.add_zero])
  · have hcur := hin st.currentBatch.id
    rw [if_pos rfl, h.current] at hcur
    exact hcur
  · intro u b hb
    have hlt : st.currentBatch.id < b := hb
    show (st.unstakeWaitList.insert _ _)[(u, b)]? = none
    rw [getElem?_insert_eq, if_neg]
    · exact h.later u b hlt
    · intro heq
      have := (Prod.mk.inj heq).2
      omega

/-! ### Closing a batch -/

theorem Completion.ledger {q : Querier} {st st' : Storage} {env : Env} {batch batch' : CurrentBatch}
    {messages : List CosmosMsg} (h : Completion q st env batch st' batch' messages)
    (hl : BatchLedger { st with currentBatch := batch }) (ht : st.ClosedBy env.block.time) :
    BatchLedger st' ∧ st'.ClosedBy env.block.time ∧ Kept st st' := by
  cases h with
  | stillOpen actual le early =>
    obtain ⟨-, -, -, hlast⟩ := actual.frame
    exact ⟨hl.congr rfl rfl rfl hlast, ht, .of_eq rfl⟩
  | @closed state pending registry validators plan actual le due registry_eq answer plan_eq enough
      written =>
    obtain ⟨-, -, -, hlast⟩ := actual.frame
    have hget : ∀ b, (st.unstakeHistory.insert batch.id
        (batch.history env.block.time state.lstExchangeRate))[b]? =
          if batch.id = b then some (batch.history env.block.time state.lstExchangeRate)
          else st.unstakeHistory[b]? := by
      exact fun b => getElem?_insert_eq ..
    have hnew : st.unstakeHistory[batch.id]? = none := by
      cases hb : st.unstakeHistory[batch.id]? with
      | none => rfl
      | some e => exact absurd ((hl.closed_iff batch.id).1 ⟨e, hb⟩).2 (Nat.lt_irrefl _)
    have hlast' : state.lastProcessedBatch < batch.id := hlast ▸ hl.last_lt
    have hopen : (batch.history env.block.time state.lstExchangeRate).released = true ↔
        batch.id ≤ state.lastProcessedBatch := by
      simp only [CurrentBatch.history, Bool.false_eq_true, false_iff]
      omega
    refine ⟨⟨?_, ?_, ?_, ?_, ?_, ?_, ?_, ?_, ?_, ?_⟩, ?_, ?_⟩
    · intro b
      dsimp only
      rw [hget]
      by_cases hb : batch.id = b
      · subst hb
        have : 1 ≤ batch.id := by omega
        simp [this]
      · rw [if_neg hb, hl.closed_iff b]
        dsimp only
        omega
    · exact forall_getElem?_insert rfl hl.id_eq
    · exact forall_getElem?_insert hopen fun b e hb => hlast ▸ hl.released_iff b e hb
    · dsimp only
      omega
    · intro b b' e e' hle hb hb'
      dsimp only at hb hb'
      rw [hget] at hb hb'
      split_ifs at hb hb' with h₁ h₂ h₂
      · obtain rfl := Option.some.inj hb
        obtain rfl := Option.some.inj hb'
        exact le_rfl
      · have := ((hl.closed_iff b').1 ⟨e', hb'⟩).2
        dsimp only at this
        omega
      · obtain rfl := Option.some.inj hb'
        exact ht b e hb
      · exact hl.time_mono b b' e e' hle hb hb'
    · exact forall_getElem?_insert rfl hl.rates_eq
    · exact forall_getElem?_insert (fun _ => hl.current) hl.unreleased
    · exact forall_getElem?_insert (fun _ => hl.current.le) hl.released_le
    · show total _ st.unstakeWaitList = 0
      refine total_eq_zero fun k v hk => ?_
      rw [if_neg]
      intro hk2
      have hlater := hl.later k.1 k.2 (hk2 ▸ Nat.lt_succ_self batch.id)
      rw [Prod.mk.eta] at hlater
      exact absurd (hk.symm.trans hlater) (by simp)
    · intro u b hb
      have hlt : batch.id + 1 < b := hb
      exact hl.later u b (Nat.lt_of_succ_lt hlt)
    · exact forall_getElem?_insert le_rfl ht
    · intro b e hb
      refine ⟨e.released, ?_, id⟩
      dsimp only
      rw [hget, if_neg]
      · exact hb
      · rintro rfl
        simp [hnew] at hb

/-! ### A release -/

/-- The histories after a release: those of the released batches have their flag
set. -/
theorem Release.getElem? {st : Storage} {cutoff balance left : ℕ}
    {released : List (ℕ × UnstakeHistory)}
    (h : Release st.unstakeHistory cutoff st.state.lastProcessedBatch balance released left)
    (b : ℕ) : (st.afterRelease released).unstakeHistory[b]? =
      if st.state.lastProcessedBatch < b ∧ b ≤ st.state.lastProcessedBatch + released.length then
        st.unstakeHistory[b]?.map UnstakeHistory.release
      else st.unstakeHistory[b]? := by
  have hnodup : (released.map Prod.fst).Nodup := by
    rw [h.ids]
    exact List.nodup_range'
  have hmem : b ∈ released.map Prod.fst ↔ st.state.lastProcessedBatch < b ∧
      b ≤ st.state.lastProcessedBatch + released.length := by
    rw [h.ids, List.mem_range'_1]
    omega
  exact (releaseAll_getElem? released hnodup (fun e he => (h.found e he).1) b).trans
    (if_congr hmem rfl rfl)

/-- A release only sets flags. -/
theorem Release.kept {st : Storage} {cutoff balance left : ℕ}
    {released : List (ℕ × UnstakeHistory)}
    (h : Release st.unstakeHistory cutoff st.state.lastProcessedBatch balance released left) :
    Kept st (st.afterRelease released) := by
  intro b e hb
  rw [h.getElem?]
  split_ifs
  · exact ⟨true, by rw [hb]; rfl, fun _ => rfl⟩
  · exact ⟨e.released, hb, id⟩

/-- Every history after a release is one from before it, at most with its flag
set. -/
theorem Release.getElem?_inv {st : Storage} {cutoff balance left : ℕ}
    {released : List (ℕ × UnstakeHistory)}
    (h : Release st.unstakeHistory cutoff st.state.lastProcessedBatch balance released left)
    {b : ℕ} {e : UnstakeHistory} (hb : (st.afterRelease released).unstakeHistory[b]? = some e) :
    ∃ e₀, st.unstakeHistory[b]? = some e₀ ∧ e = { e₀ with released := e.released } ∧
      (e.released = true ↔ e₀.released = true ∨
        st.state.lastProcessedBatch < b ∧ b ≤ st.state.lastProcessedBatch + released.length) := by
  rw [h.getElem?] at hb
  split_ifs at hb with hin
  · obtain ⟨e₀, he₀, rfl⟩ := Option.map_eq_some_iff.1 hb
    exact ⟨e₀, he₀, rfl, by simp [UnstakeHistory.release, hin]⟩
  · exact ⟨e, hb, rfl, by simp [hin]⟩

theorem Release.ledger {st : Storage} {cutoff balance left : ℕ}
    {released : List (ℕ × UnstakeHistory)}
    (h : Release st.unstakeHistory cutoff st.state.lastProcessedBatch balance released left)
    (hl : BatchLedger st) : BatchLedger (st.afterRelease released) := by
  have hclosed : ∀ b : ℕ, (∃ e, (st.afterRelease released).unstakeHistory[b]? = some e) ↔
      ∃ e, st.unstakeHistory[b]? = some e := by
    intro b
    constructor
    · rintro ⟨e, hb⟩
      obtain ⟨e₀, he₀, -⟩ := h.getElem?_inv hb
      exact ⟨e₀, he₀⟩
    · rintro ⟨e, hb⟩
      obtain ⟨r, hr, -⟩ := h.kept b e hb
      exact ⟨_, hr⟩
  refine ⟨fun b => (hclosed b).trans (hl.closed_iff b), ?_, ?_, ?_, ?_, ?_, ?_, ?_, hl.current,
    hl.later⟩
  · intro b e hb
    obtain ⟨e₀, he₀, he, -⟩ := h.getElem?_inv hb
    rw [he]
    exact hl.id_eq b e₀ he₀
  · intro b e hb
    obtain ⟨e₀, he₀, -, hrel⟩ := h.getElem?_inv hb
    rw [hrel, hl.released_iff b e₀ he₀]
    show _ ↔ b ≤ st.state.lastProcessedBatch + released.length
    omega
  · show st.state.lastProcessedBatch + released.length < st.currentBatch.id
    rcases Nat.eq_zero_or_pos released.length with hz | hpos
    · rw [hz]
      exact hl.last_lt
    · have hmem : st.state.lastProcessedBatch + released.length ∈ released.map Prod.fst := by
        rw [h.ids, List.mem_range'_1]
        omega
      obtain ⟨e, he, heq⟩ := List.mem_map.1 hmem
      rw [← heq]
      exact ((hl.closed_iff e.1).1 ⟨e.2, (h.found e he).1⟩).2
  · intro b b' e e' hle hb hb'
    obtain ⟨e₀, he₀, he, -⟩ := h.getElem?_inv hb
    obtain ⟨e₁, he₁, he', -⟩ := h.getElem?_inv hb'
    rw [he, he']
    exact hl.time_mono b b' e₀ e₁ hle he₀ he₁
  · intro b e hb
    obtain ⟨e₀, he₀, he, -⟩ := h.getElem?_inv hb
    rw [he]
    exact hl.rates_eq b e₀ he₀
  · intro b e hb hr
    obtain ⟨e₀, he₀, he, hrel⟩ := h.getElem?_inv hb
    rw [he]
    refine hl.unreleased b e₀ he₀ ?_
    cases h₀ : e₀.released with
    | false => rfl
    | true => exact absurd (hrel.2 (.inl h₀)) (by simp [hr])
  · intro b e hb _
    obtain ⟨e₀, he₀, he, -⟩ := h.getElem?_inv hb
    rw [he]
    cases h₀ : e₀.released with
    | false => exact (hl.unreleased b e₀ he₀ h₀).le
    | true => exact hl.released_le b e₀ he₀ h₀

theorem Release.closedBy {st : Storage} {cutoff balance left time : ℕ}
    {released : List (ℕ × UnstakeHistory)}
    (h : Release st.unstakeHistory cutoff st.state.lastProcessedBatch balance released left)
    (ht : st.ClosedBy time) : (st.afterRelease released).ClosedBy time := by
  intro b e hb
  obtain ⟨e₀, he₀, he, -⟩ := h.getElem?_inv hb
  rw [he]
  exact ht b e₀ he₀

/-! ### A withdrawal -/

/-- The wait list after a removal, entry by entry. -/
theorem removeUnstakeWaitList_getElem? (sender : Addr) (bs : List ℕ) :
    ∀ (st : Storage) (k : Addr × ℕ), (removeUnstakeWaitList st bs sender).unstakeWaitList[k]? =
      if k.1 = sender ∧ k.2 ∈ bs then none else st.unstakeWaitList[k]? := by
  induction bs with
  | nil =>
    intro st k
    simp [removeUnstakeWaitList]
  | cons b bs ih =>
    intro st k
    have hfold : (removeUnstakeWaitList st (b :: bs) sender).unstakeWaitList =
      (removeUnstakeWaitList { st with unstakeWaitList := st.unstakeWaitList.erase (sender, b) }
        bs sender).unstakeWaitList := rfl
    rw [hfold, ih, getElem?_erase_eq]
    have hk : (sender, b) = k ↔ k.1 = sender ∧ k.2 = b := by
      rw [Prod.ext_iff]
      exact ⟨fun h => ⟨h.1.symm, h.2.symm⟩, fun h => ⟨h.1.symm, h.2.symm⟩⟩
    by_cases hsame : k.1 = sender <;> by_cases hb : k.2 = b <;> simp [hk, hsame, hb]

/-- A removal takes nothing from the batches it does not name. -/
theorem inBatch_removeUnstakeWaitList (sender : Addr) (bs : List ℕ) :
    ∀ (st : Storage) (b : ℕ), (removeUnstakeWaitList st bs sender).inBatch b ≤ st.inBatch b ∧
      (b ∉ bs → (removeUnstakeWaitList st bs sender).inBatch b = st.inBatch b) := by
  induction bs with
  | nil => exact fun st b => ⟨le_rfl, fun _ => rfl⟩
  | cons b' bs ih =>
    intro st b
    obtain ⟨hle, heq⟩ := ih
      { st with unstakeWaitList := st.unstakeWaitList.erase (sender, b') } b
    refine ⟨hle.trans (total_erase_le ..), fun hnot => ?_⟩
    rw [List.mem_cons, not_or] at hnot
    refine (heq hnot.2).trans (total_erase_of_zero fun _ => ?_)
    rw [if_neg fun h => hnot.1 h.symm]

/-- What a withdrawal deletes is of released batches. -/
theorem mem_finishedBatches {st : Storage} {sender : Addr} {batchIds : Option (List ℕ)} {b : ℕ}
    (h : b ∈ st.finishedBatches sender batchIds) : st.released b = true := by
  simp only [Storage.finishedBatches, List.mem_map, List.mem_filter] at h
  obtain ⟨e, ⟨-, hr⟩, rfl⟩ := h
  exact hr

theorem BatchLedger.removed {st : Storage} (hl : BatchLedger st) {bs : List ℕ} (sender : Addr)
    (hbs : ∀ b ∈ bs, st.released b = true) : BatchLedger (removeUnstakeWaitList st bs sender) := by
  have hin := inBatch_removeUnstakeWaitList sender bs st
  have hopen : st.currentBatch.id ∉ bs := by
    intro hmem
    have hrel := hbs _ hmem
    unfold Storage.released at hrel
    cases hb : st.unstakeHistory[st.currentBatch.id]? with
    | none => simp [hb] at hrel
    | some e => exact absurd ((hl.closed_iff _).1 ⟨e, hb⟩).2 (Nat.lt_irrefl _)
  refine ⟨hl.closed_iff, hl.id_eq, hl.released_iff, hl.last_lt, hl.time_mono, hl.rates_eq, ?_, ?_,
    ?_, ?_⟩
  · intro b e hb hr
    have hb' : st.unstakeHistory[b]? = some e := hb
    have hnot : b ∉ bs := by
      intro hmem
      have hrel := hbs b hmem
      simp [Storage.released, hb', hr] at hrel
    rw [(hin b).2 hnot]
    exact hl.unreleased b e hb hr
  · exact fun b e hb hr => (hin b).1.trans (hl.released_le b e hb hr)
  · exact ((hin _).2 hopen).trans hl.current
  · intro u b hb
    rw [removeUnstakeWaitList_getElem?, hl.later u b hb, ite_self]

theorem Withdrawn.ledger {q : Querier} {st st' : Storage} {env : Env} {info : MessageInfo}
    {batchIds : Option (List ℕ)} {res : Response} (h : Withdrawn q st env info batchIds st' res)
    (hl : BatchLedger st) (ht : st.ClosedBy env.block.time) :
    BatchLedger st' ∧ st'.ClosedBy env.block.time ∧ Kept st st' := by
  obtain ⟨-, -, -, hrel, -, -, -, -⟩ := h
  refine ⟨?_, hrel.closedBy ht, hrel.kept⟩
  exact ((hrel.ledger hl).removed info.sender fun b hb => mem_finishedBatches hb).congr
    rfl rfl rfl rfl

/-! ### Runs -/

/-- **Every accepted call keeps the ledger.** -/
theorem Effect.ledger {q : Querier} {st st' : Storage} {env : Env} {info : MessageInfo}
    {msg : HubMsg} {res : Response} (h : Effect q st env info msg st' res) (hl : BatchLedger st)
    (ht : st.ClosedBy env.block.time) :
    BatchLedger st' ∧ st'.ClosedBy env.block.time ∧ Kept st st' := by
  cases h with
  | stake h =>
    obtain ⟨-, -, -, actual⟩ := h
    exact ⟨hl.congr rfl rfl rfl actual.frame.2.2.2, ht, .of_eq rfl⟩
  | unstake msg_eq token_eq h => exact h.ledger (hl.noted _ _) ht
  | withdraw h => exact h.ledger hl ht
  | release free_eq unclaimed_le h =>
    exact ⟨(h.ledger hl).congr rfl rfl rfl rfl, h.closedBy ht, h.kept⟩
  | checkSlashing h => exact ⟨hl.congr rfl rfl rfl h.frame.2.2.2, ht, .of_eq rfl⟩
  | nothingRequested => exact ⟨hl, ht, .refl _⟩
  | processUndelegations ne h => exact h.ledger hl ht
  | updateParams => exact ⟨hl.congr rfl rfl rfl rfl, ht, .of_eq rfl⟩
  | updateConfig => exact ⟨hl.congr rfl rfl rfl rfl, ht, .of_eq rfl⟩
  | redelegate => exact ⟨hl, ht, .refl _⟩
  | updateGlobalIndex => exact ⟨hl.congr rfl rfl rfl rfl, ht, .of_eq rfl⟩

/-- One call: what the outside answers, the block and the hub's address, the
caller, the message, and the response. -/
structure Call where
  querier : Querier
  env : Env
  info : MessageInfo
  msg : HubMsg
  response : Response

/-- The hub, and the block of its last call. -/
structure Clocked where
  now : Block
  st : Storage

/-- **One accepted call**, in the same block as the last or in a later one. -/
structure Step (s : Clocked) (c : Call) (s' : Clocked) : Prop where
  height_le : s.now.height ≤ c.env.block.height
  time_le : s.now.time ≤ c.env.block.time
  now_eq : s'.now = c.env.block
  accepted : execute c.querier s.st c.env c.info c.msg = .ok (s'.st, c.response)

/-- A hub that `msg` has just created. -/
def Created (msg : InstantiateMsg) (s : Clocked) : Prop :=
  ∃ env info res, s.now = env.block ∧ instantiate env info msg = .ok (s.st, res)

theorem Step.effect {s s' : Clocked} {c : Call} (h : Step s c s') :
    Effect c.querier s.st c.env c.info c.msg s'.st c.response := execute_ok h.accepted

/-- What a run keeps: the ledger, and that nothing in it is from the future. -/
def Clocked.Ledger (s : Clocked) : Prop := BatchLedger s.st ∧ s.st.ClosedBy s.now.time

theorem Created.ledger {msg : InstantiateMsg} {s : Clocked} (h : Created msg s) : s.Ledger := by
  obtain ⟨env, info, res, -, h⟩ := h
  have hi := instantiate_ok h
  exact ⟨hi.ledger, fun b e hb => by simp [hi.history_eq] at hb⟩

theorem Step.ledger {s s' : Clocked} {c : Call} (h : Step s c s') (hs : s.Ledger) :
    s'.Ledger ∧ Kept s.st s'.st := by
  have ht : s.st.ClosedBy c.env.block.time := fun b e hb => (hs.2 b e hb).trans h.time_le
  obtain ⟨hl, ht', hk⟩ := h.effect.ledger hs.1 ht
  exact ⟨⟨hl, h.now_eq ▸ ht'⟩, hk⟩

theorem Run.ledger {s t : Clocked} {tr : List (Call × Clocked)} (run : Run Step s tr t)
    (hs : s.Ledger) : t.Ledger ∧ Kept s.st t.st :=
  run.invariant (P := fun t => t.Ledger ∧ Kept s.st t.st) ⟨hs, .refl _⟩
    fun _ _ _ h hstep => ⟨(hstep.ledger h.1).1, h.2.trans (hstep.ledger h.1).2⟩

/-- **The ledger holds in every state a hub reaches**, and between two such
states a history changes in nothing but that it is released. -/
theorem batch_ledger {msg : InstantiateMsg} {s t u : Clocked} {tr tr' : List (Call × Clocked)}
    (created : Created msg s) (run : Run Step s tr t) (rest : Run Step t tr' u) :
    BatchLedger t.st ∧ Kept t.st u.st :=
  ⟨(Run.ledger run created.ledger).1.1, (Run.ledger rest (Run.ledger run created.ledger).1).2⟩

/-! ### A run on sample answers -/

/-- A call before its response is known. -/
abbrev Line := Querier × Env × MessageInfo × HubMsg

/-- What the hub answers to a line. -/
def Clocked.answer (s : Clocked) (line : Line) : Exec (Storage × Response) :=
  execute line.1 s.st line.2.1 line.2.2.1 line.2.2.2

/-- The line as a call; the response of a refused one is empty. -/
def Clocked.call (s : Clocked) (line : Line) : Call :=
  { querier := line.1
    env := line.2.1
    info := line.2.2.1
    msg := line.2.2.2
    response := match s.answer line with
      | .ok r => r.2
      | .error _ => {} }

/-- The hub after the line; a refused one changes nothing. -/
def Clocked.next (s : Clocked) (line : Line) : Clocked :=
  match s.answer line with
  | .ok r => ⟨line.2.1.block, r.1⟩
  | .error _ => s

/-- The line is accepted, and not in an earlier block. -/
def Clocked.accepts (s : Clocked) (line : Line) : Bool :=
  s.now.height ≤ line.2.1.block.height && s.now.time ≤ line.2.1.block.time &&
    (s.answer line).isOk

theorem Clocked.step_of_accepts {s : Clocked} {line : Line} (h : s.accepts line = true) :
    Step s (s.call line) (s.next line) := by
  simp only [Clocked.accepts, Bool.and_eq_true, decide_eq_true_eq] at h
  obtain ⟨⟨hheight, htime⟩, hok⟩ := h
  cases hx : s.answer line with
  | error e => simp [hx, Except.isOk, Except.toBool] at hok
  | ok r =>
    refine ⟨hheight, htime, ?_, ?_⟩
    · simp [Clocked.next, Clocked.call, hx]
    · simp only [Clocked.next, Clocked.call, hx]
      exact hx

/-- The call and the hub after it, if it is accepted. -/
def Clocked.exec (s : Clocked) (line : Line) : Option (Call × Clocked) :=
  if s.accepts line then some (s.call line, s.next line) else none

theorem Clocked.exec_sound (s : Clocked) (line : Line) (c : Call) (t : Clocked)
    (h : s.exec line = some (c, t)) : Step s c t := by
  unfold Clocked.exec at h
  split_ifs at h with hacc
  obtain ⟨rfl, rfl⟩ := Prod.mk.inj (Option.some.inj h)
  exact Clocked.step_of_accepts hacc

/-- An outside with one validator, which holds all of the hub's delegation. -/
def sampleQuerier (delegated supply balance : ℕ) : Querier :=
  { balance := fun _ _ => balance
    allDelegations := fun hub =>
      if delegated = 0 then [] else [⟨hub, "val", ⟨"ubbn", delegated⟩⟩]
    validatorsDelegation := fun _ => .ok [⟨delegated, "val"⟩]
    totalSupply := fun _ => .ok supply
    tokenBalance := fun _ _ => .ok supply
    tokenAllowance := fun _ _ _ => .ok supply
    hubPaused := fun _ => .ok false
    addrValidate := fun _ => true }

/-- A block every ten seconds from height 100 on. -/
def sampleEnv (height : ℕ) : Env := ⟨⟨height, (height - 100) * 10⟩, "hub"⟩

/-- A staking epoch of 360 blocks, batches of two hours. -/
def sampleMsg : InstantiateMsg := ⟨7200, "ubbn", 10000, 100, 360⟩

/-- The hub `sampleMsg` creates. -/
def sampleHub : Clocked :=
  ⟨(sampleEnv 100).block,
    ((instantiate (sampleEnv 100) ⟨"owner", []⟩ sampleMsg).toOption.get (by rfl)).1⟩

theorem sampleHub_created : Created sampleMsg sampleHub :=
  ⟨sampleEnv 100, ⟨"owner", []⟩, _, rfl, rfl⟩

/-- The owner configures the hub, a user stakes 100. -/
def sampleStart : List Line :=
  [(sampleQuerier 0 0 0, sampleEnv 100, ⟨"owner", []⟩,
      .updateConfig none (some "token") (some "registry") (some "dispatcher")),
   (sampleQuerier 0 0 100, sampleEnv 100, ⟨"alice", [⟨"ubbn", 100⟩]⟩, .stake)]

/-- A user asks for 60 when the batch is due, and it is closed at once. -/
def sampleUnstake : List Line :=
  [(sampleQuerier 100 100 0, sampleEnv 900, ⟨"alice", []⟩, .unstake 60)]

/-- The user withdraws, which releases the batch. -/
def sampleWithdraw : List Line :=
  [(sampleQuerier 40 40 60, sampleEnv 2100, ⟨"alice", []⟩, .withdrawUnstaked)]

/-- The ledger over a batch that is filled, closed, released and paid. -/
theorem batch_ledger_sample :
    ∃ s t u tr tr', Created sampleMsg s ∧ Run Step s tr t ∧ Run Step t tr' u ∧
      t.st.currentBatch.id = 2 ∧ u.st.state.lastProcessedBatch = 1 ∧
      BatchLedger t.st ∧ Kept t.st u.st := by
  have run := played_run Clocked.exec_sound sampleHub
    (sampleStart ++ sampleUnstake) (by decide +kernel)
  have rest := played_run Clocked.exec_sound
    (playEnd Clocked.exec sampleHub (sampleStart ++ sampleUnstake)) sampleWithdraw
    (by decide +kernel)
  obtain ⟨ledger, kept⟩ := batch_ledger sampleHub_created run rest
  exact ⟨_, _, _, _, _, sampleHub_created, run, rest, by decide +kernel, by decide +kernel,
    ledger, kept⟩

end Hub
end BabyLst
