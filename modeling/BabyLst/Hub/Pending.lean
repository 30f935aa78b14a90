/-
# The pending amounts are those of the epoch

The roll-over of the pending amounts is written three times: where they are read
(`get_pending_delegation_amount`), where they are updated
(`update_pending_delegation_amount`) and where they are queried
(`query_pending_delegation`).  The start of the record moves lazily, by several
epochs at once.

For every sequence of updates at heights that do not fall, the three agree at
every later height: the amounts are those of the updates in the same epoch, and
the start is the start of that epoch (`pending_amounts_are_of_the_epoch`).  The
invariant (`PendingDelegation.Holds`) is that the record starts at the start of
an epoch no update lies beyond, and holds the amounts of that epoch.
-/

import BabyLst.Hub.Contract
import BabyLst.Hub.Query

namespace BabyLst
namespace Hub

open Lib

/-- A call of `update_pending_delegation_amount`. -/
structure PendingUpdate where
  env : Env
  stakingAmount : Option ℕ
  unstakingAmount : Option ℕ

/-- The height it is made at. -/
def PendingUpdate.height (u : PendingUpdate) : ℕ := u.env.block.height

/-- The calls one after the other. -/
def pendingUpdates (st : Storage) (updates : List PendingUpdate) : Exec Storage :=
  updates.foldlM (fun st u =>
    updatePendingDelegationAmount st u.env u.stakingAmount u.unstakingAmount) st

/-- What the updates add up to. -/
def pendingSums (updates : List PendingUpdate) : ℕ × ℕ :=
  ((updates.map fun u => u.stakingAmount.getD 0).sum,
    (updates.map fun u => u.unstakingAmount.getD 0).sum)

/-- The updates of the `k`-th epoch from `start` on. -/
def updatesInEpoch (start length k : ℕ) (updates : List PendingUpdate) : List PendingUpdate :=
  updates.filter fun u => start + k * length ≤ u.height ∧ u.height < start + (k + 1) * length

variable {start length k : ℕ} {updates : List PendingUpdate} {u : PendingUpdate}

/-- The record of the pending amounts of the `k`-th epoch. -/
def epochRecord (start length k : ℕ) (updates : List PendingUpdate) : PendingDelegation where
  stakingEpochLengthBlocks := length
  stakingEpochStartBlockHeight := start + k * length
  pendingStakingAmount := (pendingSums (updatesInEpoch start length k updates)).1
  pendingUnstakingAmount := (pendingSums (updatesInEpoch start length k updates)).2

@[simp] theorem pendingSums_nil : pendingSums [] = (0, 0) := rfl

theorem pendingSums_snoc (updates : List PendingUpdate) (u : PendingUpdate) :
    pendingSums (updates ++ [u]) = ((pendingSums updates).1 + u.stakingAmount.getD 0,
      (pendingSums updates).2 + u.unstakingAmount.getD 0) := by
  simp [pendingSums]

theorem updatesInEpoch_snoc_self (h : start + k * length ≤ u.height)
    (h' : u.height < start + (k + 1) * length) :
    updatesInEpoch start length k (updates ++ [u]) =
      updatesInEpoch start length k updates ++ [u] := by
  rw [updatesInEpoch, List.filter_append, List.filter_cons_of_pos (by simpa using ⟨h, h'⟩),
    List.filter_nil]
  rfl

theorem updatesInEpoch_sublist (k : ℕ) (updates : List PendingUpdate) (u : PendingUpdate) :
    (updatesInEpoch start length k updates).Sublist
      (updatesInEpoch start length k (updates ++ [u])) := by
  rw [updatesInEpoch, updatesInEpoch, List.filter_append]
  exact List.sublist_append_left _ _

theorem pendingSums_mono {l l' : List PendingUpdate} (h : l.Sublist l') :
    (pendingSums l).1 ≤ (pendingSums l').1 ∧ (pendingSums l).2 ≤ (pendingSums l').2 :=
  ⟨(h.map _).sum_le_sum fun _ _ => Nat.zero_le _, (h.map _).sum_le_sum fun _ _ => Nat.zero_le _⟩

/-- Epochs that all updates lie before have none. -/
theorem updatesInEpoch_eq_nil (before : ∀ u ∈ updates, u.height < start + k * length) :
    updatesInEpoch start length k updates = [] := by
  refine List.filter_eq_nil_iff.2 fun u hu => ?_
  have hlt := before u hu
  simp only [decide_eq_true_eq, not_and]
  omega

/-- **What a record holds** after the updates: it is that of an epoch, and no
update lies beyond. -/
structure PendingDelegation.Holds (p : PendingDelegation) (start length : ℕ)
    (updates : List PendingUpdate) (k : ℕ) : Prop where
  eq : p = epochRecord start length k updates
  inside : ∀ u ∈ updates, u.height < start + (k + 1) * length

/-- The start of the record after a roll-over is that of the epoch. -/
theorem PendingDelegation.Holds.rolledStart_eq {p : PendingDelegation} {j height : ℕ}
    (length_pos : 0 < length) (h : p.Holds start length updates k)
    (later : start + k * length ≤ height) (low : start + j * length ≤ height)
    (high : height < start + (j + 1) * length) : p.rolledStart height = start + j * length := by
  obtain ⟨⟨i, hi⟩, hle, hlt⟩ := aligned_roll length_pos ⟨k, rfl⟩ later
  have hfrom : start ≤ height := (Nat.le_add_right _ _).trans low
  have hin : epochOf start length height = i := by
    refine (epochOf_eq_iff length_pos hfrom).2 ⟨hi ▸ hle, ?_⟩
    rw [Nat.add_mul]
    omega
  have hj : epochOf start length height = j := (epochOf_eq_iff length_pos hfrom).2 ⟨low, high⟩
  rw [h.eq]
  exact hi.trans (by rw [← hin, hj])

/-- **What a record says of a later height**: that is in the epoch of the record,
whose amounts they are, or in a later one, without updates. -/
theorem PendingDelegation.Holds.current_eq {p : PendingDelegation} {j height : ℕ}
    (length_pos : 0 < length) (h : p.Holds start length updates k)
    (later : start + k * length ≤ height) (low : start + j * length ≤ height)
    (high : height < start + (j + 1) * length) :
    p.current height = pendingSums (updatesInEpoch start length j updates) := by
  have hfrom : start ≤ height := (Nat.le_add_right _ _).trans low
  have hj : epochOf start length height = j := (epochOf_eq_iff length_pos hfrom).2 ⟨low, high⟩
  have hsame := sub_lt_iff_epoch_eq length_pos ⟨k, rfl⟩ later
  rw [epochOf_add_mul length_pos, hj] at hsame
  have hle : k ≤ j := by
    rw [← hj, ← (epochOf_add_mul length_pos k : epochOf start length _ = k)]
    exact epochOf_mono later
  rw [h.eq]
  by_cases hjk : j = k
  · rw [hjk]
    exact if_pos (hsame.2 hjk)
  · refine (if_neg fun hin => hjk (hsame.1 hin)).trans ?_
    have hnext : (k + 1) * length ≤ j * length := Nat.mul_le_mul_right _ (by omega)
    rw [updatesInEpoch_eq_nil, pendingSums_nil]
    intro u hu
    have hlt := h.inside u hu
    omega

/-! ### The three roll-overs -/

/-- **An update succeeds** at a height that is not before the record, if the
amounts fit. -/
theorem updatePendingDelegationAmount_fits {st : Storage} (env : Env) {s u : Option ℕ}
    (later : st.pendingDelegation.stakingEpochStartBlockHeight ≤ env.block.height)
    (length_pos : 0 < st.pendingDelegation.stakingEpochLengthBlocks)
    (height : env.block.height < 2 ^ 64)
    (staking : (st.pendingDelegation.current env.block.height).1 + s.getD 0 < 2 ^ 128)
    (unstaking : (st.pendingDelegation.current env.block.height).2 + u.getD 0 < 2 ^ 128) :
    ∃ st', updatePendingDelegationAmount st env s u = .ok st' := by
  unfold updatePendingDelegationAmount
  unfold PendingDelegation.current at staking unstaking
  rw [bind_ok (strictSub_eq_ok.2 ⟨later, rfl⟩)]
  split_ifs at staking unstaking ⊢ with hin
  · rw [bind_ok (strictAdd_eq_ok.2 ⟨staking, rfl⟩), bind_ok (strictAdd_eq_ok.2 ⟨unstaking, rfl⟩)]
    exact ⟨_, rfl⟩
  · have hle := Nat.div_mul_le_self (env.block.height -
      st.pendingDelegation.stakingEpochStartBlockHeight)
      st.pendingDelegation.stakingEpochLengthBlocks
    rw [bind_ok (strictDiv_eq_ok.2 ⟨Nat.ne_of_gt length_pos, rfl⟩),
      bind_ok (strictMul_eq_ok.2 ⟨by omega, rfl⟩), bind_ok (strictAdd_eq_ok.2 ⟨by omega, rfl⟩)]
    exact ⟨_, rfl⟩

/-- **The query rolls over as an update does.** -/
theorem queryPendingDelegation_eq {st : Storage} {env : Env}
    (later : st.pendingDelegation.stakingEpochStartBlockHeight ≤ env.block.height)
    (length_pos : 0 < st.pendingDelegation.stakingEpochLengthBlocks)
    (height : env.block.height < 2 ^ 64) :
    queryPendingDelegation st env = .ok
      { stakingEpochLengthBlocks := st.pendingDelegation.stakingEpochLengthBlocks
        stakingEpochStartBlockHeight := st.pendingDelegation.rolledStart env.block.height
        pendingStakingAmount := (st.pendingDelegation.current env.block.height).1
        pendingUnstakingAmount := (st.pendingDelegation.current env.block.height).2 } := by
  unfold queryPendingDelegation PendingDelegation.current
  rw [bind_ok (strictSub_eq_ok.2 ⟨later, rfl⟩)]
  by_cases hin : env.block.height - st.pendingDelegation.stakingEpochStartBlockHeight <
      st.pendingDelegation.stakingEpochLengthBlocks
  · rw [if_neg (Nat.not_le_of_lt hin), if_pos hin, PendingDelegation.rolledStart,
      Nat.div_eq_of_lt hin]
    simp only [Nat.zero_mul, Nat.add_zero]
    rfl
  · have hle := Nat.div_mul_le_self (env.block.height -
      st.pendingDelegation.stakingEpochStartBlockHeight)
      st.pendingDelegation.stakingEpochLengthBlocks
    rw [if_pos (Nat.le_of_not_lt hin), if_neg hin,
      bind_ok (strictDiv_eq_ok.2 ⟨Nat.ne_of_gt length_pos, rfl⟩),
      bind_ok (strictMul_eq_ok.2 ⟨by omega, rfl⟩), bind_ok (strictAdd_eq_ok.2 ⟨by omega, rfl⟩)]
    rfl

/-! ### Runs of updates -/

/-- **One more update** at a height that is not before the others. -/
theorem PendingDelegation.Holds.update {st : Storage} (length_pos : 0 < length)
    (h : st.pendingDelegation.Holds start length updates k)
    (later : start + k * length ≤ u.height) (height : u.height < 2 ^ 64)
    (fits : ∀ j, (pendingSums (updatesInEpoch start length j (updates ++ [u]))).1 < 2 ^ 128 ∧
      (pendingSums (updatesInEpoch start length j (updates ++ [u]))).2 < 2 ^ 128) :
    ∃ st', updatePendingDelegationAmount st u.env u.stakingAmount u.unstakingAmount = .ok st' ∧
      st' = { st with pendingDelegation := st'.pendingDelegation } ∧
      st'.pendingDelegation.Holds start length (updates ++ [u])
        (epochOf start length u.height) := by
  set j := epochOf start length u.height with hj
  have hfrom : start ≤ u.height := (Nat.le_add_right _ _).trans later
  obtain ⟨low, high⟩ := (epochOf_eq_iff length_pos hfrom).1 hj.symm
  have hcurrent := h.current_eq length_pos later low high
  have hrolled := h.rolledStart_eq length_pos later low high
  have hsnoc : pendingSums (updatesInEpoch start length j (updates ++ [u])) =
      ((st.pendingDelegation.current u.height).1 + u.stakingAmount.getD 0,
        (st.pendingDelegation.current u.height).2 + u.unstakingAmount.getD 0) := by
    rw [updatesInEpoch_snoc_self low high, pendingSums_snoc, ← hcurrent]
  obtain ⟨hstaking, hunstaking⟩ := fits j
  rw [hsnoc] at hstaking hunstaking
  obtain ⟨st', hok⟩ := updatePendingDelegationAmount_fits u.env
    (by rw [h.eq]; exact later) (by rw [h.eq]; exact length_pos) height hstaking hunstaking
  obtain ⟨p, rfl, hwritten⟩ := updatePendingDelegationAmount_ok hok
  refine ⟨_, hok, rfl, ?_, ?_⟩
  · have hlength : p.stakingEpochLengthBlocks = length := by
      rw [hwritten.length_eq, h.eq]
      rfl
    obtain ⟨plength, pstart, pstaking, punstaking⟩ := p
    rw [epochRecord, hsnoc, ← hrolled]
    exact congr (congr (congr (congrArg PendingDelegation.mk hlength) hwritten.start_eq)
      hwritten.staking_eq) hwritten.unstaking_eq
  · intro v hv
    rcases List.mem_append.1 hv with hv | hv
    · have hlt := h.inside v hv
      have hle : (k + 1) * length ≤ (j + 1) * length := by
        refine Nat.mul_le_mul_right _ (Nat.succ_le_succ ?_)
        rw [hj, ← (epochOf_add_mul length_pos k : epochOf start length _ = k)]
        exact epochOf_mono later
      omega
    · obtain rfl := List.mem_singleton.1 hv
      exact high

theorem pendingUpdates_snoc (st : Storage) (updates : List PendingUpdate) (u : PendingUpdate) :
    pendingUpdates st (updates ++ [u]) = pendingUpdates st updates >>= fun st =>
      updatePendingDelegationAmount st u.env u.stakingAmount u.unstakingAmount := by
  simp [pendingUpdates, List.foldlM_append]

/-- **A run of updates succeeds, and the record holds their amounts.** -/
theorem pendingUpdates_holds {st : Storage} (length_pos : 0 < length)
    (created : st.pendingDelegation = ⟨length, start, 0, 0⟩)
    (from_start : ∀ u ∈ updates, start ≤ u.height) (heights : ∀ u ∈ updates, u.height < 2 ^ 64)
    (ordered : updates.Pairwise fun u v => u.height ≤ v.height)
    (fits : ∀ j, (pendingSums (updatesInEpoch start length j updates)).1 < 2 ^ 128 ∧
      (pendingSums (updatesInEpoch start length j updates)).2 < 2 ^ 128) :
    ∃ st' k, pendingUpdates st updates = .ok st' ∧
      st' = { st with pendingDelegation := st'.pendingDelegation } ∧
      st'.pendingDelegation.Holds start length updates k ∧
      ∀ height, start ≤ height → (∀ u ∈ updates, u.height ≤ height) →
        start + k * length ≤ height := by
  induction updates using List.reverseRecOn with
  | nil =>
    refine ⟨st, 0, rfl, rfl, ⟨?_, by simp⟩, fun height hle _ => by simpa using hle⟩
    rw [created]
    simp [epochRecord, updatesInEpoch]
  | append_singleton updates u ih =>
    rw [List.pairwise_append] at ordered
    obtain ⟨hordered, -, hlast⟩ := ordered
    have hinit : ∀ v ∈ updates, v ∈ updates ++ [u] := fun v hv => List.mem_append_left _ hv
    have hu : u ∈ updates ++ [u] := by simp
    obtain ⟨st₁, k, hrun, hframe, hholds, hreach⟩ := ih (fun v hv => from_start v (hinit v hv))
      (fun v hv => heights v (hinit v hv)) hordered fun j => by
        have hsub : (updatesInEpoch start length j updates).Sublist _ :=
          updatesInEpoch_sublist j updates u
        have hle := pendingSums_mono hsub
        have hfits := fits j
        omega
    have hlater := hreach u.height (from_start u hu) fun v hv => hlast v hv u (by simp)
    obtain ⟨st₂, hok, hframe', hholds'⟩ := hholds.update length_pos hlater (heights u hu) fits
    refine ⟨st₂, _, ?_, ?_, hholds', fun height _ hle => ?_⟩
    · rw [pendingUpdates_snoc, bind_ok hrun]
      exact hok
    · rw [hframe', hframe]
    · have hstart := (epochOf_eq_iff length_pos (from_start u hu)).1 rfl
      exact hstart.1.trans (hle u hu)

/-- **The pending amounts are exactly those of the current epoch**: after any
sequence of updates from the record of `instantiate`, at every height not below
the last, the amounts read are those of the updates in the same epoch, and the
query returns them with the start of that epoch, which is the record that an
update without amounts stores. -/
theorem pending_amounts_are_of_the_epoch {env₀ : Env} {info : MessageInfo} {msg : InstantiateMsg}
    {st₀ : Storage} {res : Response} (created : instantiate env₀ info msg = .ok (st₀, res))
    (length_pos : 0 < msg.stakingEpochLengthBlocks)
    (from_start : ∀ u ∈ updates, msg.stakingEpochStartBlockHeight ≤ u.height)
    (heights : ∀ u ∈ updates, u.height < 2 ^ 64)
    (ordered : updates.Pairwise fun u v => u.height ≤ v.height)
    (fits : ∀ k, (pendingSums (updatesInEpoch msg.stakingEpochStartBlockHeight
        msg.stakingEpochLengthBlocks k updates)).1 < 2 ^ 128 ∧
      (pendingSums (updatesInEpoch msg.stakingEpochStartBlockHeight
        msg.stakingEpochLengthBlocks k updates)).2 < 2 ^ 128) :
    ∃ st, pendingUpdates st₀ updates = .ok st ∧ ∀ env k, env.block.height < 2 ^ 64 →
      (∀ u ∈ updates, u.height ≤ env.block.height) →
      msg.stakingEpochStartBlockHeight + k * msg.stakingEpochLengthBlocks ≤ env.block.height →
      env.block.height <
        msg.stakingEpochStartBlockHeight + (k + 1) * msg.stakingEpochLengthBlocks →
      getPendingDelegationAmount st env = .ok (pendingSums (updatesInEpoch
        msg.stakingEpochStartBlockHeight msg.stakingEpochLengthBlocks k updates)) ∧
      queryPendingDelegation st env = .ok (epochRecord msg.stakingEpochStartBlockHeight
        msg.stakingEpochLengthBlocks k updates) ∧
      updatePendingDelegationAmount st env none none = .ok
        { st with
          pendingDelegation := epochRecord msg.stakingEpochStartBlockHeight
            msg.stakingEpochLengthBlocks k updates } := by
  set start := msg.stakingEpochStartBlockHeight with hstart
  set length := msg.stakingEpochLengthBlocks with hlength
  have hrecord : st₀.pendingDelegation = ⟨length, start, 0, 0⟩ := by
    simp only [instantiate, bind_eq_ok, require_eq_ok, pure_eq_ok, Prod.mk.injEq] at created
    obtain ⟨-, -, -, -, -, -, -, -, -, -, rfl, -⟩ := created
    rfl
  obtain ⟨st, j, hrun, -, hholds, hreach⟩ := pendingUpdates_holds length_pos hrecord from_start
    heights ordered fits
  refine ⟨st, hrun, fun env k height last low high => ?_⟩
  have hfrom : start ≤ env.block.height := (Nat.le_add_right _ _).trans low
  have hlater := hreach _ hfrom last
  have hcurrent := hholds.current_eq length_pos hlater low high
  have hrolled := hholds.rolledStart_eq length_pos hlater low high
  have hle : st.pendingDelegation.stakingEpochStartBlockHeight ≤ env.block.height := by
    rw [hholds.eq]
    exact hlater
  have hlen : st.pendingDelegation.stakingEpochLengthBlocks = length := by
    rw [hholds.eq]
    rfl
  refine ⟨getPendingDelegationAmount_eq_ok.2 ⟨hle, hcurrent⟩, ?_, ?_⟩
  · rw [queryPendingDelegation_eq hle (hlen ▸ length_pos) height, hcurrent, hrolled, hlen]
    rfl
  · obtain ⟨st', hok⟩ := updatePendingDelegationAmount_fits env (s := none)
      (u := none) hle (hlen ▸ length_pos) height (by rw [hcurrent]; exact (fits k).1)
      (by rw [hcurrent]; exact (fits k).2)
    obtain ⟨p, rfl, hwritten⟩ := updatePendingDelegationAmount_ok hok
    have hp : p = epochRecord start length k updates := by
      obtain ⟨plength, pstart, pstaking, punstaking⟩ := p
      rw [epochRecord, ← hcurrent, ← hrolled, ← hlen]
      exact congr (congr (congr (congrArg PendingDelegation.mk hwritten.length_eq)
        hwritten.start_eq) hwritten.staking_eq) hwritten.unstaking_eq
    rw [hok, hp]

/-- An update at the given height. -/
def updateAt (height : ℕ) (stakingAmount unstakingAmount : Option ℕ) : PendingUpdate :=
  ⟨⟨⟨height, 0⟩, "hub"⟩, stakingAmount, unstakingAmount⟩

/-- Epochs of 360 blocks from height 100: two stakes in the second one, an unstake
in the first block of the third, and a query in its last. -/
theorem pending_amounts_are_of_the_epoch_sample :
    ∃ st₀ res st, instantiate ⟨⟨50, 0⟩, "hub"⟩ ⟨"owner", []⟩ ⟨7200, "ubbn", 10000, 100, 360⟩ =
        .ok (st₀, res) ∧
      pendingUpdates st₀ [updateAt 460 (some 7) none, updateAt 819 (some 5) none,
        updateAt 820 none (some 3)] = .ok st ∧
      queryPendingDelegation st ⟨⟨1179, 0⟩, "hub"⟩ = .ok ⟨360, 820, 0, 3⟩ := by
  have hsub : ∀ k, (updatesInEpoch 100 360 k [updateAt 460 (some 7) none,
      updateAt 819 (some 5) none, updateAt 820 none (some 3)]).Sublist _ :=
    fun k => List.filter_sublist
  have created : ∃ st₀ res, instantiate ⟨⟨50, 0⟩, "hub"⟩ ⟨"owner", []⟩
    ⟨7200, "ubbn", 10000, 100, 360⟩ = .ok (st₀, res) := ⟨_, _, rfl⟩
  obtain ⟨st₀, res, created⟩ := created
  obtain ⟨st, hrun, hread⟩ := pending_amounts_are_of_the_epoch created (by decide)
    (by decide) (by decide) (by decide) fun k =>
      ⟨(pendingSums_mono (hsub k)).1.trans_lt (by decide),
        (pendingSums_mono (hsub k)).2.trans_lt (by decide)⟩
  obtain ⟨-, hquery, -⟩ :=
    hread ⟨⟨1179, 0⟩, "hub"⟩ 2 (by decide) (by decide) (by decide) (by decide)
  exact ⟨_, _, st, created, hrun, hquery⟩

end Hub
end BabyLst
