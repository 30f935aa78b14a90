/-
# Plans level out the validators

Both routines of `packages/lst_common/src/delegation.rs` return a greedy plan
for the targets they compute (`delegateLoop_fill`, `undelegatePass_fill`): what
a validator is short of its target, or above it, in the order of the list, until
the amount is used up.  The targets are an even split of what is delegated in
all once the plan is carried out, so there is always enough to fill or to draw,
and the errors behind the loops are not reached.

A delegation raises no validator past its target and an undelegation lowers
none below it, hence neither drives two validators further apart than they were
or than one coin (`calculateDelegations_balanced`,
`calculateUndelegations_balanced`).
-/

import BabyLst.Common.Delegation
import BabyLst.Lib.Leveling

namespace BabyLst

open Lib

/-- What the validators of the list have delegated to them. -/
def delegationsOf (validators : List ValidatorResponse) : List ℕ :=
  validators.map (·.totalDelegated)

/-- The targets of the validators for a total. -/
def targetsFor (total : ℕ) (validators : List ValidatorResponse) : List ℕ :=
  targetCoinsPerValidator (distributeCoins total validators.length).1
    (distributeCoins total validators.length).2 validators

@[simp] theorem length_delegationsOf (vs : List ValidatorResponse) :
    (delegationsOf vs).length = vs.length := List.length_map _

@[simp] theorem length_targetsFor (total : ℕ) (vs : List ValidatorResponse) :
    (targetsFor total vs).length = vs.length := length_targetCoinsPerValidator _ _ vs

/-- The targets are an even split. -/
theorem targetCoinsPerValidator_eq (c r : ℕ) (vs : List ValidatorResponse) :
    targetCoinsPerValidator c r vs = evenTargets c r vs.length := by
  unfold targetCoinsPerValidator evenTargets
  rw [List.range_eq_range', ← List.zipIdx_map_snd 0 vs, List.map_map]
  rfl

theorem sum_targetsFor {total : ℕ} {vs : List ValidatorResponse} (hne : vs ≠ []) :
    (targetsFor total vs).sum = total := by
  rw [targetsFor, targetCoinsPerValidator_eq]
  exact sum_evenTargets_div total (List.length_pos_of_ne_nil hne)

theorem targetsFor_level (total : ℕ) (vs : List ValidatorResponse) :
    ∀ t ∈ targetsFor total vs, ∀ t' ∈ targetsFor total vs, t ≤ t' + 1 := by
  rw [targetsFor, targetCoinsPerValidator_eq]
  intro t ht t' ht'
  have hhigh := (mem_evenTargets ht).2
  have hlow := (mem_evenTargets ht').1
  omega

/-! ### Delegating -/

/-- **The loop of `calculate_delegations` is a greedy plan**, if so much is
lacking and some validator is not above its target. -/
theorem delegateLoop_fill {l : List (ValidatorResponse × ℕ)} {amt : ℕ}
    (lacking : amt ≤ (l.map fun e => e.2 - e.1.totalDelegated).sum)
    (reached : ∃ e ∈ l, e.1.totalDelegated ≤ e.2) :
    delegateLoop amt l = .ok (fill amt (l.map fun e => e.2 - e.1.totalDelegated)) := by
  induction l generalizing amt with
  | nil =>
    obtain ⟨e, he, -⟩ := reached
    cases he
  | cons entry rest ih =>
    obtain ⟨v, target⟩ := entry
    simp only [List.map_cons, List.sum_cons] at lacking
    rw [List.map_cons, fill]
    unfold delegateLoop
    split_ifs with hlt
    · -- a validator above its target lacks nothing
      have hzero : target - v.totalDelegated = 0 := by omega
      have hrest : ∃ e ∈ rest, e.1.totalDelegated ≤ e.2 := by
        obtain ⟨e, he, hle⟩ := reached
        rcases List.mem_cons.1 he with rfl | he
        · exact absurd hle (Nat.not_le_of_lt hlt)
        · exact ⟨e, he, hle⟩
      rw [hzero, Nat.zero_add] at lacking
      rw [bind_ok (ih lacking hrest), hzero, Nat.zero_min]
      rfl
    · have hsub : checkedSub amt (min (target - v.totalDelegated) amt) =
        .ok (amt - min (target - v.totalDelegated) amt) := checkedSub_eq_ok.2 ⟨by omega, rfl⟩
      rw [bind_ok hsub]
      split_ifs with hz
      · rw [hz, fill_zero, List.map_map]
        rfl
      · have hle : amt - min (target - v.totalDelegated) amt ≤
          (rest.map fun e => e.2 - e.1.totalDelegated).sum := by omega
        have hrest : ∃ e ∈ rest, e.1.totalDelegated ≤ e.2 := by
          by_contra hnone
          push Not at hnone
          have hsum : (rest.map fun e => e.2 - e.1.totalDelegated).sum = 0 :=
            List.sum_eq_zero fun x hx => by
              obtain ⟨e, he, rfl⟩ := List.mem_map.1 hx
              have hlt := hnone e he
              omega
          omega
        rw [bind_ok (ih hle hrest)]
        rfl

/-- What the validators are short of their targets. -/
theorem map_lacks (vs : List ValidatorResponse) (targets : List ℕ) :
    ((vs.zip targets).map fun e => e.2 - e.1.totalDelegated) =
      List.zipWith (fun b t => t - b) (delegationsOf vs) targets := by
  rw [List.map_zip_eq_zipWith, delegationsOf, List.zipWith_map_left]
  rfl

/-- Some validator is not above its target, if the targets are for no less than
there is. -/
theorem exists_reached {vs : List ValidatorResponse} {targets : List ℕ} (hne : vs ≠ [])
    (hlen : targets.length = vs.length) (hsum : (delegationsOf vs).sum ≤ targets.sum) :
    ∃ e ∈ vs.zip targets, e.1.totalDelegated ≤ e.2 := by
  by_contra hnone
  push Not at hnone
  have hzip : vs.zip targets ≠ [] := by
    intro hnil
    rw [List.zip_eq_nil_iff] at hnil
    rcases hnil with h | h
    · exact hne h
    · rw [h] at hlen
      exact hne (List.length_eq_zero_iff.1 hlen.symm)
  have hlt := List.sum_lt_sum_of_ne_nil hzip (fun e => e.2) (fun e => e.1.totalDelegated)
    fun e he => hnone e he
  have hfst : ((vs.zip targets).map fun e => e.1.totalDelegated) = delegationsOf vs := by
    rw [← Function.comp_def ValidatorResponse.totalDelegated Prod.fst, ← List.map_map,
      List.map_fst_zip hlen.ge, delegationsOf]
  rw [hfst, List.map_snd_zip hlen.le] at hlt
  omega

/-- What is lacking is more than the amount. -/
theorem le_sum_lacks {vs : List ValidatorResponse} (hne : vs ≠ []) (amt : ℕ) :
    amt ≤ (List.zipWith (fun b t => t - b) (delegationsOf vs)
      (targetsFor ((delegationsOf vs).sum + amt) vs)).sum := by
  have hlen : (delegationsOf vs).length =
      (targetsFor ((delegationsOf vs).sum + amt) vs).length := by
    simp
  have hle := sum_le_sum_add_excess hlen
  rw [sum_targetsFor hne, List.zipWith_comm] at hle
  omega

/-- **`calculate_delegations` succeeds** on every list that is not empty, with
the greedy plan. -/
theorem calculateDelegations_fill {vs : List ValidatorResponse} {amt : ℕ} (hne : vs ≠ [])
    (fits : (delegationsOf vs).sum + amt < 2 ^ 128) :
    calculateDelegations amt vs = .ok (fill amt (List.zipWith (fun b t => t - b) (delegationsOf vs)
      (targetsFor ((delegationsOf vs).sum + amt) vs))) := by
  set targets := targetsFor ((delegationsOf vs).sum + amt) vs with htargets
  have hsum : targets.sum = (delegationsOf vs).sum + amt := sum_targetsFor hne
  have hloop : delegateLoop amt (vs.zip targets) =
      .ok (fill amt (List.zipWith (fun b t => t - b) (delegationsOf vs) targets)) := by
    rw [← map_lacks]
    refine delegateLoop_fill ?_ (exists_reached hne (length_targetsFor _ vs) (by omega))
    rw [map_lacks]
    exact le_sum_lacks hne amt
  simp only [calculateDelegations, bind_eq_ok, require_eq_ok, sumU128_eq_ok, strictAdd_eq_ok]
  exact ⟨(), hne, _, ⟨rfl, (Nat.le_add_right _ amt).trans_lt fits⟩, _, ⟨fits, rfl⟩, hloop⟩

/-- **`calculate_delegations` always distributes everything and never
unbalances**: for every list that is not empty and every amount that fits, a
plan of one entry per validator is returned, it spends the amount, raises no
validator past its target, and leaves no two validators further apart than they
were or than one coin. -/
theorem calculateDelegations_balanced {vs : List ValidatorResponse} {amt : ℕ} (hne : vs ≠ [])
    (fits : (delegationsOf vs).sum + amt < 2 ^ 128) :
    ∃ plan, calculateDelegations amt vs = .ok plan ∧ plan.length = vs.length ∧ plan.sum = amt ∧
      List.Forall₂ (· ≤ ·) (List.zipWith (· + ·) (delegationsOf vs) plan)
        (List.zipWith max (delegationsOf vs) (targetsFor ((delegationsOf vs).sum + amt) vs)) ∧
      spread (List.zipWith (· + ·) (delegationsOf vs) plan) ≤
        max 1 (spread (delegationsOf vs)) := by
  have hok := calculateDelegations_fill hne fits
  set targets := targetsFor ((delegationsOf vs).sum + amt) vs with htargets
  set plan := fill amt (List.zipWith (fun b t => t - b) (delegationsOf vs) targets) with hplan
  obtain ⟨hspent, hlength⟩ := calculateDelegations_sum hok
  have hlen : targets.length = (delegationsOf vs).length := by simp [htargets]
  have hsums : (delegationsOf vs).sum + plan.sum = targets.sum := by
    rw [hspent, htargets, sum_targetsFor hne]
  obtain ⟨hhigh, hspread⟩ := raised_leveled hlen (fill_le amt _) hsums
    (targetsFor_level ((delegationsOf vs).sum + amt) vs)
  exact ⟨plan, hok, hlength, hspent, hhigh, hspread⟩

/-- Three coins for validators with 5, 1 and 1: the first is above its target and
gets none, the others share. -/
theorem calculateDelegations_balanced_sample :
    ∃ plan, calculateDelegations 3 [⟨5, "a"⟩, ⟨1, "b"⟩, ⟨1, "c"⟩] = .ok plan ∧
      plan = [0, 2, 1] ∧
      spread (List.zipWith (· + ·) [5, 1, 1] plan) ≤ max 1 (spread [5, 1, 1]) := by
  have fits : (delegationsOf [⟨5, "a"⟩, ⟨1, "b"⟩, ⟨1, "c"⟩]).sum + 3 < 2 ^ 128 := by decide
  obtain ⟨plan, hok, -, -, -, hspread⟩ := calculateDelegations_balanced (by decide) fits
  have hplan : plan = [0, 2, 1] := by
    have hrun : calculateDelegations 3 [⟨5, "a"⟩, ⟨1, "b"⟩, ⟨1, "c"⟩] = .ok [0, 2, 1] := by
      decide +kernel
    exact Except.ok.inj (hok.symm.trans hrun)
  exact ⟨plan, hok, hplan, hspread⟩

/-! ### Undelegating -/

/-- **A pass of `calculate_undelegations` is a greedy plan** that uses up the
amount, if so much is in excess. -/
theorem undelegatePass_fill {l : List (Drawn × ℕ)} {amt total : ℕ} (pos : 0 < amt)
    (excess : amt ≤ (l.map fun e => e.1.totalDelegated - e.2).sum) (le : amt ≤ total)
    (fresh : ∀ e ∈ l, e.1.undelegated = 0 ∧ e.1.totalDelegated < 2 ^ 128) :
    ∃ drawn, undelegatePass amt total l = .ok (0, total - amt, drawn) ∧
      drawn.map (·.undelegated) = fill amt (l.map fun e => e.1.totalDelegated - e.2) := by
  induction l generalizing amt total with
  | nil =>
    rw [List.map_nil, List.sum_nil] at excess
    omega
  | cons entry rest ih =>
    obtain ⟨v, target⟩ := entry
    simp only [List.map_cons, List.sum_cons] at excess
    obtain ⟨hzero, hfits⟩ := fresh (v, target) List.mem_cons_self
    have hrest : ∀ e ∈ rest, e.1.undelegated = 0 ∧ e.1.totalDelegated < 2 ^ 128 :=
      fun e he => fresh e (List.mem_cons_of_mem _ he)
    set taken := min (v.totalDelegated - target) amt with htaken
    have habove : v.totalDelegated - min target v.totalDelegated = v.totalDelegated - target := by
      omega
    unfold undelegatePass
    rw [bind_ok (checkedSub_eq_ok.2 ⟨Nat.min_le_right _ _, habove⟩)]
    simp only [← htaken]
    simp only at hzero hfits
    rw [bind_ok (checkedAdd_eq_ok.2 ⟨by omega, rfl⟩), bind_ok (checkedSub_eq_ok.2 ⟨by omega, rfl⟩),
      bind_ok (checkedSub_eq_ok.2 ⟨by omega, rfl⟩), bind_ok (checkedSub_eq_ok.2 ⟨by omega, rfl⟩)]
    rw [List.map_cons, fill, ← htaken]
    split_ifs with hz
    · have htotal : total - taken = total - amt := by omega
      have hnone : rest.map (fun e => e.1.undelegated) = rest.map fun _ => 0 :=
        List.map_congr_left fun e he => (hrest e he).1
      rw [hz, htotal, fill_zero]
      refine ⟨_, rfl, ?_⟩
      simp only [List.map_cons, List.map_map, Function.comp_def, hnone, hzero, Nat.zero_add]
    · obtain ⟨drawn, hpass, hdrawn⟩ := ih (Nat.pos_of_ne_zero hz) (by omega)
        (Nat.sub_le_sub_right le taken) hrest
      have htotal : total - taken - (amt - taken) = total - amt := by omega
      rw [bind_ok hpass, htotal]
      refine ⟨_, rfl, ?_⟩
      rw [List.map_cons, hdrawn, hzero, Nat.zero_add]

/-- What the validators exceed their targets by. -/
theorem map_excess (vs : List ValidatorResponse) (targets : List ℕ) :
    (((vs.map fun v => Drawn.mk v.totalDelegated 0).zip targets).map
        fun e => e.1.totalDelegated - e.2) =
      List.zipWith (· - ·) (delegationsOf vs) targets := by
  rw [List.map_zip_eq_zipWith, List.zipWith_map_left, delegationsOf, List.zipWith_map_left]
  rfl

/-- There is enough above the targets to take the amount. -/
theorem le_sum_excess {vs : List ValidatorResponse} (hne : vs ≠ []) {amt : ℕ}
    (le : amt ≤ (delegationsOf vs).sum) :
    amt ≤ (List.zipWith (· - ·) (delegationsOf vs)
      (targetsFor ((delegationsOf vs).sum - amt) vs)).sum := by
  have hlen : (targetsFor ((delegationsOf vs).sum - amt) vs).length =
      (delegationsOf vs).length := by
    simp
  have hle := sum_le_sum_add_excess hlen
  rw [sum_targetsFor hne] at hle
  omega

/-- **The first pass of the loop is the last**: it uses up the amount. -/
theorem undelegateWhile_fill {vs : List ValidatorResponse} (hne : vs ≠ [])
    (fits : (delegationsOf vs).sum < 2 ^ 128) {amt : ℕ} (pos : 0 < amt)
    (le : amt ≤ (delegationsOf vs).sum) (passes : ℕ) :
    undelegateWhile (passes + 1) amt (delegationsOf vs).sum vs
        (vs.map fun v => Drawn.mk v.totalDelegated 0) =
      .ok (fill amt (List.zipWith (· - ·) (delegationsOf vs)
        (targetsFor ((delegationsOf vs).sum - amt) vs))) := by
  set total := (delegationsOf vs).sum with htotal
  have hover := le_sum_excess hne le
  set drawn := vs.map fun v => Drawn.mk v.totalDelegated 0 with hdrawn
  have hfresh : ∀ e ∈ drawn.zip (targetsFor (total - amt) vs),
      e.1.undelegated = 0 ∧ e.1.totalDelegated < 2 ^ 128 := by
    rintro ⟨v, t⟩ he
    obtain ⟨v, hv, rfl⟩ := List.mem_map.1 (List.of_mem_zip he).1
    have hle := List.single_le_sum (fun _ _ => Nat.zero_le _) _
      (List.mem_map_of_mem (f := ValidatorResponse.totalDelegated) hv)
    exact ⟨rfl, hle.trans_lt fits⟩
  obtain ⟨after, hpass, hafter⟩ := undelegatePass_fill pos (by rwa [map_excess]) le hfresh
  rw [map_excess] at hafter
  have htargets : targetCoinsPerValidator (distributeCoins (total - amt) drawn.length).1
      (distributeCoins (total - amt) drawn.length).2 vs = targetsFor (total - amt) vs := by
    rw [hdrawn, List.length_map]
    rfl
  unfold undelegateWhile
  rw [bind_ok (checkedSub_eq_ok.2 ⟨le, rfl⟩)]
  simp only [htargets]
  rw [bind_ok hpass]
  simp only [if_true, hafter]
  rfl

/-- What the validators exceed their targets by when an amount is undelegated. -/
def excesses (amt : ℕ) (validators : List ValidatorResponse) : List ℕ :=
  List.zipWith (· - ·) (delegationsOf validators)
    (targetsFor ((delegationsOf validators).sum - amt) validators)

/-- **`calculate_undelegations` is the greedy plan** for what the validators
exceed their targets by. -/
theorem calculateUndelegations_fill {vs : List ValidatorResponse} (hne : vs ≠ [])
    (fits : (delegationsOf vs).sum < 2 ^ 128) {amt : ℕ} (pos : 0 < amt)
    (le : amt ≤ (delegationsOf vs).sum) :
    calculateUndelegations amt vs = .ok (fill amt (excesses amt vs)) := by
  have hsum : sumU128 (vs.map (·.totalDelegated)) = .ok (delegationsOf vs).sum :=
    sumU128_eq_ok.2 ⟨rfl, fits⟩
  unfold calculateUndelegations
  rw [bind_ok (require_ok hne), bind_ok hsum, bind_ok (require_ok le)]
  simp only [Nat.ne_of_gt pos, if_false]
  obtain ⟨passes, rfl⟩ := Nat.exists_eq_add_one_of_ne_zero (Nat.ne_of_gt pos)
  exact undelegateWhile_fill hne fits pos le passes

/-- Every plan that is returned is the greedy one. -/
theorem calculateUndelegations_eq_fill {vs : List ValidatorResponse} {amt : ℕ} {plan : List ℕ}
    (h : calculateUndelegations amt vs = .ok plan) : plan = fill amt (excesses amt vs) := by
  obtain ⟨-, -, pos, le, -⟩ := calculateUndelegations_sum h
  have hok := h
  simp only [calculateUndelegations, bind_eq_ok, require_eq_ok, sumU128_eq_ok] at h
  obtain ⟨_, hne, _, ⟨rfl, fits⟩, -⟩ := h
  exact Except.ok.inj (hok.symm.trans (calculateUndelegations_fill hne fits pos le))

/-- **`calculate_undelegations` ends in its first pass and takes exactly the
claim**: for every list that is not empty and every amount that is there to be
taken, a plan of one entry per validator is returned, it spends the amount,
takes from no validator more than its delegation nor lowers it past its target,
and leaves no two validators further apart than they were or than one coin.  A
larger amount is refused. -/
theorem calculateUndelegations_balanced {vs : List ValidatorResponse} (hne : vs ≠ [])
    (fits : (delegationsOf vs).sum < 2 ^ 128) :
    (∀ amt, 0 < amt → amt ≤ (delegationsOf vs).sum → ∃ plan,
      undelegateWhile 1 amt (delegationsOf vs).sum vs
        (vs.map fun v => Drawn.mk v.totalDelegated 0) = .ok plan ∧
      calculateUndelegations amt vs = .ok plan ∧ plan.length = vs.length ∧ plan.sum = amt ∧
      List.Forall₂ (· ≤ ·) plan (delegationsOf vs) ∧
      List.Forall₂ (· ≤ ·)
        (List.zipWith min (delegationsOf vs) (targetsFor ((delegationsOf vs).sum - amt) vs))
        (List.zipWith (· - ·) (delegationsOf vs) plan) ∧
      spread (List.zipWith (· - ·) (delegationsOf vs) plan) ≤
        max 1 (spread (delegationsOf vs))) ∧
    ∀ amt, (delegationsOf vs).sum < amt →
      calculateUndelegations amt vs = .error ValidatorError.exceedUndelegation.fault := by
  have hsum : sumU128 (vs.map (·.totalDelegated)) = .ok (delegationsOf vs).sum :=
    sumU128_eq_ok.2 ⟨rfl, fits⟩
  constructor
  · intro amt pos le
    set targets := targetsFor ((delegationsOf vs).sum - amt) vs with htargets
    set plan := fill amt (List.zipWith (· - ·) (delegationsOf vs) targets) with hplan
    have hok : calculateUndelegations amt vs = .ok plan :=
      calculateUndelegations_fill hne fits pos le
    have hspent : plan.sum = amt := fill_sum (le_sum_excess hne le)
    have hleft : targets.sum = (delegationsOf vs).sum - amt := sum_targetsFor hne
    have hlen : targets.length = (delegationsOf vs).length := by simp [htargets]
    have hsums : targets.sum + plan.sum = (delegationsOf vs).sum := by omega
    obtain ⟨hle, hlow, hspread⟩ := lowered_leveled hlen (fill_le amt _) hsums
      (targetsFor_level ((delegationsOf vs).sum - amt) vs)
    exact ⟨plan, undelegateWhile_fill hne fits pos le 0, hok, (calculateUndelegations_sum hok).2.1,
      hspent, hle, hlow, hspread⟩
  · intro amt lt
    have hrefused : require (amt ≤ (delegationsOf vs).sum) ValidatorError.exceedUndelegation.fault =
      .error ValidatorError.exceedUndelegation.fault := if_neg (Nat.not_le_of_lt lt)
    unfold calculateUndelegations
    rw [bind_ok (require_ok hne), bind_ok hsum, hrefused]
    rfl

/-- Three coins of validators with 5, 1 and 1 come from the first; 8 are not
there. -/
theorem calculateUndelegations_balanced_sample :
    (∃ plan, calculateUndelegations 3 [⟨5, "a"⟩, ⟨1, "b"⟩, ⟨1, "c"⟩] = .ok plan ∧
      plan = [3, 0, 0] ∧ spread (List.zipWith (· - ·) [5, 1, 1] plan) ≤ max 1 (spread [5, 1, 1])) ∧
    calculateUndelegations 8 [⟨5, "a"⟩, ⟨1, "b"⟩, ⟨1, "c"⟩] =
      .error ValidatorError.exceedUndelegation.fault := by
  have fits : (delegationsOf [⟨5, "a"⟩, ⟨1, "b"⟩, ⟨1, "c"⟩]).sum < 2 ^ 128 := by decide
  obtain ⟨taken, refused⟩ := calculateUndelegations_balanced (by decide) fits
  obtain ⟨plan, -, hok, -, -, -, -, hspread⟩ := taken 3 (by decide) (by decide)
  have hplan : plan = [3, 0, 0] := by
    have hrun : calculateUndelegations 3 [⟨5, "a"⟩, ⟨1, "b"⟩, ⟨1, "c"⟩] = .ok [3, 0, 0] := by
      decide +kernel
    exact Except.ok.inj (hok.symm.trans hrun)
  exact ⟨⟨plan, hok, hplan, hspread⟩, refused 8 (by decide)⟩

end BabyLst
