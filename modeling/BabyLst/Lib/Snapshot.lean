/-
# Plans made for one snapshot

Several amounts are to be spread over the same values.  If each is planned for
the values as they are at first, and all plans are carried out, every single plan
levels the values but their sum may not: each of them favours the lowest value.

The values are listed in ascending order, and each plan is the greedy one towards
an even split of the values' sum and its amount (`evenLacks`).  Then no value ends
above the first unless it was there already (`raisedTo_le`), so the first value is
the only one that can get too far ahead, and whether the values stay together is
settled by comparing it with each of the others (`spread_raised_le_iff`).
-/

import BabyLst.Lib.Leveling
import Mathlib.Data.List.GetD

namespace BabyLst
namespace Lib

/-- What the values lack of an even split of their sum and `amount`. -/
def evenLacks (before : List ℕ) (amount : ℕ) : List ℕ :=
  List.zipWith (fun b t => t - b) before
    (evenTargets ((before.sum + amount) / before.length) ((before.sum + amount) % before.length)
      before.length)

/-- The `i`-th value once it has its share of every amount. -/
def raisedTo (before amounts : List ℕ) (i : ℕ) : ℕ :=
  before.getD i 0 + (amounts.map fun a => share a (evenLacks before a) i).sum

variable {before amounts after : List ℕ} {amount i : ℕ}

theorem getD_evenLacks (before : List ℕ) (amount : ℕ) (hi : i < before.length) :
    (evenLacks before amount).getD i 0 =
      ((before.sum + amount) / before.length +
        if i + 1 ≤ (before.sum + amount) % before.length then 1 else 0) - before.getD i 0 := by
  have hlen : i < (evenLacks before amount).length := by
    simp [evenLacks, evenTargets, hi]
  rw [List.getD_eq_getElem _ _ hlen, List.getD_eq_getElem _ _ hi]
  simp [evenLacks, evenTargets]

/-- Who lacks something lacks less than the first, by what it is ahead. -/
theorem evenLacks_le_first (hi : i < before.length)
    (lacking : 0 < (evenLacks before amount).getD i 0) :
    before.getD i 0 + (evenLacks before amount).getD i 0 ≤
      before.getD 0 0 + (evenLacks before amount).getD 0 0 := by
  rw [getD_evenLacks before amount hi] at lacking ⊢
  rw [getD_evenLacks before amount (Nat.zero_lt_of_lt hi)]
  split_ifs at lacking ⊢
  · omega
  · omega
  · omega
  · omega

/-- **A plan that reaches a value has filled the first one**, so it moves the first
at least as far. -/
theorem share_le_first (hi : i < before.length)
    (reached : 0 < share amount (evenLacks before amount) i) :
    before.getD i 0 + share amount (evenLacks before amount) i ≤
      before.getD 0 0 + share amount (evenLacks before amount) 0 := by
  unfold share at reached ⊢
  have hlacks : before.getD i 0 + (evenLacks before amount).getD i 0 ≤
      before.getD 0 0 + (evenLacks before amount).getD 0 0 := evenLacks_le_first hi (by omega)
  rw [List.take_zero, List.sum_nil, Nat.sub_zero]
  rcases Nat.eq_zero_or_pos i with rfl | hpos
  · rw [List.take_zero, List.sum_nil, Nat.sub_zero]
  · have hfirst : (evenLacks before amount).getD 0 0 ≤ ((evenLacks before amount).take i).sum := by
      cases hl : evenLacks before amount with
      | nil => simp
      | cons lack rest =>
        obtain ⟨k, rfl⟩ := Nat.exists_eq_add_one_of_ne_zero (Nat.ne_of_gt hpos)
        simp
    omega

/-- **No value ends above the first** unless it was there already. -/
theorem raisedTo_le (hi : i < before.length) (hle : before.getD 0 0 ≤ before.getD i 0)
    (amounts : List ℕ) :
    raisedTo before amounts i = before.getD i 0 ∨
      raisedTo before amounts i ≤ raisedTo before amounts 0 := by
  unfold raisedTo
  induction amounts with
  | nil => exact .inl rfl
  | cons a rest ih =>
    simp only [List.map_cons, List.sum_cons]
    have hshare : share a (evenLacks before a) i = 0 ∨
        before.getD i 0 + share a (evenLacks before a) i ≤
          before.getD 0 0 + share a (evenLacks before a) 0 := by
      rcases Nat.eq_zero_or_pos (share a (evenLacks before a) i) with hzero | hpos
      · exact .inl hzero
      · exact .inr (share_le_first hi hpos)
    rcases ih with hsame | hbelow
    · rcases hshare with hzero | hfirst
      · exact .inl (by omega)
      · exact .inr (by omega)
    · rcases hshare with hzero | hfirst
      · exact .inr (by omega)
      · exact .inr (by omega)

/-- The first of ascending values is the lowest. -/
theorem sorted_first (sorted : before.Pairwise (· ≤ ·)) (hi : i < before.length) :
    before.getD 0 0 ≤ before.getD i 0 := by
  rw [List.getD_eq_getElem _ _ hi, List.getD_eq_getElem _ _ (Nat.zero_lt_of_lt hi)]
  rcases Nat.eq_zero_or_pos i with rfl | hpos
  · exact le_rfl
  · exact List.pairwise_iff_getElem.1 sorted 0 i _ hi hpos

/-- **Whether the values stay together is up to the first**: they do just when the
first, with its shares, is not too far above any other with its own. -/
theorem spread_raised_le_iff {bound : ℕ} (sorted : before.Pairwise (· ≤ ·))
    (length_eq : after.length = before.length)
    (raised : ∀ i < before.length, after.getD i 0 = raisedTo before amounts i)
    (le_bound : spread before ≤ bound) :
    spread after ≤ bound ↔
      ∀ i < before.length, raisedTo before amounts 0 ≤ raisedTo before amounts i + bound := by
  have hmem : ∀ i < before.length, raisedTo before amounts i ∈ after := fun i hi => by
    rw [← raised i hi, List.getD_eq_getElem _ _ (length_eq ▸ hi)]
    exact List.getElem_mem _
  constructor
  · intro hspread i hi
    exact (le_add_spread (hmem 0 (Nat.zero_lt_of_lt hi)) (hmem i hi)).trans
      (Nat.add_le_add_left hspread _)
  · intro hfirst
    refine spread_le fun x hx y hy => ?_
    obtain ⟨i, hi, rfl⟩ := List.getElem_of_mem hx
    obtain ⟨k, hk, rfl⟩ := List.getElem_of_mem hy
    rw [← List.getD_eq_getElem _ 0 hi, ← List.getD_eq_getElem _ 0 hk]
    rw [length_eq] at hi hk
    rw [raised i hi, raised k hk]
    rcases raisedTo_le hi (sorted_first sorted hi) amounts with hsame | hbelow
    · -- a value that no plan reaches is as far from the others as before
      have hwas : before.getD i 0 ≤ before.getD k 0 + spread before := by
        rw [List.getD_eq_getElem _ _ hi, List.getD_eq_getElem _ _ hk]
        exact le_add_spread (List.getElem_mem _) (List.getElem_mem _)
      have hraised : before.getD k 0 ≤ raisedTo before amounts k := Nat.le_add_right _ _
      omega
    · exact hbelow.trans (hfirst k hk)

/-! ### One plan -/

/-- **One plan levels the values.** -/
theorem spread_raised_one (hne : before ≠ []) (amount : ℕ) :
    spread (List.zipWith (· + ·) before (fill amount (evenLacks before amount))) ≤
      max 1 (spread before) := by
  set target := evenTargets ((before.sum + amount) / before.length)
    ((before.sum + amount) % before.length) before.length with htarget
  have hsum : target.sum = before.sum + amount :=
    sum_evenTargets_div _ (List.length_pos_of_ne_nil hne)
  have hlen : before.length = target.length := by simp [htarget, evenTargets]
  have henough : amount ≤ (evenLacks before amount).sum := by
    have hle := sum_le_sum_add_excess hlen
    rw [hsum, List.zipWith_comm] at hle
    exact Nat.le_of_add_le_add_left hle
  refine (raised_leveled hlen.symm (fill_le amount _) ?_ fun t ht t' ht' => ?_).2
  · show before.sum + (fill amount (evenLacks before amount)).sum = _
    rw [fill_sum henough, hsum]
  · have hhigh := (mem_evenTargets ht).2
    have hlow := (mem_evenTargets ht').1
    omega

/-- Amounts of nothing raise nobody. -/
theorem raisedTo_filter (before amounts : List ℕ) (i : ℕ) :
    raisedTo before (amounts.filter fun a => a ≠ 0) i = raisedTo before amounts i := by
  unfold raisedTo
  induction amounts with
  | nil => rfl
  | cons a rest ih =>
    by_cases ha : a = 0
    · rw [List.filter_cons_of_neg (by simpa using ha), ih, ha]
      simp [share]
    · rw [List.filter_cons_of_pos (by simpa using ha), List.map_cons, List.map_cons, List.sum_cons,
        List.sum_cons]
      omega

/-- **One amount does not drive the first value too far ahead.** -/
theorem raisedTo_one (sorted : before.Pairwise (· ≤ ·)) (one : amounts.filter (· ≠ 0) = [amount]) :
    ∀ i < before.length,
      raisedTo before amounts 0 ≤ raisedTo before amounts i + max 1 (spread before) := by
  intro i hi
  have hne : before ≠ [] := List.ne_nil_of_length_pos (Nat.zero_lt_of_lt hi)
  have hlen : (fill amount (evenLacks before amount)).length = before.length := by
    rw [(fill_le amount _).length_eq]
    simp [evenLacks, evenTargets]
  have hraised : ∀ i < before.length,
      (List.zipWith (· + ·) before (fill amount (evenLacks before amount))).getD i 0 =
        raisedTo before [amount] i := by
    intro i hi
    rw [List.getD_eq_getElem _ _ (by simpa [hlen] using hi), List.getElem_zipWith, raisedTo,
      List.map_singleton, List.sum_singleton, ← getD_fill, List.getD_eq_getElem _ _ hi,
      List.getD_eq_getElem _ _ (hlen ▸ hi)]
  rw [← raisedTo_filter, ← raisedTo_filter before amounts i, one]
  exact (spread_raised_le_iff sorted (by simp [hlen]) hraised (Nat.le_max_right _ _)).1
    (spread_raised_one hne amount) i hi

end Lib
end BabyLst
