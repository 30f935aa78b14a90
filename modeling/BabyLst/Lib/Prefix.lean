/-
# The longest prefix a budget can pay for

Items are numbered from one after `last` on; each has a cost, and may or may not
be `ready`.  A prefix of them is affordable when all of it is ready and its cost
is within the budget (`Affordable`).  Shorter prefixes of an affordable one are
affordable, so whoever takes items in order and stops at the first one that is
not ready or too dear has taken the longest affordable prefix
(`isGreatest_affordable`).
-/

import Mathlib.Algebra.BigOperators.Intervals
import Mathlib.Algebra.Order.BigOperators.Group.Finset
import Mathlib.Order.Bounds.Defs

namespace BabyLst
namespace Lib

open Finset

/-- **The items `last + 1, …, k` are ready, and within the budget.** -/
structure Affordable (ready : ℕ → Prop) (cost : ℕ → ℕ) (last budget k : ℕ) : Prop where
  from_last : last ≤ k
  ready : ∀ b ∈ Ioc last k, ready b
  within : ∑ b ∈ Ioc last k, cost b ≤ budget

variable {ready : ℕ → Prop} {cost : ℕ → ℕ} {last budget j k : ℕ}

/-- A prefix of an affordable prefix is affordable. -/
theorem Affordable.mono (h : Affordable ready cost last budget k) (hlast : last ≤ j) (hle : j ≤ k) :
    Affordable ready cost last budget j := by
  have hsub : Ioc last j ⊆ Ioc last k := Ioc_subset_Ioc_right hle
  exact ⟨hlast, fun b hb => h.ready b (hsub hb),
    (sum_le_sum_of_subset hsub).trans h.within⟩

/-- **Stopping at the first item that cannot be taken** gives the longest
affordable prefix. -/
theorem isGreatest_affordable (taken : Affordable ready cost last budget k)
    (stopped : ready (k + 1) → budget < ∑ b ∈ Ioc last k, cost b + cost (k + 1)) :
    IsGreatest {k | Affordable ready cost last budget k} k := by
  refine ⟨taken, fun j hj => Nat.le_of_not_lt fun hlt => ?_⟩
  have hnext : Affordable ready cost last budget (k + 1) :=
    Affordable.mono hj (taken.from_last.trans (Nat.le_succ k)) hlt
  have hmem : k + 1 ∈ Ioc last (k + 1) :=
    mem_Ioc.2 ⟨Nat.lt_succ_of_le taken.from_last, le_rfl⟩
  have hwithin := hnext.within
  rw [sum_Ioc_succ_top taken.from_last] at hwithin
  have hdear := stopped (hnext.ready _ hmem)
  omega

/-- The cost of a run of items, listed. -/
theorem sum_Ioc_eq_sum_range' (cost : ℕ → ℕ) (last n : ℕ) :
    ∑ b ∈ Ioc last (last + n), cost b = ((List.range' (last + 1) n).map cost).sum := by
  induction n with
  | zero => simp
  | succ n ih =>
    rw [← Nat.add_assoc, sum_Ioc_succ_top (Nat.le_add_right last n), ih, List.range'_concat,
      List.map_append, List.sum_append, List.map_singleton, List.sum_singleton, Nat.one_mul,
      Nat.add_right_comm]

end Lib
end BabyLst
