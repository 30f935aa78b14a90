/-
# Leveling values towards targets

Values are moved towards targets that differ by at most one, none past its
target, until they add up to what the targets add up to.  Then no two of them
are further apart than two were before, or than one (`Leveled.spread_le`): a
value that is still short of its target and one that is still above it can not
both be missing, since the sums agree, and the one pays for the other.

Greedy plans are of this kind, whatever their order: `fill` moves each value up
by what it lacks until an amount is used up, and uses up every amount that is
lacking in all (`fill_sum`).
-/

import Mathlib.Algebra.Order.BigOperators.Group.List
import Mathlib.Algebra.Order.Ring.Nat
import Mathlib.Algebra.Order.Group.Nat
import Mathlib.Tactic.Common

namespace BabyLst
namespace Lib

/-- How far the values of a list are apart: the largest less the smallest. -/
def spread (l : List ℕ) : ℕ := l.max?.getD 0 - l.min?.getD 0

/-- Two values of a list are at most its spread apart. -/
theorem le_add_spread {l : List ℕ} {x y : ℕ} (hx : x ∈ l) (hy : y ∈ l) : x ≤ y + spread l := by
  obtain ⟨m, hm⟩ : ∃ m, l.max? = some m :=
    Option.ne_none_iff_exists'.1 fun h => List.ne_nil_of_mem hx (List.max?_eq_none_iff.1 h)
  obtain ⟨n, hn⟩ : ∃ n, l.min? = some n :=
    Option.ne_none_iff_exists'.1 fun h => List.ne_nil_of_mem hx (List.min?_eq_none_iff.1 h)
  have hle : x ≤ m := (List.max?_eq_some_iff.1 hm).2 x hx
  have hge : n ≤ y := (List.min?_eq_some_iff.1 hn).2 y hy
  unfold spread
  rw [hm, hn, Option.getD_some, Option.getD_some]
  omega

/-- A bound on how far two values are apart bounds the spread. -/
theorem spread_le {l : List ℕ} {b : ℕ} (h : ∀ x ∈ l, ∀ y ∈ l, x ≤ y + b) : spread l ≤ b := by
  unfold spread
  cases hm : l.max? with
  | none => simp
  | some m =>
    cases hn : l.min? with
    | none =>
      rw [List.min?_eq_none_iff] at hn
      simp [hn] at hm
    | some n =>
      have hle := h m (List.max?_eq_some_iff.1 hm).1 n (List.min?_eq_some_iff.1 hn).1
      rw [Option.getD_some, Option.getD_some]
      omega

/-- A value, its target, and the value it is moved to. -/
structure Leveled where
  before : ℕ
  target : ℕ
  after : ℕ

namespace Leveled

/-- The value is moved towards its target, and not past it. -/
def Between (e : Leveled) : Prop :=
  min e.before e.target ≤ e.after ∧ e.after ≤ max e.before e.target

/-- Where the sums agree, a value above its target leaves one below. -/
theorem exists_below {l : List Leveled}
    (sums : (l.map Leveled.after).sum = (l.map Leveled.target).sum) {e : Leveled} (he : e ∈ l)
    (above : e.target < e.after) : ∃ e' ∈ l, e'.after < e'.target := by
  by_contra hnone
  push Not at hnone
  have hlt := List.sum_lt_sum (Leveled.target) Leveled.after hnone ⟨e, he, above⟩
  omega

/-- Where the sums agree, a value below its target leaves one above. -/
theorem exists_above {l : List Leveled}
    (sums : (l.map Leveled.after).sum = (l.map Leveled.target).sum) {e : Leveled} (he : e ∈ l)
    (below : e.after < e.target) : ∃ e' ∈ l, e'.target < e'.after := by
  by_contra hnone
  push Not at hnone
  have hlt := List.sum_lt_sum Leveled.after Leveled.target hnone ⟨e, he, below⟩
  omega

/-- **Leveling does not spread the values**, but for the one that the targets
differ by. -/
theorem spread_le {l : List Leveled}
    (sums : (l.map Leveled.after).sum = (l.map Leveled.target).sum)
    (between : ∀ e ∈ l, e.Between)
    (level : ∀ e ∈ l, ∀ e' ∈ l, e.target ≤ e'.target + 1) :
    spread (l.map Leveled.after) ≤ max 1 (spread (l.map Leveled.before)) := by
  refine Lib.spread_le ?_
  have apart : ∀ e ∈ l, ∀ e' ∈ l, e.before ≤ e'.before + spread (l.map Leveled.before) :=
    fun e he e' he' => le_add_spread (List.mem_map_of_mem he) (List.mem_map_of_mem he')
  rintro _ hx _ hy
  obtain ⟨e, he, rfl⟩ := List.mem_map.1 hx
  obtain ⟨e', he', rfl⟩ := List.mem_map.1 hy
  obtain ⟨hlow, hhigh⟩ := between e he
  obtain ⟨hlow', hhigh'⟩ := between e' he'
  have htargets := level e he e' he'
  rcases Nat.lt_or_ge e.target e.after with habove | hreached
  · rcases Nat.lt_or_ge e'.after e'.target with hbelow | hreached'
    · -- both are still apart from their targets, so both are within what they were
      have hwas := apart e he e' he'
      omega
    · obtain ⟨k, hk, hshort⟩ := exists_below sums he habove
      obtain ⟨hlowk, -⟩ := between k hk
      have hwas := apart e he k hk
      have htarget := level k hk e' he'
      omega
  · rcases Nat.lt_or_ge e'.after e'.target with hbelow | hreached'
    · obtain ⟨k, hk, hover⟩ := exists_above sums he' hbelow
      obtain ⟨-, hhighk⟩ := between k hk
      have hwas := apart k hk e' he'
      have htarget := level e he k hk
      omega
    · omega

/-- The entries of three lists of one length. -/
def zip (before target after : List ℕ) : List Leveled :=
  List.zipWith (fun e a => ⟨e.1, e.2, a⟩) (before.zip target) after

theorem map_zip {before target after : List ℕ} (ht : target.length = before.length)
    (ha : after.length = before.length) :
    (zip before target after).map Leveled.before = before ∧
      (zip before target after).map Leveled.target = target ∧
      (zip before target after).map Leveled.after = after := by
  induction before generalizing target after with
  | nil =>
    obtain rfl := List.length_eq_zero_iff.1 ht
    obtain rfl := List.length_eq_zero_iff.1 ha
    exact ⟨rfl, rfl, rfl⟩
  | cons b before ih =>
    obtain ⟨t, target, rfl⟩ := List.exists_cons_of_length_eq_add_one ht
    obtain ⟨a, after, rfl⟩ := List.exists_cons_of_length_eq_add_one ha
    obtain ⟨hb, ht, ha⟩ := ih (Nat.succ_injective ht) (Nat.succ_injective ha)
    exact ⟨congrArg (b :: ·) hb, congrArg (t :: ·) ht, congrArg (a :: ·) ha⟩

/-- The entries are between what they were and their targets if the lists are so
entry by entry. -/
theorem between_zip {before target after : List ℕ}
    (low : List.Forall₂ (· ≤ ·) (List.zipWith min before target) after)
    (high : List.Forall₂ (· ≤ ·) after (List.zipWith max before target)) :
    ∀ e ∈ zip before target after, e.Between := by
  induction before generalizing target after with
  | nil => simp [zip]
  | cons b before ih =>
    cases target with
    | nil => simp [zip]
    | cons t target =>
      cases low with
      | cons hle low =>
        cases high with
        | cons hge high =>
          rintro e (_ | ⟨_, he⟩)
          · exact ⟨hle, hge⟩
          · exact ih low high e he

end Leveled

/-- **Lists that level out do not spread**: every entry is moved towards its
target and not past it, the sums agree, and the targets are even. -/
theorem spread_leveled {before target after : List ℕ}
    (low : List.Forall₂ (· ≤ ·) (List.zipWith min before target) after)
    (high : List.Forall₂ (· ≤ ·) after (List.zipWith max before target))
    (hlen : target.length = before.length) (sums : after.sum = target.sum)
    (level : ∀ t ∈ target, ∀ t' ∈ target, t ≤ t' + 1) :
    spread after ≤ max 1 (spread before) := by
  have ha : after.length = before.length := by
    rw [← low.length_eq, List.length_zipWith, hlen, Nat.min_self]
  obtain ⟨hb, ht, ha⟩ := Leveled.map_zip hlen ha
  have htarget : ∀ e ∈ Leveled.zip before target after, e.target ∈ target := fun e he => by
    rw [← ht]
    exact List.mem_map_of_mem he
  have hspread := Leveled.spread_le (l := Leveled.zip before target after)
  rw [hb, ht, ha] at hspread
  exact hspread sums (Leveled.between_zip low high)
    fun e he e' he' => level _ (htarget e he) _ (htarget e' he')

/-! ### Even targets -/

/-- The targets of an even split: the quotient, and one more for the first
entries, as many as the remainder. -/
def evenTargets (quotient remainder n : ℕ) : List ℕ :=
  (List.range n).map fun i => quotient + if i + 1 ≤ remainder then 1 else 0

theorem sum_evenTargets (quotient remainder n : ℕ) :
    (evenTargets quotient remainder n).sum = n * quotient + min n remainder := by
  unfold evenTargets
  induction n with
  | zero => simp
  | succ n ih =>
    rw [List.range_succ, List.map_append, List.sum_append, ih, List.map_singleton,
      List.sum_singleton, Nat.succ_mul]
    split_ifs with h
    · omega
    · omega

/-- **An even split is one of the whole.** -/
theorem sum_evenTargets_div (total : ℕ) {n : ℕ} (hn : 0 < n) :
    (evenTargets (total / n) (total % n) n).sum = total := by
  have hlt := Nat.mod_lt total hn
  rw [sum_evenTargets, Nat.min_eq_right hlt.le]
  exact Nat.div_add_mod total n

theorem mem_evenTargets {quotient remainder n t : ℕ} (h : t ∈ evenTargets quotient remainder n) :
    quotient ≤ t ∧ t ≤ quotient + 1 := by
  obtain ⟨i, -, rfl⟩ := List.mem_map.1 h
  split_ifs
  · omega
  · omega

/-! ### Greedy plans -/

/-- A greedy plan: each entry takes what it lacks, until the amount is used up. -/
def fill : ℕ → List ℕ → List ℕ
  | _, [] => []
  | amount, lack :: rest => min lack amount :: fill (amount - min lack amount) rest

/-- **A greedy plan uses up the amount**, if so much is lacking. -/
theorem fill_sum {amount : ℕ} {lacks : List ℕ} (h : amount ≤ lacks.sum) :
    (fill amount lacks).sum = amount := by
  induction lacks generalizing amount with
  | nil =>
    rw [List.sum_nil] at h
    simp only [fill, List.sum_nil]
    omega
  | cons lack rest ih =>
    rw [List.sum_cons] at h
    have hrest : amount - min lack amount ≤ rest.sum := by omega
    rw [fill, List.sum_cons, ih hrest]
    omega

/-- No entry takes more than it lacks. -/
theorem fill_le (amount : ℕ) (lacks : List ℕ) : List.Forall₂ (· ≤ ·) (fill amount lacks) lacks := by
  induction lacks generalizing amount with
  | nil => exact .nil
  | cons lack rest ih => exact .cons (Nat.min_le_left _ _) (ih _)

/-- Nothing is left to take once the amount is used up. -/
theorem fill_zero (lacks : List ℕ) : fill 0 lacks = lacks.map fun _ => 0 := by
  induction lacks with
  | nil => rfl
  | cons lack rest ih => simp [fill, ih]

/-- **Who is reached by a greedy plan**: an entry takes something exactly when it
lacks something and those before it do not use up the amount. -/
theorem fill_pos_iff (amount : ℕ) (lacks : List ℕ) (i : ℕ) :
    0 < (fill amount lacks).getD i 0 ↔ 0 < lacks.getD i 0 ∧ (lacks.take i).sum < amount := by
  induction lacks generalizing amount i with
  | nil => simp [fill]
  | cons lack rest ih =>
    cases i with
    | zero =>
      simp only [fill, List.getD_cons_zero, List.take_zero, List.sum_nil]
      omega
    | succ i =>
      rw [fill, List.getD_cons_succ, List.getD_cons_succ, List.take_succ_cons, List.sum_cons, ih]
      constructor
      · rintro ⟨hlack, hlt⟩
        exact ⟨hlack, by omega⟩
      · rintro ⟨hlack, hlt⟩
        exact ⟨hlack, by omega⟩

/-- What a greedy plan for `amount` has left for the `i`-th entry. -/
def share (amount : ℕ) (lacks : List ℕ) (i : ℕ) : ℕ :=
  min (lacks.getD i 0) (amount - (lacks.take i).sum)

/-- **The entries of a greedy plan.** -/
theorem getD_fill (amount : ℕ) (lacks : List ℕ) (i : ℕ) :
    (fill amount lacks).getD i 0 = share amount lacks i := by
  unfold share
  induction lacks generalizing amount i with
  | nil => simp [fill]
  | cons lack rest ih =>
    cases i with
    | zero => simp [fill]
    | succ i =>
      rw [fill, List.getD_cons_succ, List.getD_cons_succ, List.take_succ_cons, List.sum_cons, ih]
      omega

section Plans

variable {before target plan : List ℕ} {amount : ℕ}

/-- What a list exceeds another by makes up for the difference of their sums. -/
theorem sum_le_sum_add_excess (hlen : target.length = before.length) :
    before.sum ≤ target.sum + (List.zipWith (· - ·) before target).sum := by
  induction before generalizing target with
  | nil => simp
  | cons b before ih =>
    obtain ⟨t, target, rfl⟩ := List.exists_cons_of_length_eq_add_one hlen
    have hle := ih (Nat.succ_injective hlen)
    simp only [List.zipWith_cons_cons, List.sum_cons]
    omega

theorem sum_raised (hlen : plan.length = before.length) :
    (List.zipWith (· + ·) before plan).sum = before.sum + plan.sum := by
  induction before generalizing plan with
  | nil =>
    obtain rfl := List.length_eq_zero_iff.1 hlen
    rfl
  | cons b before ih =>
    obtain ⟨x, plan, rfl⟩ := List.exists_cons_of_length_eq_add_one hlen
    have hsum := ih (Nat.succ_injective hlen)
    simp only [List.zipWith_cons_cons, List.sum_cons, hsum]
    omega

theorem sum_lowered (h : List.Forall₂ (· ≤ ·) plan before) :
    (List.zipWith (· - ·) before plan).sum + plan.sum = before.sum := by
  induction h with
  | nil => rfl
  | cons hle h ih =>
    simp only [List.zipWith_cons_cons, List.sum_cons]
    omega

/-- **Raising by what is lacking levels out**: no value is raised past its
target, and the values do not spread. -/
theorem raised_leveled (hlen : target.length = before.length)
    (hplan : List.Forall₂ (· ≤ ·) plan (List.zipWith (fun b t => t - b) before target))
    (sums : before.sum + plan.sum = target.sum)
    (level : ∀ t ∈ target, ∀ t' ∈ target, t ≤ t' + 1) :
    List.Forall₂ (· ≤ ·) (List.zipWith (· + ·) before plan) (List.zipWith max before target) ∧
      spread (List.zipWith (· + ·) before plan) ≤ max 1 (spread before) := by
  obtain ⟨hplen, hlacks⟩ := List.forall₂_iff_get.1 hplan
  rw [List.length_zipWith, hlen, Nat.min_self] at hplen
  have high : List.Forall₂ (· ≤ ·) (List.zipWith (· + ·) before plan)
      (List.zipWith max before target) := by
    refine List.forall₂_iff_get.2 ⟨by simp [hlen, hplen], fun i h₁ h₂ => ?_⟩
    have hle := hlacks i (by simp at h₁; omega) (by simpa using h₂)
    simp only [List.get_eq_getElem, List.getElem_zipWith] at hle ⊢
    omega
  have low : List.Forall₂ (· ≤ ·) (List.zipWith min before target)
      (List.zipWith (· + ·) before plan) := by
    refine List.forall₂_iff_get.2 ⟨by simp [hlen, hplen], fun i h₁ h₂ => ?_⟩
    simp only [List.get_eq_getElem, List.getElem_zipWith]
    omega
  exact ⟨high, spread_leveled low high hlen ((sum_raised hplen).trans sums) level⟩

/-- **Lowering by what is in excess levels out**: no value is lowered past its
target, and the values do not spread. -/
theorem lowered_leveled (hlen : target.length = before.length)
    (hplan : List.Forall₂ (· ≤ ·) plan (List.zipWith (· - ·) before target))
    (sums : target.sum + plan.sum = before.sum)
    (level : ∀ t ∈ target, ∀ t' ∈ target, t ≤ t' + 1) :
    List.Forall₂ (· ≤ ·) plan before ∧
      List.Forall₂ (· ≤ ·) (List.zipWith min before target) (List.zipWith (· - ·) before plan) ∧
      spread (List.zipWith (· - ·) before plan) ≤ max 1 (spread before) := by
  obtain ⟨hplen, hexcess⟩ := List.forall₂_iff_get.1 hplan
  rw [List.length_zipWith, hlen, Nat.min_self] at hplen
  have hle : List.Forall₂ (· ≤ ·) plan before := by
    refine List.forall₂_iff_get.2 ⟨hplen, fun i h₁ h₂ => ?_⟩
    have hle := hexcess i h₁ (by simp [hlen]; omega)
    simp only [List.get_eq_getElem, List.getElem_zipWith] at hle ⊢
    omega
  have low : List.Forall₂ (· ≤ ·) (List.zipWith min before target)
      (List.zipWith (· - ·) before plan) := by
    refine List.forall₂_iff_get.2 ⟨by simp [hlen, hplen], fun i h₁ h₂ => ?_⟩
    have hle := hexcess i (by simp at h₂; omega) (by simpa using h₁)
    simp only [List.get_eq_getElem, List.getElem_zipWith] at hle ⊢
    omega
  have high : List.Forall₂ (· ≤ ·) (List.zipWith (· - ·) before plan)
      (List.zipWith max before target) := by
    refine List.forall₂_iff_get.2 ⟨by simp [hlen, hplen], fun i h₁ h₂ => ?_⟩
    simp only [List.get_eq_getElem, List.getElem_zipWith]
    omega
  have hsum := sum_lowered hle
  exact ⟨hle, low, spread_leveled low high hlen (by omega) level⟩

end Plans

end Lib
end BabyLst
