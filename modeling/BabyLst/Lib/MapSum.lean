/-
# Sums over the entries of an ordered map

`total f m` adds `f k v` over the entries of an `ExtTreeMap`.  Inserting or
erasing one key changes the sum by the terms of that key alone
(`total_insert`, `total_erase_add`); a sum that is split, bounded or divided
term by term is split, bounded or divided as a whole.  These are the facts a
ledger kept in a map is accounted with.
-/

import Std.Data.ExtTreeMap
import Mathlib.Algebra.BigOperators.Group.List.Lemmas
import Mathlib.Algebra.BigOperators.Ring.List
import Mathlib.Algebra.Order.BigOperators.Group.List
import Mathlib.Algebra.Order.Ring.Nat
import Mathlib.Algebra.Order.Group.Nat
import Mathlib.Tactic.Common

namespace BabyLst
namespace Lib

open Std

variable {K V : Type*} {cmp : K → K → Ordering}

/-- The order of pairs by the first component and then the second: that of a map
with a composite key. -/
abbrev pairCmp {X Y : Type*} [Ord X] [Ord Y] : X × Y → X × Y → Ordering :=
  compareLex (compareOn Prod.fst) (compareOn Prod.snd)

instance {X Y : Type*} [Ord X] [Ord Y] [LawfulEqOrd X] [LawfulEqOrd Y] :
    LawfulEqCmp (pairCmp (X := X) (Y := Y)) where
  compare_self {a} := by simp [compareLex, compareOn]
  eq_of_compare {a b} h := by
    simp only [compareLex, compareOn, Ordering.then_eq_eq] at h
    exact Prod.ext (LawfulEqCmp.eq_of_compare h.1) (LawfulEqCmp.eq_of_compare h.2)

/-- The sum of `f` over the entries of `m`. -/
def total [TransCmp cmp] (f : K → V → ℕ) (m : ExtTreeMap K V cmp) : ℕ :=
  (m.toList.map fun e => f e.1 e.2).sum

variable [TransCmp cmp] [LawfulEqCmp cmp]

omit [LawfulEqCmp cmp] in
theorem cmp_self (k : K) : cmp k k = .eq := ReflCmp.compare_self

theorem cmp_eq_iff {a b : K} : cmp a b = .eq ↔ a = b :=
  ⟨LawfulEqCmp.eq_of_compare, fun h => h ▸ cmp_self a⟩

/-- Reading after a write. -/
theorem getElem?_insert_eq [DecidableEq K] (m : ExtTreeMap K V cmp) (k k' : K) (v : V) :
    (m.insert k v)[k']? = if k = k' then some v else m[k']? := by
  rw [ExtTreeMap.getElem?_insert]
  simp only [cmp_eq_iff]

/-- Reading after an erasure. -/
theorem getElem?_erase_eq [DecidableEq K] (m : ExtTreeMap K V cmp) (k k' : K) :
    (m.erase k)[k']? = if k = k' then none else m[k']? := by
  rw [ExtTreeMap.getElem?_erase]
  simp only [cmp_eq_iff]

/-- **All entries after a write**: what holds of the one written and of the ones
there before holds of all. -/
theorem forall_getElem?_insert {m : ExtTreeMap K V cmp} {k : K} {v : V} {P : K → V → Prop}
    (new : P k v) (old : ∀ k' v', m[k']? = some v' → P k' v') (k' : K) (v' : V)
    (h : (m.insert k v)[k']? = some v') : P k' v' := by
  rw [ExtTreeMap.getElem?_insert] at h
  split_ifs at h with heq
  · obtain rfl := cmp_eq_iff.1 heq
    exact Option.some.inj h ▸ new
  · exact old k' v' h

omit [LawfulEqCmp cmp] in
/-- All entries after an erasure. -/
theorem forall_getElem?_erase {m : ExtTreeMap K V cmp} {k : K} {P : K → V → Prop}
    (old : ∀ k' v', m[k']? = some v' → P k' v') (k' : K) (v' : V)
    (h : (m.erase k)[k']? = some v') : P k' v' := by
  rw [ExtTreeMap.getElem?_erase] at h
  split_ifs at h
  exact old k' v' h

omit [LawfulEqCmp cmp] in
/-- The entries of a map are pairwise different. -/
theorem nodup_toList (m : ExtTreeMap K V cmp) : m.toList.Nodup := by
  refine m.distinct_keys_toList.imp fun {a b} h hab => h ?_
  rw [hab]
  exact cmp_self _

/-- **The entries of some keys**, in order, are determined by what the map holds
at these keys. -/
theorem filter_toList_congr {m m' : ExtTreeMap K V cmp} {p : K × V → Bool}
    (h : ∀ k v, p (k, v) = true → (m[k]? = some v ↔ m'[k]? = some v)) :
    m.toList.filter p = m'.toList.filter p := by
  have hperm : (m.toList.filter p).Perm (m'.toList.filter p) := by
    rw [List.perm_ext_iff_of_nodup ((nodup_toList m).filter _) ((nodup_toList m').filter _)]
    rintro ⟨k, v⟩
    rw [List.mem_filter, List.mem_filter, ExtTreeMap.mem_toList_iff_getElem?_eq_some,
      ExtTreeMap.mem_toList_iff_getElem?_eq_some]
    exact and_congr_left fun hp => h k v hp
  have hanti : ∀ a b : K × V, cmp a.1 b.1 = .lt → cmp b.1 a.1 = .lt → a = b := by
    intro a b hab hba
    have hswap : cmp a.1 b.1 = (cmp b.1 a.1).swap := OrientedCmp.eq_swap
    rw [hab, hba] at hswap
    cases hswap
  exact hperm.eq_of_pairwise (fun a b _ _ => hanti a b) (m.ordered_keys_toList.filter _)
    (m'.ordered_keys_toList.filter _)

/-- **Taking one entry out.**  The entries of a map are those of the map
without `k`, and the one at `k`. -/
theorem toList_perm_erase {m : ExtTreeMap K V cmp} {k : K} {v : V} (h : m[k]? = some v) :
    m.toList.Perm ((k, v) :: (m.erase k).toList) := by
  have hnot : (k, v) ∉ (m.erase k).toList := by
    rw [ExtTreeMap.mem_toList_iff_getElem?_eq_some, ExtTreeMap.getElem?_erase, if_pos (cmp_self k)]
    simp
  rw [List.perm_ext_iff_of_nodup (nodup_toList m) (List.nodup_cons.2 ⟨hnot, nodup_toList _⟩)]
  rintro ⟨k', v'⟩
  rw [List.mem_cons, ExtTreeMap.mem_toList_iff_getElem?_eq_some,
    ExtTreeMap.mem_toList_iff_getElem?_eq_some, ExtTreeMap.getElem?_erase]
  by_cases hk : cmp k k' = .eq
  · obtain rfl := cmp_eq_iff.1 hk
    simp [h, eq_comm]
  · have hne : k' ≠ k := fun e => hk (cmp_eq_iff.2 e.symm)
    simp [hk, hne]

theorem erase_eq_of_none {m : ExtTreeMap K V cmp} {k : K} (h : m[k]? = none) : m.erase k = m := by
  refine ExtTreeMap.ext_getElem? fun k' => ?_
  rw [ExtTreeMap.getElem?_erase]
  split_ifs with hk
  · rw [← cmp_eq_iff.1 hk, h]
  · rfl

theorem erase_insert_self (m : ExtTreeMap K V cmp) (k : K) (v : V) :
    (m.insert k v).erase k = m.erase k := by
  refine ExtTreeMap.ext_getElem? fun k' => ?_
  rw [ExtTreeMap.getElem?_erase, ExtTreeMap.getElem?_erase, ExtTreeMap.getElem?_insert]
  split_ifs <;> rfl

omit [LawfulEqCmp cmp] in
@[simp] theorem total_empty (f : K → V → ℕ) : total f (∅ : ExtTreeMap K V cmp) = 0 := by
  unfold total
  rw [ExtTreeMap.toList_eq_nil_iff.2 rfl]
  rfl

/-- Erasing a key takes its term out of the sum. -/
theorem total_erase_add (f : K → V → ℕ) {m : ExtTreeMap K V cmp} {k : K} {v : V}
    (h : m[k]? = some v) : total f (m.erase k) + f k v = total f m := by
  unfold total
  rw [((toList_perm_erase h).map _).sum_eq, List.map_cons, List.sum_cons, Nat.add_comm]

/-- Writing a key puts its new term in the place of the old one. -/
theorem total_insert (f : K → V → ℕ) (m : ExtTreeMap K V cmp) (k : K) (v : V) :
    total f (m.insert k v) = total f (m.erase k) + f k v := by
  have hk : (m.insert k v)[k]? = some v := by
    rw [ExtTreeMap.getElem?_insert, if_pos (cmp_self k)]
  rw [← total_erase_add f hk, erase_insert_self]

/-- Writing a key over its old value. -/
theorem total_insert_of_some (f : K → V → ℕ) {m : ExtTreeMap K V cmp} {k : K} {v w : V}
    (h : m[k]? = some w) : total f (m.insert k v) + f k w = total f m + f k v := by
  rw [total_insert, ← total_erase_add f h]
  omega

/-- Writing a new key. -/
theorem total_insert_of_none (f : K → V → ℕ) {m : ExtTreeMap K V cmp} {k : K} {v : V}
    (h : m[k]? = none) : total f (m.insert k v) = total f m + f k v := by
  rw [total_insert, erase_eq_of_none h]

/-- Erasing a key, present or not, takes at most its term out of the sum. -/
theorem total_erase_le (f : K → V → ℕ) (m : ExtTreeMap K V cmp) (k : K) :
    total f (m.erase k) ≤ total f m := by
  cases hk : m[k]? with
  | none => rw [erase_eq_of_none hk]
  | some v =>
    rw [← total_erase_add f hk]
    omega

/-- Erasing a key whose term is zero leaves the sum as it is. -/
theorem total_erase_of_zero {f : K → V → ℕ} {m : ExtTreeMap K V cmp} {k : K}
    (h : ∀ v, f k v = 0) : total f (m.erase k) = total f m := by
  cases hk : m[k]? with
  | none => rw [erase_eq_of_none hk]
  | some v => rw [← total_erase_add f hk, h v, Nat.add_zero]

/-- Every term is at most the sum. -/
theorem le_total (f : K → V → ℕ) {m : ExtTreeMap K V cmp} {k : K} {v : V} (h : m[k]? = some v) :
    f k v ≤ total f m := by
  rw [← total_erase_add f h]
  omega

/-- **Comparing two sums term by term.** -/
theorem total_le_total {f g : K → V → ℕ} {m : ExtTreeMap K V cmp}
    (h : ∀ k v, m[k]? = some v → f k v ≤ g k v) : total f m ≤ total g m := by
  refine List.sum_le_sum fun e he => h e.1 e.2 ?_
  exact ExtTreeMap.mem_toList_iff_getElem?_eq_some.1 he

/-- Two sums with the same terms are the same. -/
theorem total_congr {f g : K → V → ℕ} {m : ExtTreeMap K V cmp}
    (h : ∀ k v, m[k]? = some v → f k v = g k v) : total f m = total g m :=
  Nat.le_antisymm (total_le_total fun k v hk => (h k v hk).le)
    (total_le_total fun k v hk => (h k v hk).ge)

omit [LawfulEqCmp cmp] in
/-- A sum of sums. -/
theorem total_add (f g : K → V → ℕ) (m : ExtTreeMap K V cmp) :
    total (fun k v => f k v + g k v) m = total f m + total g m := by
  unfold total
  exact List.sum_map_add

/-- A sum of zeros. -/
theorem total_eq_zero {f : K → V → ℕ} {m : ExtTreeMap K V cmp}
    (h : ∀ k v, m[k]? = some v → f k v = 0) : total f m = 0 := by
  rw [total_congr h]
  unfold total
  simp

/-- **Some entries of the map**: their terms add up to at most the whole sum, and
to all of it if the other terms are zero. -/
theorem sum_le_total (f : K → V → ℕ) (l : List (K × V)) :
    ∀ {m : ExtTreeMap K V cmp}, (l.map Prod.fst).Nodup → (∀ e ∈ l, m[e.1]? = some e.2) →
      (l.map fun e => f e.1 e.2).sum ≤ total f m ∧
      ((∀ k v, m[k]? = some v → k ∉ l.map Prod.fst → f k v = 0) →
        (l.map fun e => f e.1 e.2).sum = total f m) := by
  classical
  induction l with
  | nil =>
    intro m _ _
    refine ⟨Nat.zero_le _, fun hzero => (total_eq_zero fun k v hk => ?_).symm⟩
    exact hzero k v hk (by simp)
  | cons e l ih =>
    intro m hnodup hmem
    rw [List.map_cons, List.nodup_cons] at hnodup
    have hrest : ∀ e' ∈ l, (m.erase e.1)[e'.1]? = some e'.2 := by
      intro e' he'
      have hne : e.1 ≠ e'.1 := fun heq => hnodup.1 (heq ▸ List.mem_map_of_mem he')
      rw [getElem?_erase_eq, if_neg hne]
      exact hmem e' (List.mem_cons_of_mem _ he')
    obtain ⟨hle, heq⟩ := ih hnodup.2 hrest
    have hadd := total_erase_add f (hmem e (List.mem_cons_self ..))
    rw [List.map_cons, List.sum_cons]
    refine ⟨by omega, fun hzero => ?_⟩
    rw [heq fun k v hk hnot => ?_]
    · omega
    · rw [getElem?_erase_eq] at hk
      split_ifs at hk with hkey
      refine hzero k v hk ?_
      rw [List.map_cons, List.mem_cons, not_or]
      exact ⟨fun h => hkey h.symm, hnot⟩

omit [LawfulEqCmp cmp] in
/-- A sum of sums over a list. -/
theorem total_sum_map {ι : Type*} (l : List ι) (f : ι → K → V → ℕ) (m : ExtTreeMap K V cmp) :
    total (fun k v => (l.map fun i => f i k v).sum) m = (l.map fun i => total (f i) m).sum := by
  induction l with
  | nil => simp [total]
  | cons i l ih => rw [List.map_cons, List.sum_cons, ← ih, ← total_add]; simp

/-- **Counting repeats.**  A sum over a list is that over its different members
exactly when the members that are repeated contribute nothing. -/
theorem sum_map_eq_sum_dedup_iff {ι : Type*} [DecidableEq ι] (f : ι → ℕ) (l : List ι) :
    (l.map f).sum = (l.dedup.map f).sum ↔ ∀ i, 1 < l.count i → f i = 0 := by
  suffices h : (l.dedup.map f).sum ≤ (l.map f).sum ∧
      ((l.map f).sum = (l.dedup.map f).sum ↔ ∀ i, 1 < l.count i → f i = 0) from h.2
  induction l with
  | nil => simp
  | cons a l ih =>
    obtain ⟨hle, hiff⟩ := ih
    have hcount : ∀ i, (a :: l).count i = l.count i + if a = i then 1 else 0 := fun i => by
      rw [List.count_cons]
      simp
    by_cases ha : a ∈ l
    · have hpos : 0 < l.count a := List.count_pos_iff.2 ha
      rw [List.dedup_cons_of_mem ha, List.map_cons, List.sum_cons]
      refine ⟨by omega, fun heq i hi => ?_, fun hall => ?_⟩
      · have hzero : f a = 0 := by omega
        by_cases hai : a = i
        · rw [← hai, hzero]
        · rw [hcount, if_neg hai] at hi
          exact hiff.1 (by omega) i hi
      · have hzero : f a = 0 := hall a (by rw [hcount, if_pos rfl]; omega)
        have := hiff.2 fun i hi => hall i (by rw [hcount]; omega)
        omega
    · have hnone : l.count a = 0 := List.count_eq_zero.2 ha
      rw [List.dedup_cons_of_notMem ha, List.map_cons, List.map_cons, List.sum_cons, List.sum_cons]
      refine ⟨by omega, fun heq i hi => ?_, fun hall => ?_⟩
      · have hai : a ≠ i := by
          rintro rfl
          rw [hcount, if_pos rfl, hnone] at hi
          omega
        rw [hcount, if_neg hai] at hi
        exact hiff.1 (by omega) i hi
      · have := hiff.2 fun i hi => hall i (by rw [hcount]; omega)
        omega

/-- **Floors add up to at most the floor of the sum.** -/
theorem sum_map_div_le {ι : Type*} (l : List ι) (f : ι → ℕ) (d : ℕ) :
    (l.map fun i => f i / d).sum ≤ (l.map f).sum / d := by
  induction l with
  | nil => simp
  | cons i l ih =>
    rw [List.map_cons, List.map_cons, List.sum_cons, List.sum_cons]
    exact (Nat.add_le_add_left ih _).trans (Nat.div_add_div_le_add_div)

omit [LawfulEqCmp cmp] in
/-- Dividing every term takes at most what dividing the sum does. -/
theorem total_div_le (f : K → V → ℕ) (d : ℕ) (m : ExtTreeMap K V cmp) :
    total (fun k v => f k v / d) m ≤ total f m / d :=
  sum_map_div_le m.toList (fun e => f e.1 e.2) d

omit [LawfulEqCmp cmp] in
/-- A factor comes out of a sum. -/
theorem total_mul_right (f : K → V → ℕ) (c : ℕ) (m : ExtTreeMap K V cmp) :
    total (fun k v => f k v * c) m = total f m * c := by
  unfold total
  exact List.sum_map_mul_right ..

end Lib
end BabyLst
