/-
# The last write of a log

A log lists writes, each of a value to a key.  What it leaves at a key is the
last value written there (`lastWrite`); the map that is filled write by write
holds just that (`getElem?_foldl_insert`).  Of a log of amounts, what is left at
distinct keys adds up to no more than the log (`sum_lastWrite_le`).
-/

import BabyLst.Lib.MapSum

namespace BabyLst
namespace Lib

open Std

variable {K X : Type*} [DecidableEq K]

/-- The last value that the log writes to the key. -/
def lastWrite (log : List (K × X)) (k : K) : Option X :=
  (log.reverse.find? fun e => e.1 = k).map Prod.snd

@[simp] theorem lastWrite_nil (k : K) : lastWrite ([] : List (K × X)) k = none := rfl

theorem lastWrite_snoc (log : List (K × X)) (e : K × X) (k : K) :
    lastWrite (log ++ [e]) k = if e.1 = k then some e.2 else lastWrite log k := by
  unfold lastWrite
  rw [List.reverse_append, List.reverse_singleton, List.singleton_append, List.find?_cons]
  by_cases h : e.1 = k
  · simp [h]
  · simp [h]

/-- The last write is one of the log. -/
theorem mem_of_lastWrite {log : List (K × X)} {k : K} {x : X} (h : lastWrite log k = some x) :
    (k, x) ∈ log := by
  obtain ⟨⟨k', x'⟩, hfind, rfl⟩ := Option.map_eq_some_iff.1 h
  have hkey : k' = k := by simpa using List.find?_some hfind
  subst hkey
  exact List.mem_reverse.1 (List.mem_of_find?_eq_some hfind)

/-- A log that writes each key once leaves all its writes. -/
theorem lastWrite_eq_some_iff {log : List (K × X)} (once : (log.map Prod.fst).Nodup) {k : K}
    {x : X} : lastWrite log k = some x ↔ (k, x) ∈ log := by
  refine ⟨mem_of_lastWrite, fun hmem => ?_⟩
  induction log using List.reverseRecOn with
  | nil => cases hmem
  | append_singleton log e ih =>
    rw [List.map_append, List.map_singleton, List.nodup_append] at once
    obtain ⟨hlog, -, hapart⟩ := once
    rw [lastWrite_snoc]
    rcases List.mem_append.1 hmem with hmem | hmem
    · have hne : k ≠ e.1 := hapart k (List.mem_map_of_mem hmem) e.1 (List.mem_singleton_self _)
      rw [if_neg hne.symm]
      exact ih hlog hmem
    · obtain rfl := List.mem_singleton.1 hmem
      exact if_pos rfl

theorem lastWrite_map {Y : Type*} (f : X → Y) (log : List (K × X)) (k : K) :
    lastWrite (log.map fun e => (e.1, f e.2)) k = (lastWrite log k).map f := by
  induction log using List.reverseRecOn with
  | nil => rfl
  | append_singleton log e ih =>
    rw [List.map_append, List.map_singleton, lastWrite_snoc, lastWrite_snoc, ih]
    split_ifs <;> rfl

/-- **The map filled write by write holds the last writes.** -/
theorem getElem?_foldl_insert {cmp : K → K → Ordering} [TransCmp cmp] [LawfulEqCmp cmp]
    (log : List (K × X)) (k : K) :
    (log.foldl (fun m e => m.insert e.1 e.2) (∅ : ExtTreeMap K X cmp))[k]? = lastWrite log k := by
  induction log using List.reverseRecOn with
  | nil => simp
  | append_singleton log e ih =>
    rw [List.foldl_append, List.foldl_cons, List.foldl_nil, getElem?_insert_eq, lastWrite_snoc, ih]

/-- **The entries of a map, as a log**, leave what the map holds. -/
theorem lastWrite_toList {cmp : K → K → Ordering} [TransCmp cmp] [LawfulEqCmp cmp]
    (m : ExtTreeMap K X cmp) (k : K) : lastWrite m.toList k = m[k]? := by
  cases hlast : lastWrite m.toList k with
  | some x => exact (ExtTreeMap.mem_toList_iff_getElem?_eq_some.1 (mem_of_lastWrite hlast)).symm
  | none =>
    rw [lastWrite, Option.map_eq_none_iff, List.find?_eq_none] at hlast
    refine (Option.eq_none_iff_forall_ne_some.2 fun x hx => ?_).symm
    have hmem := List.mem_reverse.2 (ExtTreeMap.mem_toList_iff_getElem?_eq_some.2 hx)
    exact hlast _ hmem (decide_eq_true rfl)

/-- Of distinct keys, one write is at one at most. -/
theorem sum_map_single_le (k : K) (n : ℕ) {keys : List K} (h : keys.Nodup) :
    (keys.map fun k' => if k = k' then n else 0).sum ≤ n := by
  induction keys with
  | nil => simp
  | cons k' keys ih =>
    obtain ⟨hnot, hrest⟩ := List.nodup_cons.1 h
    rw [List.map_cons, List.sum_cons]
    by_cases hk : k = k'
    · have hzero : (keys.map fun k' => if k = k' then n else 0).sum = 0 := by
        refine List.sum_eq_zero fun x hx => ?_
        obtain ⟨k'', hmem, rfl⟩ := List.mem_map.1 hx
        have hne : k ≠ k'' := by
          rintro rfl
          exact hnot (hk ▸ hmem)
        exact if_neg hne
      rw [if_pos hk, hzero, Nat.add_zero]
    · rw [if_neg hk, Nat.zero_add]
      exact ih hrest

/-- **What is left at distinct keys** adds up to no more than what was written. -/
theorem sum_lastWrite_le (log : List (K × ℕ)) {keys : List K} (h : keys.Nodup) :
    (keys.map fun k => (lastWrite log k).getD 0).sum ≤ (log.map Prod.snd).sum := by
  induction log using List.reverseRecOn with
  | nil => simp
  | append_singleton log e ih =>
    have hone := sum_map_single_le e.1 e.2 h
    have hle : (keys.map fun k => (lastWrite (log ++ [e]) k).getD 0).sum ≤
        (keys.map fun k => (lastWrite log k).getD 0 + if e.1 = k then e.2 else 0).sum := by
      refine List.sum_le_sum fun k _ => ?_
      rw [lastWrite_snoc]
      split_ifs
      · simp
      · simp
    rw [List.sum_map_add] at hle
    simp only [List.map_append, List.map_singleton, List.sum_append, List.sum_singleton]
    omega

end Lib
end BabyLst
