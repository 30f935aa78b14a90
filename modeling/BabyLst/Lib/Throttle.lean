/-
# Entries that end in time

A limiter keeps the ends of the entries it has admitted, drops those that are over
and admits a new one while fewer than its limit are left.  Entries that are made
at least `gap` apart and last for a window of at most `limit` gaps never meet the
limit: when the next one is due, fewer than `limit` of the earlier ones are left
(`Spaced.length_lt`), and with the next one the ends are still `gap` apart
(`Spaced.snoc`).
-/

import Mathlib.Algebra.Order.Ring.Nat
import Mathlib.Tactic.Common

namespace BabyLst
namespace Lib

/-- Times in order, at least `gap` apart and none after `last`. -/
def Spaced (gap last : ℕ) (times : List ℕ) : Prop :=
  times.Pairwise (fun t t' => t + gap ≤ t') ∧ ∀ t ∈ times, t ≤ last

variable {gap last now window limit : ℕ} {times : List ℕ}

theorem spaced_nil : Spaced gap last [] := ⟨.nil, by simp⟩

theorem Spaced.mono (h : Spaced gap last times) (le : last ≤ now) : Spaced gap now times :=
  ⟨h.1, fun t ht => (h.2 t ht).trans le⟩

/-- Dropping some of the times keeps the others apart. -/
theorem Spaced.filter (h : Spaced gap last times) (p : ℕ → Bool) :
    Spaced gap last (times.filter p) :=
  ⟨h.1.filter p, fun t ht => h.2 t (List.mem_filter.1 ht).1⟩

/-- **The first of many times is early**: each of the others adds a gap. -/
theorem Spaced.first_le {t : ℕ} (h : Spaced gap last (t :: times)) :
    t + times.length * gap ≤ last := by
  induction times generalizing t with
  | nil =>
    have hle := h.2 t (List.mem_singleton_self t)
    simpa using hle
  | cons t' rest ih =>
    obtain ⟨hall, hrest⟩ := List.pairwise_cons.1 h.1
    have hgap : t + gap ≤ t' := hall t' List.mem_cons_self
    have htail : t' + rest.length * gap ≤ last :=
      ih ⟨hrest, fun u hu => h.2 u (List.mem_cons_of_mem _ hu)⟩
    rw [List.length_cons, Nat.add_mul]
    omega

/-- **Fewer than the limit are left** a gap after the last entry was made, if an
entry lasts for no more gaps than the limit. -/
theorem Spaced.length_lt (h : Spaced gap (last + window) times) (left : ∀ t ∈ times, now < t)
    (due : last + gap ≤ now) (pos : 0 < limit) (window_le : window ≤ limit * gap) :
    times.length < limit := by
  cases times with
  | nil => exact pos
  | cons t rest =>
    have hfirst := h.first_le
    have hleft : now < t := left t List.mem_cons_self
    have hlt : (rest.length + 1) * gap < limit * gap := by
      rw [Nat.add_mul]
      omega
    exact Nat.lt_of_mul_lt_mul_right hlt

/-- A new entry ends a gap after the ones before it. -/
theorem Spaced.snoc (h : Spaced gap (last + window) times) (due : last + gap ≤ now) :
    Spaced gap (now + window) (times ++ [now + window]) := by
  refine ⟨List.pairwise_append.2 ⟨h.1, List.pairwise_singleton _ _, ?_⟩, ?_⟩
  · intro t ht t' ht'
    have hle := h.2 t ht
    rw [List.mem_singleton.1 ht']
    omega
  · intro t ht
    rcases List.mem_append.1 ht with ht | ht
    · have hle := h.2 t ht
      omega
    · exact (List.mem_singleton.1 ht).le

end Lib
end BabyLst
