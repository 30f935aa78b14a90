/-
# Windows of a fixed length

Heights from `origin` on are cut into windows `[origin + k·len, origin + (k+1)·len)`.
A record that remembers the start of the window it was last written in, and
moves that start lazily, by a whole number of windows at a time, stays aligned
(`aligned_roll`); whether a later height is still in the window of the record
is then the comparison `h - start < len` (`sub_lt_iff_epoch_eq`).
-/

import Mathlib.Algebra.Order.Ring.Nat
import Mathlib.Algebra.Order.Group.Nat
import Mathlib.Tactic.Common

namespace BabyLst
namespace Lib

variable {origin len start h : ℕ}

/-- The number of the window that `h` lies in. -/
def epochOf (origin len h : ℕ) : ℕ := (h - origin) / len

/-- `start` is the first height of a window. -/
def Aligned (origin len start : ℕ) : Prop := ∃ k, start = origin + k * len

theorem aligned_origin (origin len : ℕ) : Aligned origin len origin := ⟨0, by simp⟩

/-- An aligned start lies in the window it starts. -/
theorem epochOf_add_mul (hlen : 0 < len) (k : ℕ) : epochOf origin len (origin + k * len) = k := by
  unfold epochOf
  rw [Nat.add_sub_cancel_left, Nat.mul_div_cancel _ hlen]

/-- **The window test.**  From an aligned `start` on, a height is in the window
of `start` exactly when it is less than `len` above it. -/
theorem sub_lt_iff_epoch_eq (hlen : 0 < len) (hs : Aligned origin len start) (hle : start ≤ h) :
    h - start < len ↔ epochOf origin len h = epochOf origin len start := by
  obtain ⟨k, rfl⟩ := hs
  rw [epochOf_add_mul hlen]
  obtain ⟨d, rfl⟩ := Nat.exists_eq_add_of_le hle
  unfold epochOf
  rw [Nat.add_sub_cancel_left, Nat.add_assoc, Nat.add_sub_cancel_left, Nat.add_comm (k * len),
    Nat.add_mul_div_right _ _ hlen]
  constructor
  · intro hd
    rw [Nat.div_eq_of_lt hd, Nat.zero_add]
  · intro hd
    have hz : d / len = 0 := by omega
    exact (Nat.div_eq_zero_iff_lt hlen).1 hz

/-- **Rolling the start forward.**  Moving an aligned start by the whole windows
passed keeps it aligned, at most the height, and in the height's window. -/
theorem aligned_roll (hlen : 0 < len) (hs : Aligned origin len start) (hle : start ≤ h) :
    Aligned origin len (start + (h - start) / len * len) ∧
      start + (h - start) / len * len ≤ h ∧ h - (start + (h - start) / len * len) < len := by
  obtain ⟨k, rfl⟩ := hs
  have hd := Nat.div_add_mod (h - (origin + k * len)) len
  have hm := Nat.mod_lt (h - (origin + k * len)) hlen
  rw [Nat.mul_comm len] at hd
  refine ⟨⟨k + (h - (origin + k * len)) / len, by rw [Nat.add_mul]; omega⟩, by omega, by omega⟩

/-- A height is in the `k`-th window when it is between its ends. -/
theorem epochOf_eq_iff (hlen : 0 < len) (ho : origin ≤ h) {k : ℕ} :
    epochOf origin len h = k ↔ origin + k * len ≤ h ∧ h < origin + (k + 1) * len := by
  unfold epochOf
  rw [Nat.div_eq_iff hlen, Nat.add_mul]
  constructor
  · rintro ⟨hle, hlt⟩
    constructor
    · omega
    · omega
  · rintro ⟨hle, hlt⟩
    constructor
    · omega
    · omega

/-- Later heights are in later windows. -/
theorem epochOf_mono {h h' : ℕ} (hle : h ≤ h') : epochOf origin len h ≤ epochOf origin len h' :=
  Nat.div_le_div_right (Nat.sub_le_sub_right hle _)

end Lib
end BabyLst
