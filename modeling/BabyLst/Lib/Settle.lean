/-
# Calls that settle first

A state that is due to be settled before it is used, and calls that each settle
it and then act: a call is allowed or refused by what it finds after settling,
and a refused call leaves the state as it was, unsettled.  If settling twice is
settling once, acting leaves a settled state settled, and two calls that are
apart neither stand in each other's way nor depend on who acts first, then any
two orders of pairwise apart calls lead to the same state
(`Settling.foldl_attempt_perm`).

The laws are asked for only in the states that are `good`, which the calls have
to keep, and only for calls that are allowed.
-/

import Mathlib.Data.List.Perm.Basic
import Mathlib.Tactic.Common

namespace BabyLst
namespace Lib

/-- **Calls that settle first**, with their laws. -/
structure Settling (S C : Type*) where
  /-- The states the laws are for. -/
  good : S → Prop
  settle : S → S
  /-- Whether a call is allowed in a settled state. -/
  allowed : C → S → Prop
  /-- What an allowed call does to a settled state. -/
  effect : C → S → S
  /-- Calls that have nothing to do with each other. -/
  apart : C → C → Prop
  apart_symm : ∀ {a b : C}, apart a b → apart b a
  settled : ∀ {s : S} {c : C}, good s → allowed c (settle s) →
    good (settle s) ∧ settle (settle s) = settle s
  effect_settled : ∀ {s : S} {c : C}, good s → settle s = s → allowed c s →
    good (effect c s) ∧ settle (effect c s) = effect c s
  allowed_iff : ∀ {s : S} {a b : C}, good s → settle s = s → apart a b → allowed a s →
    (allowed b (effect a s) ↔ allowed b s)
  effect_comm : ∀ {s : S} {a b : C}, good s → settle s = s → apart a b → allowed a s →
    allowed b s → effect b (effect a s) = effect a (effect b s)

namespace Settling

variable {S C : Type*} (m : Settling S C)

open Classical in
/-- A call: it settles the state and acts, or leaves it as it was. -/
noncomputable def attempt (s : S) (c : C) : S :=
  if m.allowed c (m.settle s) then m.effect c (m.settle s) else s

variable {m} {s : S} {a b c : C}

theorem attempt_of_allowed (h : m.allowed c (m.settle s)) :
    m.attempt s c = m.effect c (m.settle s) := if_pos h

theorem attempt_of_refused (h : ¬m.allowed c (m.settle s)) : m.attempt s c = s := if_neg h

/-- A call keeps the state good. -/
theorem attempt_good (hs : m.good s) (c : C) : m.good (m.attempt s c) := by
  by_cases h : m.allowed c (m.settle s)
  · obtain ⟨hgood, hsettled⟩ := m.settled hs h
    rw [attempt_of_allowed h]
    exact (m.effect_settled hgood hsettled h).1
  · rw [attempt_of_refused h]
    exact hs

/-- After an allowed call, one that is apart from it finds what it would have
found. -/
theorem attempt_attempt_of_allowed (hs : m.good s) (hapart : m.apart a b)
    (ha : m.allowed a (m.settle s)) :
    m.settle (m.attempt s a) = m.effect a (m.settle s) ∧
      (m.allowed b (m.settle (m.attempt s a)) ↔ m.allowed b (m.settle s)) := by
  obtain ⟨hgood, hsettled⟩ := m.settled hs ha
  rw [attempt_of_allowed ha, (m.effect_settled hgood hsettled ha).2]
  exact ⟨rfl, m.allowed_iff hgood hsettled hapart ha⟩

/-- **Two calls that are apart commute.** -/
theorem attempt_comm (hs : m.good s) (hapart : m.apart a b) :
    m.attempt (m.attempt s a) b = m.attempt (m.attempt s b) a := by
  by_cases ha : m.allowed a (m.settle s)
  · obtain ⟨hfound, hiff⟩ := attempt_attempt_of_allowed hs hapart ha
    by_cases hb : m.allowed b (m.settle s)
    · obtain ⟨hfound', hiff'⟩ := attempt_attempt_of_allowed hs (m.apart_symm hapart) hb
      obtain ⟨hgood, hsettled⟩ := m.settled hs ha
      rw [attempt_of_allowed (hiff.2 hb), attempt_of_allowed (hiff'.2 ha), hfound, hfound']
      exact m.effect_comm hgood hsettled hapart ha hb
    · rw [attempt_of_refused (mt hiff.1 hb), attempt_of_refused hb]
  · rw [attempt_of_refused ha]
    by_cases hb : m.allowed b (m.settle s)
    · obtain ⟨-, hiff'⟩ := attempt_attempt_of_allowed hs (m.apart_symm hapart) hb
      rw [attempt_of_refused (mt hiff'.1 ha)]
    · rw [attempt_of_refused hb, attempt_of_refused ha]

/-- **The order of calls that are pairwise apart does not matter.** -/
theorem foldl_attempt_perm {l l' : List C} (perm : l.Perm l') :
    ∀ {s : S}, m.good s → l.Pairwise m.apart → l.foldl m.attempt s = l'.foldl m.attempt s := by
  induction perm with
  | nil => exact fun _ _ => rfl
  | cons c _ ih =>
    intro s hs hl
    rw [List.pairwise_cons] at hl
    exact ih (attempt_good hs c) hl.2
  | swap a b l =>
    intro s hs hl
    rw [List.pairwise_cons] at hl
    have hapart : m.apart b a := hl.1 a (List.mem_cons_self ..)
    rw [List.foldl_cons, List.foldl_cons, List.foldl_cons, List.foldl_cons, attempt_comm hs hapart]
  | trans first second ih ih' =>
    intro s hs hl
    have hl' := (first.pairwise_iff fun h => m.apart_symm h).1 hl
    exact (ih hs hl).trans (ih' hs hl')

end Settling
end Lib
end BabyLst
