/-
# Inverting programs in `Except`

A program in `Except ε` is a chain of binds, guards and lookups; what a proof
wants from `prog = .ok b` is the list of the intermediate results.  The simp
lemmas here turn such an equation into a conjunction of equations, one per
statement of the program, so that an inversion lemma for a long program is one
`simp only` and an `obtain`.
-/

import Mathlib.Algebra.BigOperators.Group.List.Basic
import Mathlib.Algebra.Order.Ring.Nat
import Mathlib.Tactic.Common

namespace BabyLst
namespace Lib

universe u

variable {ε : Type*} {α β : Type u}

/-- Continue only if `c` holds. -/
def require (c : Prop) [Decidable c] (e : ε) : Except ε Unit :=
  if c then .ok () else .error e

/-- The value of an option, or the error `e`. -/
def okOr (o : Option α) (e : ε) : Except ε α :=
  match o with
  | some a => .ok a
  | none => .error e

/-- **A bind succeeds when both halves do.** -/
@[simp] theorem bind_eq_ok {x : Except ε α} {f : α → Except ε β} {b : β} :
    (x >>= f) = .ok b ↔ ∃ a, x = .ok a ∧ f a = .ok b := by
  cases x with
  | error e => simp [bind, Except.bind]
  | ok a => simp [bind, Except.bind]

@[simp] theorem pure_eq_ok {a b : α} : (pure a : Except ε α) = .ok b ↔ a = b := by
  simp [pure, Except.pure]

@[simp] theorem throw_ne_ok {e : ε} {b : α} : (throw e : Except ε α) = .ok b ↔ False := by
  simp [throw, throwThe, MonadExceptOf.throw]

@[simp] theorem require_eq_ok {c : Prop} [Decidable c] {e : ε} {u : Unit} :
    require c e = .ok u ↔ c := by
  unfold require; split_ifs <;> simp_all

@[simp] theorem okOr_eq_ok {o : Option α} {e : ε} {a : α} : okOr o e = .ok a ↔ o = some a := by
  cases o <;> simp [okOr]

/-- A successful program stays successful under a bind. -/
theorem bind_ok {x : Except ε α} {f : α → Except ε β} {a : α} (h : x = .ok a) :
    (x >>= f) = f a := by
  rw [h]; rfl

/-- A guard that holds is passed. -/
theorem require_ok {c : Prop} [Decidable c] {e : ε} (h : c) : require c e = .ok () :=
  require_eq_ok.2 h

/-- **A loop that adds within a bound.**  The state carries a sum `v`, and a step
for `i` adds `w i` to it.  If a step succeeds just when it keeps the sum below the
bound `b`, the loop succeeds just when the whole sum is below it. -/
theorem foldlM_eq_ok_of_bounded {σ : Type u} {ι : Type*} {f : σ → ι → Except ε σ} {v : σ → ℕ}
    {w : ι → ℕ} {g : σ → ι → σ} {b : ℕ}
    (step : ∀ s i t, v s < b → (f s i = .ok t ↔ v s + w i < b ∧ g s i = t))
    (adds : ∀ s i, v (g s i) = v s + w i) (l : List ι) :
    ∀ {s t : σ}, v s < b → (l.foldlM f s = .ok t ↔ v s + (l.map w).sum < b ∧ l.foldl g s = t) := by
  induction l with
  | nil =>
    intro s t hs
    simp [hs]
  | cons i l ih =>
    intro s t hs
    rw [List.foldlM_cons, bind_eq_ok, List.map_cons, List.sum_cons, List.foldl_cons,
      ← Nat.add_assoc]
    constructor
    · rintro ⟨s', hs', h⟩
      obtain ⟨hlt, rfl⟩ := (step s i s' hs).1 hs'
      rw [ih (by rw [adds]; exact hlt), adds] at h
      exact h
    · rintro ⟨hlt, h⟩
      have hi : v s + w i < b := Nat.lt_of_le_of_lt (Nat.le_add_right ..) hlt
      refine ⟨g s i, (step s i _ hs).2 ⟨hi, rfl⟩, ?_⟩
      rw [ih (by rw [adds]; exact hi), adds]
      exact ⟨hlt, h⟩

/-! ### Failures a program avoids -/

/-- **None of the failures of `x` is `bad`.** -/
def Avoids (bad : ε → Prop) (x : Except ε α) : Prop := ∀ e, x = .error e → ¬bad e

variable {bad : ε → Prop}

theorem avoids_ok (a : α) : Avoids bad (.ok a : Except ε α) := fun _ h => by cases h

theorem avoids_error {e : ε} (h : ¬bad e) : Avoids bad (.error e : Except ε α) := by
  rintro _ ⟨rfl⟩
  exact h

/-- **A bind avoids what both halves avoid**, the second where the first succeeds. -/
theorem Avoids.bind {x : Except ε α} {f : α → Except ε β} (hx : Avoids bad x)
    (hf : ∀ a, x = .ok a → Avoids bad (f a)) : Avoids bad (x >>= f) := by
  intro e he
  cases hax : x with
  | error e' =>
    rw [hax] at he
    obtain rfl : e' = e := Except.error.inj he
    exact hx _ hax
  | ok a =>
    rw [hax] at he
    exact hf a hax e he

theorem avoids_require {c : Prop} [Decidable c] {e : ε} (h : ¬bad e) :
    Avoids bad (require c e) := by
  unfold require
  split_ifs
  · exact avoids_ok _
  · exact avoids_error h

theorem avoids_okOr {o : Option α} {e : ε} (h : ¬bad e) : Avoids bad (okOr o e) := by
  cases o with
  | none => exact avoids_error h
  | some a => exact avoids_ok a

end Lib
end BabyLst
