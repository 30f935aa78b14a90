/-
# Labelled runs of a transition relation

`Run step s tr s'` is a run from `s` to `s'`; its trace `tr` lists, in order,
each action taken and the state it led to.  An invariant is proved once per
step (`Run.invariant`), a quantity that a step never lowers is never lowered by
a run (`Run.monotone`), one that a step raises by what its action brings is
raised by the sum (`Run.brings`, `Run.within`), what only some actions change
the others leave alone (`Run.unchanged`), and a statement about the history of a
run is an invariant of the trace and the state together (`Run.history`).  What
the steps of a run leave behind, one after the other, is `along`; a run that is
computed from a script is `play`.
-/

import Mathlib.Algebra.Order.Ring.Nat
import Mathlib.Tactic.Common

namespace BabyLst
namespace Lib

variable {S A : Type*} {step step' : S → A → S → Prop}

/-- A run, with the actions taken and the states they led to. -/
inductive Run (step : S → A → S → Prop) (s : S) : List (A × S) → S → Prop
  | refl : Run step s [] s
  | tail {tr : List (A × S)} {t : S} {a : A} {u : S} (run : Run step s tr t)
      (last : step t a u) : Run step s (tr ++ [(a, u)]) u

/-- **A statement about the history.**  What holds of the empty history and is
kept when a step is appended holds of every run. -/
theorem Run.history {P : List (A × S) → S → Prop} {s t : S} {tr : List (A × S)}
    (run : Run step s tr t) (start : P [] s)
    (keep : ∀ tr t a u, Run step s tr t → P tr t → step t a u → P (tr ++ [(a, u)]) u) :
    P tr t := by
  induction run with
  | refl => exact start
  | tail run last ih => exact keep _ _ _ _ run ih last

/-- **An invariant of the steps is an invariant of the runs.** -/
theorem Run.invariant {P : S → Prop} {s t : S} {tr : List (A × S)} (run : Run step s tr t)
    (start : P s) (keep : ∀ t a u, P t → step t a u → P u) : P t :=
  run.history (P := fun _ t => P t) start fun _ t a u _ h hstep => keep t a u h hstep

/-- A run is one of any relation that allows the actions it takes. -/
theorem Run.mono {s t : S} {tr : List (A × S)} (run : Run step s tr t)
    (sub : ∀ e ∈ tr, ∀ s t, step s e.1 t → step' s e.1 t) : Run step' s tr t := by
  induction run with
  | refl => exact .refl
  | tail run last ih =>
    have hrest := ih fun e he => sub e (List.mem_append_left _ he)
    exact .tail hrest (sub _ (List.mem_append_right _ (List.mem_singleton_self _)) _ _ last)

/-- Two runs one after the other. -/
theorem Run.append {s t u : S} {tr tr' : List (A × S)} (first : Run step s tr t)
    (second : Run step t tr' u) : Run step s (tr ++ tr') u := by
  induction second with
  | refl => simpa using first
  | tail run last ih => rw [← List.append_assoc]; exact .tail ih last

/-- One step is a run. -/
theorem Run.single {s t : S} {a : A} (h : step s a t) : Run step s [(a, t)] t :=
  List.nil_append [(a, t)] ▸ Run.tail .refl h

/-- **Cutting a run.**  A run along `tr ++ tr'` is a run along `tr` and one
along `tr'`. -/
theorem Run.split {s u : S} {tr tr' : List (A × S)} (run : Run step s (tr ++ tr') u) :
    ∃ t, Run step s tr t ∧ Run step t tr' u := by
  generalize htr : tr ++ tr' = full at run
  induction run generalizing tr' with
  | refl =>
    obtain ⟨rfl, rfl⟩ := List.append_eq_nil_iff.1 htr
    exact ⟨s, .refl, .refl⟩
  | @tail pre t a u run last ih =>
    rcases List.eq_nil_or_concat tr' with rfl | ⟨init, e, rfl⟩
    · rw [List.append_nil] at htr
      subst htr
      exact ⟨u, .tail run last, .refl⟩
    · rw [List.concat_eq_append, ← List.append_assoc] at htr
      obtain ⟨hpre, he⟩ := List.append_inj' htr rfl
      obtain ⟨t', first, second⟩ := ih hpre
      refine ⟨t', first, ?_⟩
      rw [List.concat_eq_append, List.singleton_inj.1 he]
      exact .tail second last

/-- **A quantity that no step lowers is lowered by no run.**  `P` is an
invariant the comparison may use. -/
theorem Run.monotone {X : Type*} [Preorder X] {P : S → Prop} {f : S → X} {s t : S}
    {tr : List (A × S)} (run : Run step s tr t) (start : P s)
    (keep : ∀ t a u, P t → step t a u → P u ∧ f t ≤ f u) : f s ≤ f t :=
  (run.invariant (P := fun t => P t ∧ f s ≤ f t) ⟨start, le_rfl⟩ fun t a u h hstep =>
    ⟨(keep t a u h.1 hstep).1, h.2.trans (keep t a u h.1 hstep).2⟩).2

/-- **What only some actions change, a run without them leaves alone.**  Which
actions these are may depend on what they change. -/
theorem Run.unchanged {X : Type*} {P : S → Prop} {f : S → X} {g : X → A → Prop} {s t : S}
    {tr : List (A × S)} (run : Run step s tr t) (start : P s)
    (keep : ∀ t a u, P t → step t a u → P u ∧ (f u = f t ∨ g (f t) a))
    (never : ∀ e ∈ tr, ¬g (f s) e.1) : f t = f s := by
  have hrun : P t ∧ f t = f s := by
    induction run with
    | refl => exact ⟨start, rfl⟩
    | tail run last ih =>
      obtain ⟨hP, hf⟩ := ih fun e he => never e (List.mem_append_left _ he)
      obtain ⟨hP', hstep⟩ := keep _ _ _ hP last
      refine ⟨hP', ?_⟩
      rcases hstep with hsame | hchange
      · exact hsame.trans hf
      · rw [hf] at hchange
        exact absurd hchange (never _ (List.mem_append_right _ (List.mem_singleton_self _)))
  exact hrun.2

/-- What the actions of a trace bring, added up. -/
def brought (g : A → ℕ) (tr : List (A × S)) : ℕ := (tr.map fun e => g e.1).sum

theorem brought_concat (g : A → ℕ) (tr : List (A × S)) (a : A) (u : S) :
    brought g (tr ++ [(a, u)]) = brought g tr + g a := by
  simp [brought]

/-- **A quantity that each step raises by what its action brings** is raised by a
run by what its actions bring together. -/
theorem Run.brings {P : S → Prop} {f : S → ℕ} {g : A → ℕ} {s t : S} {tr : List (A × S)}
    (run : Run step s tr t) (start : P s)
    (keep : ∀ t a u, P t → step t a u → P u ∧ f u = f t + g a) :
    P t ∧ f t = f s + brought g tr := by
  refine run.history (P := fun tr t => P t ∧ f t = f s + brought g tr) ⟨start, rfl⟩
    fun tr t a u _ ht hstep => ?_
  obtain ⟨hP, heq⟩ := keep t a u ht.1 hstep
  rw [brought_concat, ← Nat.add_assoc, ← ht.2]
  exact ⟨hP, heq⟩

/-- **A quantity that no step raises by more than its action allows** is raised by
no run by more than its actions allow together. -/
theorem Run.within {P : S → Prop} {f : S → Int} {g : A → ℕ} {s t : S} {tr : List (A × S)}
    (run : Run step s tr t) (start : P s)
    (keep : ∀ t a u, P t → step t a u → P u ∧ f u ≤ f t + g a) :
    P t ∧ f t ≤ f s + brought g tr := by
  refine run.history (P := fun tr t => P t ∧ f t ≤ f s + brought g tr)
    ⟨start, by simp [brought]⟩ fun tr t a u _ ht hstep => ?_
  obtain ⟨hP, hle⟩ := keep t a u ht.1 hstep
  rw [brought_concat]
  have hrun := ht.2
  exact ⟨hP, by omega⟩

/-- What the steps of a trace leave behind: `f` of each action and the state it
was taken in. -/
def along {B : Type*} (f : S → A → List B) : S → List (A × S) → List B
  | _, [] => []
  | s, (a, t) :: tr => f s a ++ along f t tr

/-- What the last step of a run leaves behind comes last. -/
theorem Run.along_concat {B : Type*} {f : S → A → List B} {s t u : S} {tr : List (A × S)} {a : A}
    (run : Run step s tr t) : along f s (tr ++ [(a, u)]) = along f s tr ++ f t a := by
  have happ : ∀ (tr tr' : List (A × S)) (s t : S), Run step s tr t →
      along f s (tr ++ tr') = along f s tr ++ along f t tr' := by
    intro tr
    induction tr with
    | nil =>
      intro tr' s t run
      generalize hnil : ([] : List (A × S)) = pre at run
      cases run with
      | refl => rfl
      | tail => simp at hnil
    | cons e tr ih =>
      intro tr' s t run
      rw [← List.singleton_append] at run
      obtain ⟨m, first, rest⟩ := run.split
      obtain rfl : m = e.2 := by
        generalize hone : [e] = pre at first
        cases first with
        | refl => simp at hone
        | tail run last =>
          rw [← List.nil_append [e]] at hone
          obtain ⟨-, he⟩ := List.append_inj' hone rfl
          rw [List.singleton_inj.1 he]
      show f s e.1 ++ along f e.2 (tr ++ tr') = (f s e.1 ++ along f e.2 tr) ++ along f t tr'
      rw [ih tr' e.2 t rest, List.append_assoc]
  rw [happ tr _ s t run]
  simp [along]

/-- A script, played by a function that says what each line of it does. -/
def play {B : Type*} (exec : S → B → Option (A × S)) : S → List B → Option (List (A × S) × S)
  | s, [] => some ([], s)
  | s, line :: script =>
    match exec s line with
    | none => none
    | some (a, t) => (play exec t script).map fun r => ((a, t) :: r.1, r.2)

/-- **A script that plays to its end is a run.** -/
theorem play_run {B : Type*} {exec : S → B → Option (A × S)}
    (sound : ∀ s line a t, exec s line = some (a, t) → step s a t) (script : List B) :
    ∀ {s t : S} {tr : List (A × S)}, play exec s script = some (tr, t) → Run step s tr t := by
  induction script with
  | nil =>
    intro s t tr h
    simp only [play, Option.some.injEq, Prod.mk.injEq] at h
    obtain ⟨rfl, rfl⟩ := h
    exact .refl
  | cons line script ih =>
    intro s t tr h
    unfold play at h
    cases hline : exec s line with
    | none => simp [hline] at h
    | some r =>
      obtain ⟨a, m⟩ := r
      simp only [hline, Option.map_eq_some_iff, Prod.mk.injEq] at h
      obtain ⟨⟨tr', t'⟩, hplay, rfl, rfl⟩ := h
      exact (Run.single (sound s line a m hline)).append (ih hplay)

/-- The trace of a script. -/
def playTrace {B : Type*} (exec : S → B → Option (A × S)) (s : S) (script : List B) :
    List (A × S) := ((play exec s script).map Prod.fst).getD []

/-- The state a script ends in. -/
def playEnd {B : Type*} (exec : S → B → Option (A × S)) (s : S) (script : List B) : S :=
  ((play exec s script).map Prod.snd).getD s

theorem played_run {B : Type*} {exec : S → B → Option (A × S)}
    (sound : ∀ s line a t, exec s line = some (a, t) → step s a t) (s : S) (script : List B)
    (h : (play exec s script).isSome = true) :
    Run step s (playTrace exec s script) (playEnd exec s script) := by
  obtain ⟨⟨tr, t⟩, hr⟩ := Option.isSome_iff_exists.1 h
  have htr : playTrace exec s script = tr := by rw [playTrace, hr]; rfl
  have ht : playEnd exec s script = t := by rw [playEnd, hr]; rfl
  rw [htr, ht]
  exact play_run sound script hr

end Lib
end BabyLst
