/-
# Calls that lead to calls

Contracts that call each other: `step` hands one message of a sender to whom it
is for, and answers with the one that was called and its messages in turn.
`delivered` delivers the messages of a sender one after the other, each with all
it leads to before the next, to a bounded depth; the first failure is the
failure of the whole.

Two rules go over the whole tree of calls at once: what every allowed message
keeps, the delivery keeps (`delivered_keep`), and a delivery all of whose
messages another machine takes as well is one of that machine
(`delivered_simulates`).  Both need a predicate of messages that the answers do
not leave.
-/

import BabyLst.Lib.Except

namespace BabyLst
namespace Lib

universe u

variable {W V A M : Type u} {E : Type*}

/-- The messages of a sender, one after the other, calls nested to the given
depth. -/
def delivered (step : W → A → M → Except E (W × A × List M)) (tooDeep : E) :
    ℕ → W → A → List M → Except E W
  | 0, w, _, [] => .ok w
  | 0, _, _, _ :: _ => .error tooDeep
  | depth + 1, w, sender, messages =>
    messages.foldlM (fun w m => do
      let (w, callee, inner) ← step w sender m
      delivered step tooDeep depth w callee inner) w

variable {step : W → A → M → Except E (W × A × List M)}
  {step' : V → A → M → Except E (V × A × List M)} {tooDeep : E}

@[simp] theorem delivered_nil (n : ℕ) (w : W) (sender : A) :
    delivered step tooDeep n w sender [] = .ok w := by
  cases n <;> rfl

/-- The first message with all it leads to, and then the others. -/
theorem delivered_cons {n : ℕ} {w w' : W} {sender : A} {m : M} {ms : List M} :
    delivered step tooDeep (n + 1) w sender (m :: ms) = .ok w' ↔
      ∃ w₁ callee inner w₂, step w sender m = .ok (w₁, callee, inner) ∧
        delivered step tooDeep n w₁ callee inner = .ok w₂ ∧
        delivered step tooDeep (n + 1) w₂ sender ms = .ok w' := by
  simp only [delivered, List.foldlM_cons, bind_eq_ok, Prod.exists]
  constructor
  · rintro ⟨w₂, ⟨w₁, callee, inner, h₁, h₂⟩, h⟩
    exact ⟨w₁, callee, inner, w₂, h₁, h₂, h⟩
  · rintro ⟨w₁, callee, inner, w₂, h₁, h₂, h⟩
    exact ⟨w₂, ⟨w₁, callee, inner, h₁, h₂⟩, h⟩

theorem delivered_append {n : ℕ} {sender : A} {ms ms' : List M} {w w' : W} :
    delivered step tooDeep (n + 1) w sender (ms ++ ms') = .ok w' ↔
      ∃ w₁, delivered step tooDeep (n + 1) w sender ms = .ok w₁ ∧
        delivered step tooDeep (n + 1) w₁ sender ms' = .ok w' := by
  simp only [delivered, List.foldlM_append, bind_eq_ok]

/-- **What every allowed message keeps, a delivery of allowed messages keeps**, if
the answers to allowed messages are allowed. -/
theorem delivered_keep {P : W → Prop} {Q : A → M → Prop}
    (keep : ∀ {w w' sender callee m inner}, P w → Q sender m →
      step w sender m = .ok (w', callee, inner) → P w' ∧ ∀ m' ∈ inner, Q callee m') (n : ℕ) :
    ∀ {w w' : W} {sender : A} {ms : List M}, delivered step tooDeep n w sender ms = .ok w' →
      (∀ m ∈ ms, Q sender m) → P w → P w' := by
  induction n with
  | zero =>
    intro w w' sender ms h _ hw
    cases ms with
    | nil => cases h; exact hw
    | cons => cases h
  | succ n ihn =>
    intro w w' sender ms
    induction ms generalizing w with
    | nil =>
      intro h _ hw
      rw [delivered_nil] at h
      cases h
      exact hw
    | cons m ms ih =>
      intro h hallowed hw
      obtain ⟨w₁, callee, inner, w₂, hm, hinner, hrest⟩ := delivered_cons.1 h
      obtain ⟨hw₁, hin⟩ := keep hw (hallowed m (List.mem_cons_self ..)) hm
      exact ih hrest (fun m' hm' => hallowed m' (List.mem_cons_of_mem _ hm'))
        (ihn hinner hin hw₁)

/-- **A delivery of messages that another machine takes as well is one of that
machine**, step by step along a relation of the states. -/
theorem delivered_simulates {R : W → V → Prop} {Q : A → M → Prop} {e : E}
    (follow : ∀ {w w' v sender callee m inner}, R w v → Q sender m →
      step w sender m = .ok (w', callee, inner) →
        (∃ v', R w' v' ∧ step' v sender m = .ok (v', callee, inner)) ∧
          ∀ m' ∈ inner, Q callee m') (n : ℕ) :
    ∀ {w w' : W} {v : V} {sender : A} {ms : List M},
      delivered step tooDeep n w sender ms = .ok w' → (∀ m ∈ ms, Q sender m) → R w v →
      ∃ v', R w' v' ∧ delivered step' e n v sender ms = .ok v' := by
  induction n with
  | zero =>
    intro w w' v sender ms h _ hR
    cases ms with
    | nil => cases h; exact ⟨v, hR, rfl⟩
    | cons => cases h
  | succ n ihn =>
    intro w w' v sender ms
    induction ms generalizing w v with
    | nil =>
      intro h _ hR
      rw [delivered_nil] at h
      cases h
      exact ⟨v, hR, delivered_nil ..⟩
    | cons m ms ih =>
      intro h hplain hR
      obtain ⟨w₁, callee, inner, w₂, hm, hinner, hrest⟩ := delivered_cons.1 h
      obtain ⟨⟨v₁, hR₁, hv₁⟩, hin⟩ := follow hR (hplain m (List.mem_cons_self ..)) hm
      obtain ⟨v₂, hR₂, hv₂⟩ := ihn hinner hin hR₁
      obtain ⟨v', hR', hv'⟩ := ih hrest (fun m' hm' => hplain m' (List.mem_cons_of_mem _ hm')) hR₂
      exact ⟨v', hR', delivered_cons.2 ⟨v₁, callee, inner, v₂, hv₁, hv₂, hv'⟩⟩

end Lib
end BabyLst
