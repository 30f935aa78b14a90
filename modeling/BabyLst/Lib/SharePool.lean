/-
# A pool of shares with a floored rate

A pool holds `stake` units of an asset for `shares` shares, and keeps a rate in
units of `1 / one`: the last value of `stake · one / shares`, rounded down, with
`one` itself where either side is zero (`ratio`).  Depositing buys shares at the
stored rate, redeeming sells them at it, both rounded down; anybody may donate
to the pool or burn shares; and a reconciliation may find some of the stake
gone.

`Backed` is the solvency of the pool, stated without division:
`shares · rate ≤ stake · one`.  Every operation at the stored rate keeps it, for
*any* backed rate, not only the current one (`Backed.deposit`, `Backed.redeem`,
`Backed.burn`): a stale rate that is backed is a lower one.  Two things follow
for whole transactions (`Tx`):

* without losses a backed rate never falls (`Tx.le_rate`), as long as shares
  remain;
* with losses the pool stays `Sound`: it is backed, or it is empty and its rate
  is the fallback (`Tx.sound`).
-/

import Mathlib.Algebra.Order.Ring.Nat
import Mathlib.Algebra.Order.Group.Nat
import Mathlib.Tactic.Common
import Mathlib.Tactic.Linarith
import Mathlib.Tactic.Ring

namespace BabyLst
namespace Lib

variable {one : ℕ}

/-- A pool: the asset it holds, the shares outstanding, the stored rate. -/
structure SharePool where
  stake : ℕ
  shares : ℕ
  rate : ℕ

namespace SharePool

/-- The rate of a pool: `stake · one / shares` rounded down, or `one` where
either side is zero. -/
def ratio (one stake shares : ℕ) : ℕ :=
  if stake = 0 ∨ shares = 0 then one else stake * one / shares

/-- The pool with its rate recomputed. -/
def refresh (one : ℕ) (p : SharePool) : SharePool := { p with rate := ratio one p.stake p.shares }

/-- Shares are bought at the stored rate, and the rate is recomputed. -/
def deposit (one x : ℕ) (p : SharePool) : SharePool :=
  refresh one { p with stake := p.stake + x, shares := p.shares + x * one / p.rate }

/-- The stake grows, and the rate is recomputed. -/
def donate (one x : ℕ) (p : SharePool) : SharePool :=
  refresh one { p with stake := p.stake + x }

/-- What `a` shares are worth at the stored rate. -/
def worth (one a : ℕ) (p : SharePool) : ℕ := a * p.rate / one

/-- Shares leave with their worth; the rate is not recomputed. -/
def redeem (one a : ℕ) (p : SharePool) : SharePool :=
  { p with stake := p.stake - p.worth one a, shares := p.shares - a }

/-- Shares leave with nothing. -/
def burn (a : ℕ) (p : SharePool) : SharePool := { p with shares := p.shares - a }

/-- **The pool can honour its rate.** -/
def Backed (one : ℕ) (p : SharePool) : Prop := p.shares * p.rate ≤ p.stake * one

/-- Backed, or empty with the fallback rate. -/
def Sound (one : ℕ) (p : SharePool) : Prop := p.Backed one ∨ p.stake = 0 ∧ p.rate = one

theorem Backed.worth_le {p : SharePool} (h : p.Backed one) {a : ℕ}
    (ha : a ≤ p.shares) : p.worth one a ≤ p.stake := by
  refine Nat.div_le_of_le_mul ?_
  rw [Nat.mul_comm one]
  exact (Nat.mul_le_mul_right _ ha).trans h

theorem backed_refresh {p : SharePool} (h : p.stake ≠ 0 ∨ p.shares = 0) :
    (p.refresh one).Backed one := by
  unfold Backed refresh ratio
  dsimp only
  split_ifs with hz
  · rcases hz with hz | hz
    · simp [h.resolve_left (not_not_intro hz)]
    · simp [hz]
  · exact Nat.mul_div_le _ _

theorem sound_refresh (p : SharePool) : (p.refresh one).Sound one := by
  by_cases h : p.stake ≠ 0 ∨ p.shares = 0
  · exact .inl (backed_refresh h)
  · rw [not_or, not_not] at h
    refine .inr ⟨h.1, ?_⟩
    simp [refresh, ratio, h.1]

/-- **A backed rate is at most the current one.** -/
theorem Backed.le_refresh {p : SharePool} (h : p.Backed one) (hone : 0 < one)
    (hr : one ≤ p.rate) (hs : p.shares ≠ 0 ∨ p.rate = one) : p.rate ≤ (p.refresh one).rate := by
  unfold refresh ratio
  dsimp only
  split_ifs with hz
  · rcases hs with hs | hs
    · have hstake : p.stake = 0 := hz.resolve_right hs
      have hpos : 0 < p.shares * p.rate := Nat.mul_pos (Nat.pos_of_ne_zero hs) (by omega)
      have hb : p.shares * p.rate ≤ p.stake * one := h
      rw [hstake] at hb
      omega
    · exact hs.le
  · rw [not_or] at hz
    rw [Nat.le_div_iff_mul_le (Nat.pos_of_ne_zero hz.2), Nat.mul_comm]
    exact h

/-- Buying shares keeps a pool backed at the rate they were bought at. -/
theorem Backed.buy {p : SharePool} (h : p.Backed one) (x : ℕ) :
    Backed one { p with stake := p.stake + x, shares := p.shares + x * one / p.rate } := by
  have hx : x * one / p.rate * p.rate ≤ x * one := Nat.div_mul_le_self _ _
  unfold Backed at h ⊢
  dsimp only
  rw [Nat.add_mul, Nat.add_mul]
  omega

/-- **Buying and selling back gains nothing and loses little**: what `x` buys at
the current rate is worth, at the rate that the purchase leaves, at most `x`, and
less than `x` by less than the price of a share. -/
theorem deposit_worth {p : SharePool} (current : p.rate = p.stake * one / p.shares)
    (hrate : 0 < p.rate) (x : ℕ) :
    x * one / p.rate * (p.deposit one x).rate ≤ x * one ∧
      x * one < x * one / p.rate * (p.deposit one x).rate + p.rate := by
  have hshares : 0 < p.shares := by
    rw [Nat.pos_iff_ne_zero]
    rintro hz
    rw [current, hz, Nat.div_zero] at hrate
    omega
  set bought := x * one / p.rate with hbought
  have hstake : p.stake ≠ 0 := by
    rintro hz
    rw [current, hz, Nat.zero_mul, Nat.zero_div] at hrate
    omega
  have hgrown : 0 < p.shares + bought := Nat.add_pos_left hshares bought
  have hnew : (p.deposit one x).rate = (p.stake + x) * one / (p.shares + bought) := by
    show ratio one (p.stake + x) (p.shares + bought) = _
    exact if_neg (not_or.2 ⟨fun h => hstake (Nat.add_eq_zero_iff.1 h).1, Nat.ne_of_gt hgrown⟩)
  rw [hnew]
  set rate' := (p.stake + x) * one / (p.shares + bought) with hrate'
  have hbacked : p.shares * p.rate ≤ p.stake * one := by
    rw [current]
    exact Nat.mul_div_le _ _
  have hbuy : (p.shares + bought) * p.rate ≤ (p.stake + x) * one := Backed.buy hbacked x
  have hle : p.rate ≤ rate' := by
    rw [hrate', Nat.le_div_iff_mul_le hgrown, Nat.mul_comm]
    exact hbuy
  constructor
  · rcases hle.eq_or_lt with heq | hlt
    · rw [← heq]
      exact Nat.div_mul_le_self _ _
    · -- the new rate exceeds the exact ratio before, so the old shares keep the old stake
      have hkept : p.stake * one < p.shares * rate' := by
        calc p.stake * one < p.shares * (p.rate + 1) := by
              rw [current]
              exact Nat.lt_mul_div_succ _ hshares
          _ ≤ p.shares * rate' := Nat.mul_le_mul_left _ hlt
      have hall : (p.shares + bought) * rate' ≤ (p.stake + x) * one := Nat.mul_div_le _ _
      rw [Nat.add_mul, Nat.add_mul] at hall
      omega
  · have hfloor : x * one < p.rate * bought + p.rate := by
      rw [← Nat.mul_succ]
      exact Nat.lt_mul_div_succ _ hrate
    have hmono : p.rate * bought ≤ bought * rate' := by
      rw [Nat.mul_comm]
      exact Nat.mul_le_mul_left _ hle
    omega

theorem Backed.give {p : SharePool} (h : p.Backed one) (x : ℕ) :
    Backed one { p with stake := p.stake + x } := by
  unfold Backed at h ⊢
  dsimp only
  rw [Nat.add_mul]
  omega

theorem Backed.burn {p : SharePool} (h : p.Backed one) (a : ℕ) : (p.burn a).Backed one :=
  (Nat.mul_le_mul_right _ (Nat.sub_le _ _)).trans h

/-- **Redeeming at a backed rate keeps the pool backed**, whatever was rounded
away staying in the pool. -/
theorem Backed.redeem {p : SharePool} (h : p.Backed one) {a : ℕ}
    (ha : a ≤ p.shares) : (p.redeem one a).Backed one := by
  have hw : p.worth one a * one ≤ a * p.rate := Nat.div_mul_le_self _ _
  have hle : p.worth one a ≤ p.stake := h.worth_le ha
  obtain ⟨d, hd⟩ := Nat.exists_eq_add_of_le ha
  obtain ⟨t, ht⟩ := Nat.exists_eq_add_of_le hle
  unfold Backed at h ⊢
  unfold SharePool.redeem
  dsimp only
  rw [hd, ht, Nat.add_mul, Nat.add_mul] at h
  rw [hd, ht, Nat.add_sub_cancel_left, Nat.add_sub_cancel_left]
  omega

/-- A reconciliation: nothing, or the rate recomputed over at most the stake
recorded. -/
inductive Reconcile (one : ℕ) (p : SharePool) : SharePool → Prop
  | skip : Reconcile one p p
  | full {stake : ℕ} (le : stake ≤ p.stake) : Reconcile one p (refresh one { p with stake })

/-- A reconciliation that finds no loss. -/
inductive Settle (one : ℕ) (p : SharePool) : SharePool → Prop
  | skip : Settle one p p
  | full : Settle one p (refresh one p)

/-- **One transaction**, whose reconciliations are taken from `R`. -/
inductive Tx (one : ℕ) (R : SharePool → SharePool → Prop) (p : SharePool) : SharePool → Prop
  | check {q : SharePool} (h : R p q) : Tx one R p q
  | deposit {q : SharePool} (h : R p q) (x : ℕ) (hr : q.rate ≠ 0) : Tx one R p (q.deposit one x)
  | donate {q : SharePool} (h : R p q) (x : ℕ) : Tx one R p (q.donate one x)
  | burn (a : ℕ) {q : SharePool} (ha : a ≤ p.shares) (h : R (p.burn a) q) : Tx one R p q
  | redeem {q q' : SharePool} (a : ℕ) (h : R p q) (ha : a ≤ q.shares)
      (hw : q.worth one a ≤ q.stake) (h' : R (q.redeem one a) q') : Tx one R p q'

theorem Reconcile.sound {p q : SharePool} (h : Reconcile one p q) (hp : p.Sound one) :
    q.Sound one := by
  cases h with
  | skip => exact hp
  | full le => exact sound_refresh _

theorem Sound.redeem {p : SharePool} (hp : p.Sound one) {a : ℕ}
    (ha : a ≤ p.shares) : (p.redeem one a).Sound one := by
  rcases hp with hp | ⟨hs, hr⟩
  · exact .inl (hp.redeem ha)
  · exact .inr ⟨by simp [SharePool.redeem, hs], hr⟩

/-- **A pool with losses stays sound.** -/
theorem Tx.sound {p q : SharePool} (h : Tx one (Reconcile one) p q) (hp : p.Sound one) :
    q.Sound one := by
  cases h with
  | check h => exact h.sound hp
  | deposit h x hr => exact sound_refresh _
  | donate h x => exact sound_refresh _
  | burn a ha h =>
    refine h.sound ?_
    rcases hp with hp | hp
    · exact .inl (hp.burn a)
    · exact .inr hp
  | redeem a h ha hw h' => exact h'.sound ((h.sound hp).redeem ha)

/-- What a pool without losses keeps: it is backed, at a rate of at least one
that is one while there are no shares. -/
structure Grown (one : ℕ) (p : SharePool) : Prop where
  backed : p.Backed one
  one_le : one ≤ p.rate
  start : p.shares = 0 → p.rate = one

theorem Grown.refresh {p : SharePool} (hb : p.Backed one) (hone : 0 < one) (hr : one ≤ p.rate)
    (hs : p.shares ≠ 0 ∨ p.rate = one) :
    (p.refresh one).Grown one ∧ p.rate ≤ (p.refresh one).rate := by
  have hle := hb.le_refresh hone hr hs
  refine ⟨⟨backed_refresh ?_, hr.trans hle, fun h => ?_⟩, hle⟩
  · by_cases h0 : p.shares = 0
    · exact .inr h0
    · refine .inl fun hstake => ?_
      have hpos : 0 < p.shares * p.rate := Nat.mul_pos (Nat.pos_of_ne_zero h0) (by omega)
      have hb' : p.shares * p.rate ≤ p.stake * one := hb
      rw [hstake] at hb'
      omega
  · have h0 : p.shares = 0 := h
    simp [SharePool.refresh, ratio, h0]

theorem Settle.grown {p q : SharePool} (h : Settle one p q) (hb : p.Backed one) (hone : 0 < one)
    (hr : one ≤ p.rate) (hs : p.shares ≠ 0 ∨ p.rate = one) :
    q.Grown one ∧ p.rate ≤ q.rate ∧ q.shares = p.shares := by
  cases h with
  | skip => exact ⟨⟨hb, hr, fun h => hs.resolve_left (not_not_intro h)⟩, le_rfl, rfl⟩
  | full => exact ⟨(Grown.refresh hb hone hr hs).1, (Grown.refresh hb hone hr hs).2, rfl⟩

theorem Grown.positive {p : SharePool} (h : p.Grown one) : p.shares ≠ 0 ∨ p.rate = one := by
  by_cases h0 : p.shares = 0
  · exact .inr (h.start h0)
  · exact .inl h0

/-- **Without losses the rate never falls**, as long as a pool that has shares
keeps some. -/
theorem Tx.le_rate {p q : SharePool} (h : Tx one (Settle one) p q) (hone : 0 < one)
    (hp : p.Grown one) (hkeep : p.shares ≠ 0 → q.shares ≠ 0) :
    q.Grown one ∧ p.rate ≤ q.rate := by
  cases h with
  | check h =>
    obtain ⟨hg, hle, -⟩ := h.grown hp.backed hone hp.one_le hp.positive
    exact ⟨hg, hle⟩
  | @deposit q h x hr =>
    obtain ⟨hg, hle, -⟩ := h.grown hp.backed hone hp.one_le hp.positive
    obtain ⟨hg', hle'⟩ := Grown.refresh (hg.backed.buy x) hone hg.one_le
      (hg.positive.imp_left fun hs h0 => hs (Nat.add_eq_zero_iff.1 h0).1)
    exact ⟨hg', hle.trans hle'⟩
  | @donate q h x =>
    obtain ⟨hg, hle, -⟩ := h.grown hp.backed hone hp.one_le hp.positive
    obtain ⟨hg', hle'⟩ := Grown.refresh (hg.backed.give x) hone hg.one_le hg.positive
    exact ⟨hg', hle.trans hle'⟩
  | burn a ha h =>
    have hsame : q.shares = (p.burn a).shares := by cases h <;> rfl
    have hs : (p.burn a).shares ≠ 0 ∨ p.rate = one :=
      hp.positive.imp_left fun h0 => hsame ▸ hkeep h0
    obtain ⟨hg, hle, -⟩ := h.grown (hp.backed.burn a) hone hp.one_le hs
    exact ⟨hg, hle⟩
  | @redeem q₁ _ a h ha hw h' =>
    obtain ⟨hg, hle, he⟩ := h.grown hp.backed hone hp.one_le hp.positive
    have hsame : q.shares = (q₁.redeem one a).shares := by cases h' <;> rfl
    have hs : (q₁.redeem one a).shares ≠ 0 ∨ q₁.rate = one := by
      by_cases h0 : p.shares = 0
      · exact .inr (hg.start (he.trans h0))
      · exact .inl (hsame ▸ hkeep h0)
    obtain ⟨hg', hle', -⟩ := h'.grown (hg.backed.redeem ha) hone hg.one_le hs
    exact ⟨hg', hle.trans hle'⟩

end SharePool
end Lib
end BabyLst
