/-
# Staking and selling back

What `execute_stake` mints for a payment (`decimal_division`), valued at the rate
that the stake itself leaves behind (`update_lst_exchange_rate`,
`decimal_multiplication`).  Three roundings meet: of the rate before, which is a
divisor and so rounds the mint up, of the mint, and of the rate after.

The first can never be cashed in.  Where the new rate is the old one, the mint
was rounded down against it; where it is above, it is above the exact ratio
before, so the tokens outstanding keep all of the stake there was and only what
is left of the payment is behind the minted ones
(`SharePool.deposit_worth`).
-/

import BabyLst.Hub.Slashing

namespace BabyLst
namespace Hub

open Lib

/-- **Staking is no profit, and costs at most one token unit**: at the rate after
the stake, the minted tokens are worth no more than was paid, and less than the
payment by less than the price of one token unit and one coin. -/
theorem stake_is_worth_its_payment {s s' : State} {supply requested payment minted : ℕ}
    {rate : Decimal} (fits : payment < 2 ^ 128)
    (before : Decimal.fromRatio s.totalStakedAmount (supply + requested) = .ok rate)
    (positive : 0 < rate.atomics) (mint : decimalDivision payment rate = .ok minted)
    (update : State.updateLstExchangeRate
      { s with totalStakedAmount := s.totalStakedAmount + payment } (supply + minted) requested =
        .ok s') :
    ∃ worth, decimalMultiplication minted s'.lstExchangeRate = .ok worth ∧ worth ≤ payment ∧
      (payment - worth) * DECIMAL_FRACTIONAL < rate.atomics + DECIMAL_FRACTIONAL := by
  obtain ⟨-, -, hminted⟩ := decimalDivision_eq_ok.1 mint
  obtain ⟨-, -, hrate⟩ := Decimal.fromRatio_eq_ok.1 before
  let pool : SharePool := ⟨s.totalStakedAmount, supply + requested, rate.atomics⟩
  have hworth := SharePool.deposit_worth (p := pool) (congrArg Decimal.atomics hrate) positive
    payment
  have hafter : (pool.deposit DECIMAL_FRACTIONAL payment).rate = s'.lstExchangeRate.atomics := by
    have hsum : supply + requested + minted = supply + minted + requested := by omega
    rw [State.updateLstExchangeRate_ok update, rateOf]
    simp only [pool, SharePool.deposit, SharePool.refresh, hminted, hsum]
  simp only [pool, hminted] at hworth
  rw [hafter] at hworth
  obtain ⟨hle, hlt⟩ := hworth
  set value := minted * s'.lstExchangeRate.atomics with hvalue
  have hfloor : value < value / DECIMAL_FRACTIONAL * DECIMAL_FRACTIONAL + DECIMAL_FRACTIONAL :=
    Nat.lt_div_mul_add DECIMAL_FRACTIONAL_pos
  have hpaid : s'.lstExchangeRate.mulFloor minted ≤ payment := by
    refine Nat.div_le_of_le_mul ?_
    rw [Nat.mul_comm DECIMAL_FRACTIONAL]
    exact hle
  refine ⟨_, decimalMultiplication_eq_ok.2 ⟨hpaid.trans_lt fits, rfl⟩, hpaid, ?_⟩
  have hsub : (payment - s'.lstExchangeRate.mulFloor minted) * DECIMAL_FRACTIONAL =
      payment * DECIMAL_FRACTIONAL - value / DECIMAL_FRACTIONAL * DECIMAL_FRACTIONAL :=
    Nat.sub_mul _ _ _
  omega

/-- Seven coins at the rate 1.666…, a pool of 5 coins for 3 tokens: 4 tokens are
minted and worth 6 coins. -/
theorem stake_is_worth_its_payment_sample :
    ∃ worth, decimalMultiplication 4 ⟨12 * DECIMAL_FRACTIONAL / 7⟩ = .ok worth ∧ worth ≤ 7 ∧
      (7 - worth) * DECIMAL_FRACTIONAL < 5 * DECIMAL_FRACTIONAL / 3 + DECIMAL_FRACTIONAL := by
  let s : State := ⟨Decimal.one, 5, 0, 0, 0, 0⟩
  have before : Decimal.fromRatio s.totalStakedAmount (3 + 0) =
    .ok ⟨5 * DECIMAL_FRACTIONAL / 3⟩ := by decide +kernel
  have mint : decimalDivision 7 ⟨5 * DECIMAL_FRACTIONAL / 3⟩ = .ok 4 := by decide +kernel
  have update : State.updateLstExchangeRate
    { s with totalStakedAmount := s.totalStakedAmount + 7 } (3 + 4) 0 =
      .ok ⟨⟨12 * DECIMAL_FRACTIONAL / 7⟩, 12, 0, 0, 0, 0⟩ := by decide +kernel
  exact stake_is_worth_its_payment (by decide) before (by decide +kernel) mint update

end Hub
end BabyLst
