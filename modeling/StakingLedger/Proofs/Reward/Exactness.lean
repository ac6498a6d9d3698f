import StakingLedger.Proofs.Reward.Shares

/-! # Rewards are exact

The reward of an accepted curve is computed in two checked products of 128 bits, a division and
a narrowing to a word. None of them loses anything that could have been paid: the first product
always fits, and where the second one does not, the quotient is above every word.
-/

namespace StakingLedger.RewardConfig

variable {c : RewardConfig}

/-- What the shares of a curve come to, in unbounded integers and rounded down: the annual share
of the weight, prorated over the duration. -/
def exactReward (c : RewardConfig) (duration start weight : UInt64) : Nat :=
  weight.toNat * ((c.timeShare start).toNat + (c.periodShare duration).toNat) * duration.toNat /
    (1000000 * 31536000)

theorem share_le (hvalid : c.Valid) (duration start : UInt64) :
    c.share duration start ≤ 2 * shareDenominator := by
  have htime := timeShare_le hvalid start
  have hperiod := periodShare_le hvalid duration
  have hmost := hvalid.period
  unfold share
  omega

/-- The yearly amount always fits in 128 bits. -/
theorem mulWithin128_yearly (hvalid : c.Valid) (duration start weight : UInt64) :
    mulWithin128 weight.toNat (c.share duration start) =
      some (weight.toNat * c.share duration start) := by
  have hweight := weight.toNat_lt_size
  have hshare := share_le hvalid duration start
  have hfits : weight.toNat * c.share duration start < doubleWordSize := by
    calc weight.toNat * c.share duration start
        ≤ weight.toNat * (2 * shareDenominator) := Nat.mul_le_mul_left _ hshare
      _ < UInt64.size * (2 * shareDenominator) := Nat.mul_lt_mul_of_pos_right hweight (by decide)
      _ ≤ doubleWordSize := Nat.mul_le_mul_left _ (by decide)
  exact if_pos hfits

/-- What does not fit in 128 bits does not fit in a word when it is prorated either. -/
theorem size_le_of_doubleWordSize_le {total : Nat} (h : doubleWordSize ≤ total) :
    UInt64.size ≤ total / (shareDenominator * secondsPerYear) := by
  rw [Nat.le_div_iff_mul_le (by decide)]
  exact (Nat.mul_le_mul_left _ (by decide)).trans h

/-- The reward of an accepted curve is the exact one where it fits in a word, and an overflow
elsewhere. -/
theorem reward_eq_ite (hvalid : c.Valid) (duration start weight : UInt64) :
    c.reward duration start weight =
      if c.exactReward duration start weight < UInt64.size then
        .ok (UInt64.ofNat (c.exactReward duration start weight))
      else .error (.overflow (.reward weight duration)) := by
  have hexact : c.exactReward duration start weight =
      weight.toNat * c.share duration start * duration.toNat /
        (shareDenominator * secondsPerYear) := rfl
  simp only [reward, mulWithin128_yearly hvalid, Option.bind_eq_bind, Option.bind_some]
  unfold mulWithin128
  by_cases hfits : weight.toNat * c.share duration start * duration.toNat < doubleWordSize
  · rw [if_pos hfits, hexact]
  · have hlarge := size_le_of_doubleWordSize_le (Nat.le_of_not_lt hfits)
    rw [if_neg hfits, if_neg (by rw [hexact]; exact Nat.not_lt.mpr hlarge)]

/-- An accepted curve gives a reward just where the exact one fits in a word, and then it gives
that one; where it does not fit, and nowhere else, the answer is that the reward overflows. What
the pool holds plays no part in it. -/
theorem reward_exact (hvalid : c.validate = .ok ()) (duration start weight : UInt64) :
    (∀ r, c.reward duration start weight = .ok r ↔
      r.toNat = c.exactReward duration start weight) ∧
    ∀ e, c.reward duration start weight = .error e ↔
      UInt64.size ≤ c.exactReward duration start weight ∧
        e = .overflow (.reward weight duration) := by
  rw [reward_eq_ite (validate_eq_ok_iff.mp hvalid)]
  split
  next hfits =>
    refine ⟨fun r => ?_, fun e => iff_of_false nofun fun h => absurd h.1 (Nat.not_le.mpr hfits)⟩
    rw [Except.ok.injEq, ← UInt64.toNat_inj, UInt64.toNat_ofNat_of_lt' hfits, eq_comm]
  next hlarge =>
    have hsize := Nat.le_of_not_lt hlarge
    refine ⟨fun r => iff_of_false nofun fun h => ?_, fun e => ?_⟩
    · exact absurd r.toNat_lt_size (Nat.not_lt.mpr (h ▸ hsize))
    · rw [Except.error.injEq, and_iff_right hsize, eq_comm]

/-- With the default parameters, staking 2000 for a year from the start time earns 23 percent. No
word is large enough for what the greatest weight earns in the longest time there is, and the
second product leaves 128 bits there. -/
theorem reward_exact_default :
    ({} : RewardConfig).reward 31536000 1704067200 2000 = .ok 460 ∧
      ({} : RewardConfig).reward 18446744073709551615 1704067200 18446744073709551615 =
        .error (.overflow (.reward 18446744073709551615 18446744073709551615)) :=
  have hvalid : ({} : RewardConfig).validate = .ok () := by decide +kernel
  ⟨((reward_exact hvalid 31536000 1704067200 2000).1 460).mpr (by decide +kernel),
    ((reward_exact hvalid 18446744073709551615 1704067200 18446744073709551615).2 _).mpr
      ⟨by decide +kernel, rfl⟩⟩

end StakingLedger.RewardConfig
