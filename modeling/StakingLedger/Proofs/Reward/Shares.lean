import Mathlib.Tactic.Linarith
import Mathlib.Tactic.Positivity
import StakingLedger.Proofs.Answer
import StakingLedger.Reward

/-! # The shares of a reward curve

The parameters of an accepted curve keep its arithmetic far from the limits of its words. The
time component is then the exact interpolation between the start and the target share, and
the bonus the exact proportion of the longest period's bonus. Neither exceeds the whole.
-/

namespace StakingLedger

/-- What follows a refusal is only reached where nothing is refused. -/
theorem refuse_eq_ok_iff {α : Type} {p : Prop} [Decidable p] {e : LedgerError}
    {f : PUnit → Answer α} {x : Answer α} {a : α} :
    (if p then throw e >>= f else x) = .ok a ↔ ¬ p ∧ x = .ok a := by
  split
  next hp => exact iff_of_false nofun fun h => h.1 hp
  next hp => exact (and_iff_right hp).symm

theorem refused_eq_ok_iff {p : Prop} [Decidable p] {e : LedgerError} :
    (if p then throw e else pure () : Answer Unit) = .ok () ↔ ¬ p := by
  split
  next hp => exact iff_of_false nofun (not_not.mpr hp)
  next hp => exact iff_of_true rfl hp

theorem checked_eq_ok_iff {α : Type} {check : Answer Unit} {x : Answer α} {a : α} :
    (check >>= fun _ => x) = .ok a ↔ check = .ok () ∧ x = .ok a := by
  rw [bind_eq_ok_iff]
  exact ⟨fun ⟨_, hcheck, hx⟩ => ⟨hcheck, hx⟩, fun ⟨hcheck, hx⟩ => ⟨(), hcheck, hx⟩⟩

theorem checkShare_eq_ok_iff {field : String} {share : UInt64} :
    checkShare field share = .ok () ↔ share.toNat ≤ shareDenominator := by
  unfold checkShare
  split
  next hlarge => exact iff_of_false (by simp) (Nat.not_le.mpr hlarge)
  next hfits => exact iff_of_true rfl (Nat.le_of_not_lt hfits)

/-! ## Arithmetic in 128 bits -/

/-- A number that fits in signed 128 bits is kept as it is. -/
theorem wrapSigned128_eq_self {n : Int} (hlow : -(2 : Int) ^ 127 ≤ n) (hhigh : n < 2 ^ 127) :
    wrapSigned128 n = n := by
  have hsize : (doubleWordSize : Int) = 2 ^ 128 := by decide +kernel
  unfold wrapSigned128
  rw [Int.bmod_eq_of_le] <;> rw [hsize] <;> omega

/-- A change of shares times a span of time stays within signed 128 bits. -/
theorem mul_within_signed128 (delta elapsed : Int) (hlow : -(shareDenominator : Int) ≤ delta)
    (hhigh : delta ≤ shareDenominator) (hpositive : 0 ≤ elapsed) (hword : elapsed < UInt64.size) :
    -(2 : Int) ^ 127 ≤ delta * elapsed ∧ delta * elapsed < 2 ^ 127 := by
  have hleast := mul_le_mul_of_nonneg_right hlow hpositive
  have hmost := mul_le_mul_of_nonneg_right hhigh hpositive
  have hdenominator : (shareDenominator : Int) = 1000000 := rfl
  have hsize : (UInt64.size : Int) = 18446744073709551616 := rfl
  rw [hdenominator] at hleast hmost
  omega

/-- The part of a gain that has accrued is at most the gain. -/
theorem tdiv_le_of_nonneg {delta elapsed span : Int} (hdelta : 0 ≤ delta)
    (helapsed : 0 ≤ elapsed) (hle : elapsed < span) :
    0 ≤ (delta * elapsed).tdiv span ∧ (delta * elapsed).tdiv span ≤ delta := by
  have hspan : 0 < span := helapsed.trans_lt hle
  have hpart : 0 ≤ delta * elapsed := mul_nonneg hdelta helapsed
  have hwhole : delta * elapsed ≤ delta * span := mul_le_mul_of_nonneg_left hle.le hdelta
  rw [Int.tdiv_eq_ediv_of_nonneg hpart]
  exact ⟨Int.ediv_nonneg hpart hspan.le, Int.ediv_le_of_le_mul hspan hwhole⟩

/-- The part of a change that has accrued lies between nothing and the whole change. -/
theorem tdiv_between (delta elapsed span : Int) (helapsed : 0 ≤ elapsed) (hle : elapsed < span) :
    min 0 delta ≤ (delta * elapsed).tdiv span ∧ (delta * elapsed).tdiv span ≤ max 0 delta := by
  rcases le_total 0 delta with hdelta | hdelta
  · have h := tdiv_le_of_nonneg hdelta helapsed hle
    omega
  · have h := tdiv_le_of_nonneg (Int.neg_nonneg.mpr hdelta) helapsed hle
    rw [Int.neg_mul, Int.neg_tdiv] at h
    omega

/-- A proportion of a whole is at most the whole. -/
theorem proportion_le (whole : Nat) {part span : Nat} (h : part ≤ span) :
    whole * part / span ≤ whole := by
  apply Nat.div_le_of_le_mul
  rw [Nat.mul_comm]
  exact Nat.mul_le_mul_right whole h

theorem toNat_saturatingSub (a b : UInt64) : (saturatingSub a b).toNat = a.toNat - b.toNat := by
  unfold saturatingSub
  split
  next h => exact UInt64.toNat_sub_of_le _ _ h
  next h =>
    have hlt := UInt64.lt_iff_toNat_lt.mp (UInt64.not_le.mp h)
    rw [UInt64.toNat_zero, Nat.sub_eq_zero_of_le hlt.le]

namespace RewardConfig

/-! ## Accepted parameters -/

/-- The parameters of a curve fit each other: the durations are in order and not zero, the
times are in order, and each share is a part of the whole. -/
structure Valid (c : RewardConfig) : Prop where
  minPositive : 0 < c.minStakeDuration.toNat
  durations : c.minStakeDuration.toNat < c.maxStakeDuration.toNat
  period : c.stakePeriodRewardShare.toNat ≤ shareDenominator
  start : c.startRewardShare.toNat ≤ shareDenominator
  target : c.targetRewardShare.toNat ≤ shareDenominator
  times : c.startRewardTime.toNat ≤ c.targetRewardTime.toNat

theorem validate_eq_ok_iff {c : RewardConfig} : c.validate = .ok () ↔ c.Valid := by
  unfold validate
  rw [refuse_eq_ok_iff, refuse_eq_ok_iff, checked_eq_ok_iff, checked_eq_ok_iff, checked_eq_ok_iff,
    refused_eq_ok_iff, checkShare_eq_ok_iff, checkShare_eq_ok_iff, checkShare_eq_ok_iff,
    ← UInt64.toNat_inj, UInt64.le_iff_toNat_le, UInt64.lt_iff_toNat_lt, UInt64.toNat_zero]
  constructor
  · rintro ⟨hmin, hdurations, hperiod, hstart, htarget, htimes⟩
    exact ⟨Nat.pos_of_ne_zero hmin, Nat.lt_of_not_le hdurations, hperiod, hstart, htarget,
      Nat.le_of_not_lt htimes⟩
  · intro h
    exact ⟨h.minPositive.ne', Nat.not_le.mpr h.durations, h.period, h.start, h.target,
      Nat.not_lt.mpr h.times⟩

variable {c : RewardConfig}

/-! ## The time component -/

/-- The time component between start and target time, in unbounded integers. -/
def interpolated (c : RewardConfig) (start : UInt64) : Int :=
  c.startRewardShare.toNat +
    (((c.targetRewardShare.toNat : Int) - c.startRewardShare.toNat) *
      (start.toNat - c.startRewardTime.toNat)).tdiv
        (c.targetRewardTime.toNat - c.startRewardTime.toNat)

theorem interpolated_between {start : UInt64} (hafter : c.startRewardTime < start)
    (hbefore : start < c.targetRewardTime) :
    min (c.startRewardShare.toNat : Int) c.targetRewardShare.toNat ≤ c.interpolated start ∧
      c.interpolated start ≤ max (c.startRewardShare.toNat : Int) c.targetRewardShare.toNat := by
  rw [UInt64.lt_iff_toNat_lt] at hafter hbefore
  have hpart := tdiv_between
    (c.targetRewardShare.toNat - c.startRewardShare.toNat)
    (start.toNat - c.startRewardTime.toNat)
    (c.targetRewardTime.toNat - c.startRewardTime.toNat) (by omega) (by omega)
  unfold interpolated
  omega

/-- Between start and target time the arithmetic of an accepted curve stays within 128 bits, and
the time component is the exact interpolation. -/
theorem timeShare_eq_interpolated (hvalid : c.Valid) {start : UInt64}
    (hafter : c.startRewardTime < start) (hbefore : start < c.targetRewardTime) :
    ((c.timeShare start).toNat : Int) = c.interpolated start := by
  have hbetween := interpolated_between hafter hbefore
  have hstart := hvalid.start
  have htarget := hvalid.target
  have hpast : ¬ (start ≤ c.startRewardTime ∨ c.targetRewardTime ≤ c.startRewardTime) :=
    not_or.mpr ⟨UInt64.not_le.mpr hafter, UInt64.not_le.mpr (UInt64.lt_trans hafter hbefore)⟩
  unfold timeShare
  rw [if_neg hpast, if_neg (UInt64.not_le.mpr hbefore)]
  dsimp only
  rw [UInt64.toNat_sub_of_le _ _ (UInt64.le_of_lt hafter),
    UInt64.toNat_sub_of_le _ _ (UInt64.le_of_lt (UInt64.lt_trans hafter hbefore))]
  rw [UInt64.lt_iff_toNat_lt] at hafter hbefore
  rw [Nat.cast_sub hafter.le, Nat.cast_sub (hafter.trans hbefore).le]
  have hproduct := mul_within_signed128
    (c.targetRewardShare.toNat - c.startRewardShare.toNat)
    (start.toNat - c.startRewardTime.toNat)
    (by omega) (by omega) (by omega) (by have := start.toNat_lt_size; omega)
  rw [wrapSigned128_eq_self hproduct.1 hproduct.2]
  change ((if 0 ≤ wrapSigned128 (c.interpolated start) ∧
    wrapSigned128 (c.interpolated start) < UInt64.size then
      UInt64.ofNat (wrapSigned128 (c.interpolated start)).toNat else 0).toNat : Int) = _
  have hdenominator : shareDenominator = 1000000 := rfl
  have hfits : 0 ≤ c.interpolated start ∧ c.interpolated start < UInt64.size := by
    have hsize : UInt64.size = 18446744073709551616 := rfl
    omega
  rw [wrapSigned128_eq_self (by omega) (by omega), if_pos hfits,
    UInt64.toNat_ofNat_of_lt' (by omega), Int.toNat_of_nonneg hfits.1]

/-- Up to the start time, or where the curve has no span, the component stands at an end. -/
theorem timeShare_of_outside {start : UInt64}
    (h : ¬ (c.startRewardTime < start ∧ start < c.targetRewardTime)) :
    c.timeShare start = c.startRewardShare ∨ c.timeShare start = c.targetRewardShare := by
  unfold timeShare
  split
  next =>
    split
    · exact .inl rfl
    · exact .inr rfl
  next hpast =>
    have hafter : c.startRewardTime < start := UInt64.not_le.mp (not_or.mp hpast).1
    rw [if_pos (UInt64.not_lt.mp fun hbefore => h ⟨hafter, hbefore⟩)]
    exact .inr rfl

/-- The time component of an accepted curve is at most the whole. -/
theorem timeShare_le (hvalid : c.Valid) (start : UInt64) :
    (c.timeShare start).toNat ≤ shareDenominator := by
  have hstart := hvalid.start
  have htarget := hvalid.target
  by_cases h : c.startRewardTime < start ∧ start < c.targetRewardTime
  · have hexact := timeShare_eq_interpolated hvalid h.1 h.2
    have hbetween := interpolated_between h.1 h.2
    omega
  · rcases timeShare_of_outside h with h | h
    · exact h ▸ hstart
    · exact h ▸ htarget

/-! ## The bonus -/

/-- What a duration has above the shortest period, up to the longest. -/
def excess (c : RewardConfig) (duration : UInt64) : Nat :=
  min (max duration.toNat c.minStakeDuration.toNat) c.maxStakeDuration.toNat -
    c.minStakeDuration.toNat

theorem excess_le (duration : UInt64) :
    c.excess duration ≤ c.maxStakeDuration.toNat - c.minStakeDuration.toNat := by
  unfold excess
  omega

theorem toNat_excess (hvalid : c.Valid) (duration : UInt64) :
    (min (max duration c.minStakeDuration) c.maxStakeDuration - c.minStakeDuration).toNat =
      c.excess duration := by
  have hdurations := hvalid.durations
  have hclamped : (min (max duration c.minStakeDuration) c.maxStakeDuration).toNat =
      min (max duration.toNat c.minStakeDuration.toNat) c.maxStakeDuration.toNat := by
    rw [UInt64.toNat_min, UInt64.toNat_max]
  have hle : c.minStakeDuration ≤ min (max duration c.minStakeDuration) c.maxStakeDuration := by
    rw [UInt64.le_iff_toNat_le, hclamped]
    omega
  rw [UInt64.toNat_sub_of_le _ _ hle, hclamped, excess]

/-- An accepted curve spans some time from the shortest stake to the longest. -/
theorem Valid.span (hvalid : c.Valid) :
    (saturatingSub c.maxStakeDuration c.minStakeDuration).toNat =
        c.maxStakeDuration.toNat - c.minStakeDuration.toNat ∧
      saturatingSub c.maxStakeDuration c.minStakeDuration ≠ 0 := by
  have hdurations := hvalid.durations
  have hspan := toNat_saturatingSub c.maxStakeDuration c.minStakeDuration
  refine ⟨hspan, fun hzero => ?_⟩
  rw [hzero, UInt64.toNat_zero] at hspan
  omega

/-- The bonus of an accepted curve is the exact proportion of the longest period's bonus. -/
theorem periodShare_eq_proportion (hvalid : c.Valid) (duration : UInt64) :
    (c.periodShare duration).toNat = c.stakePeriodRewardShare.toNat * c.excess duration /
      (c.maxStakeDuration.toNat - c.minStakeDuration.toNat) := by
  obtain ⟨hspan, hsome⟩ := hvalid.span
  have hbonus : c.stakePeriodRewardShare.toNat * c.excess duration /
      (c.maxStakeDuration.toNat - c.minStakeDuration.toNat) < UInt64.size :=
    (proportion_le _ (c.excess_le duration)).trans_lt c.stakePeriodRewardShare.toNat_lt_size
  unfold periodShare
  dsimp only
  rw [if_neg hsome, toNat_excess hvalid, hspan, if_pos hbonus, UInt64.toNat_ofNat_of_lt' hbonus]

/-- The bonus of an accepted curve is at most the bonus of the longest period. -/
theorem periodShare_le (hvalid : c.Valid) (duration : UInt64) :
    (c.periodShare duration).toNat ≤ c.stakePeriodRewardShare.toNat := by
  rw [periodShare_eq_proportion hvalid]
  exact proportion_le _ (c.excess_le duration)

end RewardConfig

end StakingLedger
