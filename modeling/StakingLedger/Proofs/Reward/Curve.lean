import StakingLedger.Proofs.Reward.Exactness

/-! # The shape of a reward curve

The time component of an accepted curve moves from its start share to its target share and never
back, the bonus grows with the duration, and a reward grows with the weight and the duration.
Since a reward is rounded down only once, stakes that are kept apart never earn more than
together. No number that is met on the way leaves its 128 bits, and no share leaves its word.
-/

namespace StakingLedger

/-! ## Checked numbers -/

/-- A number, if signed 128 bits hold it. -/
def signed128? (n : Int) : Option Int :=
  if -(2 : Int) ^ 127 ≤ n ∧ n < 2 ^ 127 then some n else none

/-- A number as a word, if it is one. -/
def word? (n : Int) : Option UInt64 :=
  if 0 ≤ n ∧ n < UInt64.size then some (UInt64.ofNat n.toNat) else none

theorem signed128?_eq_self {n : Int} (h : -(2 : Int) ^ 127 ≤ n ∧ n < 2 ^ 127) :
    signed128? n = some n := if_pos h

theorem word?_toNat (a : UInt64) : word? a.toNat = some a := by
  have hsize : (a.toNat : Int) < UInt64.size := Int.ofNat_lt.mpr a.toNat_lt_size
  rw [word?, if_pos ⟨Int.natCast_nonneg _, hsize⟩, Int.toNat_natCast, UInt64.ofNat_toNat]

/-- The share between `first` and `last` after `elapsed` of `span`, step by step in checked
arithmetic. -/
def checkedInterpolation (first last elapsed span : Int) : Option UInt64 := do
  let delta ← signed128? (last - first)
  let product ← signed128? (delta * elapsed)
  let accrued ← signed128? (product.tdiv span)
  let share ← signed128? (first + accrued)
  word? share

/-- No step between two shares of the whole leaves signed 128 bits. -/
theorem checkedInterpolation_eq {first last elapsed span : Int}
    (hfirst : 0 ≤ first ∧ first ≤ shareDenominator) (hlast : 0 ≤ last ∧ last ≤ shareDenominator)
    (helapsed : 0 ≤ elapsed ∧ elapsed < UInt64.size) (hspan : elapsed < span) :
    checkedInterpolation first last elapsed span =
      word? (first + ((last - first) * elapsed).tdiv span) := by
  have hdenominator : shareDenominator = 1000000 := rfl
  have hproduct := mul_within_signed128 (last - first) elapsed (by omega) (by omega) helapsed.1
    helapsed.2
  have haccrued := tdiv_between (last - first) elapsed span helapsed.1 hspan
  have hdelta : signed128? (last - first) = some (last - first) := signed128?_eq_self (by omega)
  have hquotient : signed128? (((last - first) * elapsed).tdiv span) = some _ :=
    signed128?_eq_self (by omega)
  have hshare : signed128? (first + ((last - first) * elapsed).tdiv span) = some _ :=
    signed128?_eq_self (by omega)
  simp only [checkedInterpolation, Option.bind_eq_bind, hdelta, signed128?_eq_self hproduct,
    hquotient, hshare, Option.bind_some]

namespace RewardConfig

variable {c : RewardConfig} {start start' duration duration' : UInt64}

/-- The time component in checked arithmetic. It gives up where a number leaves signed 128 bits
and where the share is no word. -/
def checkedTimeShare (c : RewardConfig) (start : UInt64) : Option UInt64 :=
  if start ≤ c.startRewardTime ∨ c.targetRewardTime ≤ c.startRewardTime then
    some (if start < c.targetRewardTime then c.startRewardShare else c.targetRewardShare)
  else if c.targetRewardTime ≤ start then some c.targetRewardShare
  else checkedInterpolation c.startRewardShare.toNat c.targetRewardShare.toNat
    (start - c.startRewardTime).toNat (c.targetRewardTime - c.startRewardTime).toNat

/-- The bonus in checked arithmetic. It gives up where the product leaves 128 bits and where the
bonus is no word. -/
def checkedPeriodShare (c : RewardConfig) (duration : UInt64) : Option UInt64 :=
  let span := saturatingSub c.maxStakeDuration c.minStakeDuration
  if span = 0 then some 0
  else do
    let excess := min (max duration c.minStakeDuration) c.maxStakeDuration - c.minStakeDuration
    let product ← mulWithin128 c.stakePeriodRewardShare.toNat excess.toNat
    word? (product / span.toNat : Nat)

/-! ## The time component -/

theorem timeShare_early (hstart : start ≤ c.startRewardTime)
    (hbefore : start < c.targetRewardTime) : c.timeShare start = c.startRewardShare := by
  rw [timeShare, if_pos (.inl hstart), if_pos hbefore]

theorem timeShare_late (htarget : c.targetRewardTime ≤ start) :
    c.timeShare start = c.targetRewardShare := by
  have hnot : ¬ start < c.targetRewardTime := UInt64.not_lt.mpr htarget
  rw [timeShare, if_neg hnot, if_pos htarget, ite_self]

/-- The part of the interval from start to target time that has passed. -/
def elapsed (c : RewardConfig) (start : UInt64) : Int :=
  min (max start.toNat c.startRewardTime.toNat) c.targetRewardTime.toNat - c.startRewardTime.toNat

theorem elapsed_mono (h : start ≤ start') : c.elapsed start ≤ c.elapsed start' := by
  rw [UInt64.le_iff_toNat_le] at h
  unfold elapsed
  omega

/-- The change of the share from start to target time. -/
def shareChange (c : RewardConfig) : Int :=
  c.targetRewardShare.toNat - c.startRewardShare.toNat

/-- With an interval between start and target time the component is one formula at all times. -/
theorem timeShare_eq_accrued (hvalid : c.Valid) (hspan : c.startRewardTime < c.targetRewardTime)
    (start : UInt64) :
    ((c.timeShare start).toNat : Int) = c.startRewardShare.toNat +
      (c.shareChange * c.elapsed start).tdiv
        (c.targetRewardTime.toNat - c.startRewardTime.toNat) := by
  have hspan' := UInt64.lt_iff_toNat_lt.mp hspan
  by_cases hstart : start ≤ c.startRewardTime
  · have helapsed : c.elapsed start = 0 := by
      rw [UInt64.le_iff_toNat_le] at hstart
      unfold elapsed
      omega
    rw [timeShare_early hstart (UInt64.lt_of_le_of_lt hstart hspan), helapsed, mul_zero,
      Int.zero_tdiv, add_zero]
  by_cases htarget : c.targetRewardTime ≤ start
  · have helapsed : c.elapsed start = c.targetRewardTime.toNat - c.startRewardTime.toNat := by
      rw [UInt64.le_iff_toNat_le] at htarget
      unfold elapsed
      omega
    rw [timeShare_late htarget, helapsed, Int.mul_tdiv_cancel _ (by omega), shareChange]
    omega
  · have hafter := UInt64.not_le.mp hstart
    have hbefore := UInt64.not_le.mp htarget
    have helapsed : c.elapsed start = start.toNat - c.startRewardTime.toNat := by
      rw [UInt64.lt_iff_toNat_lt] at hafter hbefore
      unfold elapsed
      omega
    rw [timeShare_eq_interpolated hvalid hafter hbefore, helapsed]
    rfl

theorem timeShare_of_no_span (hspan : ¬ c.startRewardTime < c.targetRewardTime)
    (start : UInt64) : c.timeShare start =
      if start < c.targetRewardTime then c.startRewardShare else c.targetRewardShare := by
  rw [timeShare, if_pos (.inr (UInt64.not_lt.mp hspan))]

/-- The component moves from the start share to the target share and never back. -/
theorem timeShare_directed (hvalid : c.Valid) (h : start ≤ start') :
    (c.startRewardShare ≤ c.targetRewardShare → c.timeShare start ≤ c.timeShare start') ∧
      (c.targetRewardShare ≤ c.startRewardShare → c.timeShare start' ≤ c.timeShare start) := by
  by_cases hspan : c.startRewardTime < c.targetRewardTime
  · have hpositive : 0 < (c.targetRewardTime.toNat : Int) - c.startRewardTime.toNat :=
      Int.sub_pos.mpr (Int.ofNat_lt.mpr (UInt64.lt_iff_toNat_lt.mp hspan))
    have hearlier := timeShare_eq_accrued hvalid hspan start
    have hlater := timeShare_eq_accrued hvalid hspan start'
    have hchange : c.shareChange = c.targetRewardShare.toNat - c.startRewardShare.toNat := rfl
    simp only [UInt64.le_iff_toNat_le]
    constructor
    · intro hshares
      have hlonger := mul_le_mul_of_nonneg_left (c.elapsed_mono h) (by omega : 0 ≤ c.shareChange)
      have haccrued := Int.tdiv_le_tdiv hpositive hlonger
      omega
    · intro hshares
      have hlonger := mul_le_mul_of_nonpos_left (c.elapsed_mono h) (by omega : c.shareChange ≤ 0)
      have haccrued := Int.tdiv_le_tdiv hpositive hlonger
      omega
  · rw [timeShare_of_no_span hspan, timeShare_of_no_span hspan]
    by_cases hlater : start' < c.targetRewardTime
    · rw [if_pos hlater, if_pos (UInt64.lt_of_le_of_lt h hlater)]
      exact ⟨fun _ => UInt64.le_refl _, fun _ => UInt64.le_refl _⟩
    · rw [if_neg hlater]
      split
      · exact ⟨id, id⟩
      · exact ⟨fun _ => UInt64.le_refl _, fun _ => UInt64.le_refl _⟩

/-- The component lies between the two shares. -/
theorem timeShare_between (hvalid : c.Valid) (start : UInt64) :
    min c.startRewardShare.toNat c.targetRewardShare.toNat ≤ (c.timeShare start).toNat ∧
      (c.timeShare start).toNat ≤ max c.startRewardShare.toNat c.targetRewardShare.toNat := by
  by_cases h : c.startRewardTime < start ∧ start < c.targetRewardTime
  · have hexact := timeShare_eq_interpolated hvalid h.1 h.2
    have hbetween := interpolated_between h.1 h.2
    omega
  · rcases timeShare_of_outside h with heq | heq <;> rw [heq] <;> omega

/-- Checked arithmetic never gives up on the time component of an accepted curve. -/
theorem checkedTimeShare_eq (hvalid : c.Valid) (start : UInt64) :
    c.checkedTimeShare start = some (c.timeShare start) := by
  by_cases hearly : start ≤ c.startRewardTime ∨ c.targetRewardTime ≤ c.startRewardTime
  · rw [checkedTimeShare, timeShare, if_pos hearly, if_pos hearly]
  by_cases hlate : c.targetRewardTime ≤ start
  · rw [checkedTimeShare, timeShare, if_neg hearly, if_neg hearly, if_pos hlate, if_pos hlate]
  have hafter := UInt64.not_le.mp (not_or.mp hearly).1
  have hbefore := UInt64.not_le.mp hlate
  have hshare := timeShare_eq_interpolated hvalid hafter hbefore
  have hsinceStart := UInt64.toNat_sub_of_le _ _ (UInt64.le_of_lt hafter)
  have hspan := UInt64.toNat_sub_of_le _ _ (UInt64.le_of_lt (UInt64.lt_trans hafter hbefore))
  have hstart := hvalid.start
  have htarget := hvalid.target
  have hword := start.toNat_lt_size
  rw [UInt64.lt_iff_toNat_lt] at hafter hbefore
  rw [checkedTimeShare, if_neg hearly, if_neg hlate, hsinceStart, hspan, Nat.cast_sub hafter.le,
    Nat.cast_sub (hafter.trans hbefore).le, checkedInterpolation_eq (by omega) (by omega) (by omega)
      (by omega)]
  change word? (c.interpolated start) = _
  rw [← hshare, word?_toNat]

/-! ## The bonus -/

theorem excess_mono (h : duration ≤ duration') : c.excess duration ≤ c.excess duration' := by
  rw [UInt64.le_iff_toNat_le] at h
  unfold excess
  omega

/-- A longer period never has a smaller bonus. -/
theorem periodShare_mono (hvalid : c.Valid) (h : duration ≤ duration') :
    c.periodShare duration ≤ c.periodShare duration' := by
  rw [UInt64.le_iff_toNat_le, periodShare_eq_proportion hvalid, periodShare_eq_proportion hvalid]
  exact Nat.div_le_div_right (Nat.mul_le_mul_left _ (c.excess_mono h))

/-- Checked arithmetic never gives up on the bonus of an accepted curve. -/
theorem checkedPeriodShare_eq (hvalid : c.Valid) (duration : UInt64) :
    c.checkedPeriodShare duration = some (c.periodShare duration) := by
  obtain ⟨hspan, hsome⟩ := hvalid.span
  have hbonus := periodShare_eq_proportion hvalid duration
  have hfits : c.stakePeriodRewardShare.toNat * c.excess duration < doubleWordSize := by
    have hexcess : c.excess duration < UInt64.size :=
      (c.excess_le duration).trans_lt ((Nat.sub_le _ _).trans_lt c.maxStakeDuration.toNat_lt_size)
    exact Nat.mul_lt_mul'' c.stakePeriodRewardShare.toNat_lt_size hexcess
  unfold checkedPeriodShare
  dsimp only
  rw [if_neg hsome, toNat_excess hvalid, mulWithin128, if_pos hfits, hspan]
  rw [Option.bind_eq_bind, Option.bind_some, ← hbonus, word?_toNat]

/-! ## The reward -/

variable {weight weight' first second whole reward : UInt64}

theorem exactReward_mono_weight (c : RewardConfig) (duration start : UInt64)
    (h : weight ≤ weight') :
    c.exactReward duration start weight ≤ c.exactReward duration start weight' := by
  rw [UInt64.le_iff_toNat_le] at h
  exact Nat.div_le_div_right (Nat.mul_le_mul_right _ (Nat.mul_le_mul_right _ h))

/-- A longer duration counts twice: in the bonus and in the time that is paid for. -/
theorem exactReward_mono_duration (hvalid : c.Valid) (h : duration ≤ duration')
    (start weight : UInt64) :
    c.exactReward duration start weight ≤ c.exactReward duration' start weight := by
  have hbonus := UInt64.le_iff_toNat_le.mp (periodShare_mono hvalid h)
  rw [UInt64.le_iff_toNat_le] at h
  have hyearly := Nat.mul_le_mul_left weight.toNat
    (Nat.add_le_add_left hbonus (c.timeShare start).toNat)
  exact Nat.div_le_div_right (Nat.mul_le_mul hyearly h)

/-- What is lost by rounding down twice is at least what is lost by rounding down once. -/
theorem exactReward_add_le (c : RewardConfig) (duration start : UInt64)
    (hwhole : whole.toNat = first.toNat + second.toNat) :
    c.exactReward duration start first + c.exactReward duration start second ≤
      c.exactReward duration start whole := by
  unfold exactReward
  rw [hwhole, Nat.add_mul, Nat.add_mul]
  exact Nat.div_add_div_le_add_div

theorem toNat_reward (hvalid : c.Valid) (h : c.reward duration start weight = .ok reward) :
    reward.toNat = c.exactReward duration start weight := by
  rw [reward_eq_ite hvalid] at h
  split at h
  next hfits => rw [← Except.ok.inj h, UInt64.toNat_ofNat_of_lt' hfits]
  next => cases h

/-- Where a reward is paid, so is every one that is not greater. -/
theorem exists_reward_of_le (hvalid : c.Valid) (h : c.reward duration start weight = .ok reward)
    (hle : c.exactReward duration' start' weight' ≤ c.exactReward duration start weight) :
    ∃ smaller, c.reward duration' start' weight' = .ok smaller ∧
      smaller.toNat = c.exactReward duration' start' weight' := by
  have hfits : c.exactReward duration' start' weight' < UInt64.size :=
    hle.trans_lt (toNat_reward hvalid h ▸ reward.toNat_lt_size)
  exact ⟨_, by rw [reward_eq_ite hvalid, if_pos hfits], UInt64.toNat_ofNat_of_lt' hfits⟩

/-! ## The whole curve -/

/-- The time component moves one way between two shares, which it has before and after. -/
structure TimeShareLaws (c : RewardConfig) : Prop where
  /-- No number on the way leaves its range, so the component is never the zero that stands for
  a share out of range. -/
  checked : ∀ start, c.checkedTimeShare start = some (c.timeShare start)
  between : ∀ start,
    min c.startRewardShare.toNat c.targetRewardShare.toNat ≤ (c.timeShare start).toNat ∧
      (c.timeShare start).toNat ≤ max c.startRewardShare.toNat c.targetRewardShare.toNat
  rising : c.startRewardShare ≤ c.targetRewardShare →
    ∀ start start', start ≤ start' → c.timeShare start ≤ c.timeShare start'
  falling : c.targetRewardShare ≤ c.startRewardShare →
    ∀ start start', start ≤ start' → c.timeShare start' ≤ c.timeShare start
  early : ∀ start, start ≤ c.startRewardTime → start < c.targetRewardTime →
    c.timeShare start = c.startRewardShare
  late : ∀ start, c.targetRewardTime ≤ start → c.timeShare start = c.targetRewardShare

/-- The bonus grows with the duration, up to the bonus of the longest period. -/
structure PeriodShareLaws (c : RewardConfig) : Prop where
  /-- No number on the way leaves its range, so the bonus is never the one that stands for a
  bonus out of range. -/
  checked : ∀ duration, c.checkedPeriodShare duration = some (c.periodShare duration)
  mono : ∀ duration duration', duration ≤ duration' →
    c.periodShare duration ≤ c.periodShare duration'
  le : ∀ duration, c.periodShare duration ≤ c.stakePeriodRewardShare

/-- Where a stake is paid a reward, a smaller or shorter one is paid no more, and its parts are
paid no more than the whole. -/
structure RewardLaws (c : RewardConfig) : Prop where
  mono_weight : ∀ duration start weight weight' reward', weight ≤ weight' →
    c.reward duration start weight' = .ok reward' →
      ∃ reward, c.reward duration start weight = .ok reward ∧ reward ≤ reward'
  mono_duration : ∀ duration duration' start weight reward', duration ≤ duration' →
    c.reward duration' start weight = .ok reward' →
      ∃ reward, c.reward duration start weight = .ok reward ∧ reward ≤ reward'
  split : ∀ duration start first second whole reward,
    whole.toNat = first.toNat + second.toNat → c.reward duration start whole = .ok reward →
      ∃ ofFirst ofSecond, c.reward duration start first = .ok ofFirst ∧
        c.reward duration start second = .ok ofSecond ∧
          ofFirst.toNat + ofSecond.toNat ≤ reward.toNat

theorem rewardLaws (hvalid : c.Valid) : c.RewardLaws where
  mono_weight duration start weight weight' reward' hle h := by
    have hexact := exactReward_mono_weight c duration start hle
    obtain ⟨reward, hreward, heq⟩ := exists_reward_of_le hvalid h hexact
    refine ⟨reward, hreward, UInt64.le_iff_toNat_le.mpr ?_⟩
    rwa [heq, toNat_reward hvalid h]
  mono_duration duration duration' start weight reward' hle h := by
    have hexact := exactReward_mono_duration hvalid hle start weight
    obtain ⟨reward, hreward, heq⟩ := exists_reward_of_le hvalid h hexact
    refine ⟨reward, hreward, UInt64.le_iff_toNat_le.mpr ?_⟩
    rwa [heq, toNat_reward hvalid h]
  split duration start first second whole reward hwhole h := by
    have hsum := exactReward_add_le c duration start hwhole
    obtain ⟨ofFirst, hfirst, heqFirst⟩ :=
      exists_reward_of_le hvalid h ((Nat.le_add_right _ _).trans hsum)
    obtain ⟨ofSecond, hsecond, heqSecond⟩ :=
      exists_reward_of_le hvalid h ((Nat.le_add_left _ _).trans hsum)
    refine ⟨ofFirst, ofSecond, hfirst, hsecond, ?_⟩
    rwa [heqFirst, heqSecond, toNat_reward hvalid h]

/-- The curve of accepted parameters: its time component moves from the start to the target share
and never back, its bonus grows up to that of the longest period, neither ever needs what stands
in for a share out of range, and its rewards grow with weight and duration without a gain from
splitting a stake. -/
theorem curve_bounded_and_directed (hvalid : c.validate = .ok ()) :
    c.TimeShareLaws ∧ c.PeriodShareLaws ∧ c.RewardLaws := by
  have hvalid' := validate_eq_ok_iff.mp hvalid
  refine ⟨⟨checkedTimeShare_eq hvalid', timeShare_between hvalid', ?_, ?_, ?_, ?_⟩,
    ⟨checkedPeriodShare_eq hvalid', ?_, ?_⟩, rewardLaws hvalid'⟩
  · exact fun hshares start start' h => (timeShare_directed hvalid' h).1 hshares
  · exact fun hshares start start' h => (timeShare_directed hvalid' h).2 hshares
  · exact fun start hstart hbefore => timeShare_early hstart hbefore
  · exact fun start htarget => timeShare_late htarget
  · exact fun duration duration' h => periodShare_mono hvalid' h
  · exact fun duration => UInt64.le_iff_toNat_le.mpr (periodShare_le hvalid' duration)

/-- With the default parameters the component falls until 2030, and 2000 staked for a year earn 460
where 999 and 1001 earn 459 between them. -/
theorem curve_bounded_and_directed_default :
    ({} : RewardConfig).validate = .ok () ∧
      ({} : RewardConfig).timeShare 1893456000 ≤ ({} : RewardConfig).timeShare 1798761600 ∧
      ({} : RewardConfig).periodShare 20000000 ≤ ({} : RewardConfig).periodShare 31536000 ∧
      ∃ ofFirst ofSecond,
        ({} : RewardConfig).reward 31536000 1704067200 999 = .ok ofFirst ∧
        ({} : RewardConfig).reward 31536000 1704067200 1001 = .ok ofSecond ∧
          ofFirst.toNat + ofSecond.toNat ≤ (460 : UInt64).toNat := by
  have hvalid : ({} : RewardConfig).validate = .ok () := by decide +kernel
  have hwhole : ({} : RewardConfig).reward 31536000 1704067200 2000 = .ok 460 := by decide +kernel
  obtain ⟨htime, hperiod, hreward⟩ := curve_bounded_and_directed hvalid
  exact ⟨hvalid, htime.falling (by decide) _ _ (by decide), hperiod.mono _ _ (by decide),
    hreward.split _ _ 999 1001 2000 _ (by decide) hwhole⟩

end RewardConfig

end StakingLedger
