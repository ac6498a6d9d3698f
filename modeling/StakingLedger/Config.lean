import StakingLedger.Amount

/-! # Staking parameters

Bounds on stakes and the parameters of the reward curve, for the primary
network or for one transformed supernet. Shares are in parts per million.
-/

namespace StakingLedger

/-- The denominator of every reward share. -/
def shareDenominator : Nat := 1000000

/-- Seconds in a year of 365 days, the period that reward shares refer to. -/
def secondsPerYear : Nat := 31536000

/-- Parameters of a reward curve. -/
structure RewardConfig where
  /-- Shortest staking period accepted, in seconds. -/
  minStakeDuration : UInt64 := 1209600
  /-- Longest staking period accepted, in seconds. -/
  maxStakeDuration : UInt64 := 31536000
  /-- Annual share on top for staking the longest period. -/
  stakePeriodRewardShare : UInt64 := 20000
  /-- Annual share for stakers starting up to `startRewardTime`. -/
  startRewardShare : UInt64 := 210000
  /-- When the time component starts moving. -/
  startRewardTime : UInt64 := 1704067200
  /-- Annual share for stakers starting from `targetRewardTime`. -/
  targetRewardShare : UInt64 := 60000
  /-- When the time component reaches its target. -/
  targetRewardTime : UInt64 := 1893456000
  deriving DecidableEq, Inhabited

/-- Staking bounds and reward curve of a network. -/
structure StakingConfig where
  /-- Smallest weight of a validator. -/
  minValidatorStake : UInt64 := 2000
  /-- Largest total weight of a validator, delegations included. -/
  maxValidatorStake : UInt64 := 3000000
  /-- Smallest weight of a delegator. -/
  minDelegatorStake : UInt64 := 25
  /-- The total weight may not exceed this multiple of the validator's own. -/
  maxValidatorWeightFactor : UInt64 := 5
  reward : RewardConfig := {}
  deriving DecidableEq, Inhabited

/-- A share above the whole is refused. -/
def checkShare (field : String) (share : UInt64) : Answer Unit :=
  if shareDenominator < share.toNat then .error (.invalidConfig (.shareTooLarge field share))
  else .ok ()

/-- Checks the parameters of a curve against each other. -/
def RewardConfig.validate (c : RewardConfig) : Answer Unit := do
  if c.minStakeDuration = 0 then throw (.invalidConfig .zeroMinDuration)
  if c.maxStakeDuration ≤ c.minStakeDuration then
    throw (.invalidConfig (.durationBounds c.minStakeDuration c.maxStakeDuration))
  checkShare "stake_period_reward_share" c.stakePeriodRewardShare
  checkShare "start_reward_share" c.startRewardShare
  checkShare "target_reward_share" c.targetRewardShare
  if c.targetRewardTime < c.startRewardTime then throw (.invalidConfig .rewardTimes)

/-- Checks the bounds of a network against each other, then its curve. -/
def StakingConfig.validate (c : StakingConfig) : Answer Unit := do
  if c.maxValidatorStake < c.minValidatorStake then throw (.invalidConfig .stakeBounds)
  if c.maxValidatorWeightFactor = 0 then throw (.invalidConfig .zeroWeightFactor)
  c.reward.validate

end StakingLedger
