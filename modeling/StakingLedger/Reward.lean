import StakingLedger.Config

/-! # The reward curve

The annual share of a staker is a time component, which moves linearly from a
start share to a target share, and a bonus for long periods, which grows
linearly with the duration. The reward is that share of the weight, prorated
over the duration and rounded down.
-/

namespace StakingLedger

/-- The number of values of 128 bits. -/
def doubleWordSize : Nat := UInt64.size * UInt64.size

/-- A signed number as 128-bit arithmetic keeps it. -/
def wrapSigned128 (n : Int) : Int := Int.bmod n doubleWordSize

/-- The product of two numbers, if it fits in 128 bits. -/
def mulWithin128 (a b : Nat) : Option Nat :=
  if a * b < doubleWordSize then some (a * b) else none

namespace RewardConfig

/-- The annual time component for a staker that starts at `start`, in parts per million. Between
start and target time the quotient is truncated toward zero. -/
def timeShare (c : RewardConfig) (start : UInt64) : UInt64 :=
  if start ≤ c.startRewardTime ∨ c.targetRewardTime ≤ c.startRewardTime then
    if start < c.targetRewardTime then c.startRewardShare else c.targetRewardShare
  else if c.targetRewardTime ≤ start then c.targetRewardShare
  else
    let elapsed : Int := (start - c.startRewardTime).toNat
    let span : Int := (c.targetRewardTime - c.startRewardTime).toNat
    let first : Int := c.startRewardShare.toNat
    let delta : Int := c.targetRewardShare.toNat - first
    let share := wrapSigned128 (first + (wrapSigned128 (delta * elapsed)).tdiv span)
    if 0 ≤ share ∧ share < UInt64.size then UInt64.ofNat share.toNat else 0

/-- The annual bonus for staking `duration` seconds, in parts per million. -/
def periodShare (c : RewardConfig) (duration : UInt64) : UInt64 :=
  let span := saturatingSub c.maxStakeDuration c.minStakeDuration
  if span = 0 then 0
  else
    let excess := min (max duration c.minStakeDuration) c.maxStakeDuration - c.minStakeDuration
    let bonus := c.stakePeriodRewardShare.toNat * excess.toNat / span.toNat
    if bonus < UInt64.size then UInt64.ofNat bonus else c.stakePeriodRewardShare

/-- The annual share of a staker, in parts per million. -/
def share (c : RewardConfig) (duration start : UInt64) : Nat :=
  (c.timeShare start).toNat + (c.periodShare duration).toNat

/-- The reward for staking `weight` for `duration` seconds from `start`. -/
def reward (c : RewardConfig) (duration start weight : UInt64) : Answer UInt64 :=
  let total? := do
    let yearly ← mulWithin128 weight.toNat (c.share duration start)
    mulWithin128 yearly duration.toNat
  match total? with
  | none => .error (.overflow (.reward weight duration))
  | some total =>
    let reward := total / (shareDenominator * secondsPerYear)
    if reward < UInt64.size then .ok (UInt64.ofNat reward)
    else .error (.overflow (.reward weight duration))

end RewardConfig

/-- How a reward is paid for. -/
structure Funding where
  /-- What is credited to the staker. -/
  reward : UInt64
  /-- The reward pool afterwards. -/
  rewardPool : UInt64
  /-- The supply afterwards. -/
  currentSupply : UInt64
  deriving DecidableEq

/-- Pays a reward out of the pool. What the pool cannot cover is minted on the primary network;
elsewhere the reward is cut down to the pool. -/
def fundReward (supernet : EntityId) (reward rewardPool currentSupply : UInt64) :
    Answer Funding := do
  if reward ≤ rewardPool then
    return ⟨reward, rewardPool - reward, currentSupply⟩
  if supernet.isPrimaryNetwork then
    let supply ← checkedAdd currentSupply (reward - rewardPool) "current supply"
    return ⟨reward, 0, supply⟩
  return ⟨rewardPool, 0, currentSupply⟩

end StakingLedger
