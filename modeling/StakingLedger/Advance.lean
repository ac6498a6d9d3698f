import StakingLedger.Ledger.Basic
import StakingLedger.Reward

/-! # Time advancement

Moving chain time is planned first and applied afterwards, so a plan that fails
leaves no trace. The plan promotes the pending stakers that start by the new
time, funding their rewards one by one in staker order, and retires the current
permissioned validators that end by it. All other stakers stay until a reward
claim retires them.
-/

namespace StakingLedger

/-- The reward for staking `weight` for `duration` from `start`, given what is in the pool. -/
abbrev RewardRule := (duration start weight pool : UInt64) → Answer UInt64

/-- The reward rule of each supernet; finding it may read the ledger. -/
abbrev RewardPolicy := Ledger → EntityId → Answer RewardRule

/-- A curve as a reward rule; the pool does not matter to it. -/
def RewardConfig.rule (c : RewardConfig) : RewardRule :=
  fun duration start weight _ => c.reward duration start weight

/-- The policy of a network: one curve for the primary network, the recorded ones elsewhere. -/
def configuredRewards (primary : RewardConfig) : RewardPolicy := fun l supernet =>
  if supernet.isPrimaryNetwork then .ok primary.rule
  else do
    match ← l.transformation supernet with
    | some t => return t.staking.reward.rule
    | none => throw (.invariantViolation (.untransformedReward supernet))

/-- A pending staker and the current staker it becomes. -/
structure Promotion where
  pending : Staker
  current : Staker
  deriving DecidableEq

/-- Everything that one move of chain time changes. -/
structure TimeAdvance where
  /-- The new chain time. -/
  timestamp : UInt64
  /-- In the order in which they take place. -/
  promotions : List Promotion := []
  /-- Permissioned validators, in staker order. -/
  retirements : List Staker := []
  supplies : OrderedMap EntityId UInt64 := .empty
  rewardPools : OrderedMap EntityId UInt64 := .empty
  deriving DecidableEq

namespace TimeAdvance

/-- The supply of a supernet after the promotions so far. -/
def supply (plan : TimeAdvance) (l : Ledger) (supernet : EntityId) : Answer UInt64 :=
  match plan.supplies.get? supernet with
  | some amount => .ok amount
  | none => l.supply supernet

/-- The reward pool of a supernet after the promotions so far. -/
def rewardPool (plan : TimeAdvance) (l : Ledger) (supernet : EntityId) : Answer UInt64 :=
  match plan.rewardPools.get? supernet with
  | some amount => .ok amount
  | none => l.rewardPool supernet

/-- Adds the promotion of a pending staker, which will earn `reward`. -/
def promote (plan : TimeAdvance) (s : Staker) (reward : UInt64) : TimeAdvance :=
  { plan with promotions := plan.promotions ++ [⟨s, s.promoted reward⟩] }

/-- Adds the promotion of a pending staker; its reward is fixed and funded here. -/
def addPromotion (rewards : RewardPolicy) (l : Ledger) (plan : TimeAdvance) (s : Staker) :
    Answer TimeAdvance :=
  if s.priority.isPermissioned then .ok (plan.promote s 0)
  else do
    let pool ← plan.rewardPool l s.supernetId
    let supply ← plan.supply l s.supernetId
    let rule ← rewards l s.supernetId
    let calculated ← rule s.duration s.startTime s.weight pool
    let funding ← fundReward s.supernetId calculated pool supply
    let funded := { plan with
      rewardPools := plan.rewardPools.insert s.supernetId funding.rewardPool
      supplies := plan.supplies.insert s.supernetId funding.currentSupply }
    return funded.promote s funding.reward

/-- The writes of one promotion. -/
def promotionWrites (p : Promotion) : List Write :=
  if p.pending.isValidator then
    [.deleteValidator .pending p.pending, .putValidator .current p.current]
  else [.deleteDelegator .pending p.pending, .putDelegator .current p.current]

/-- The writes of a plan: promotions, retirements, balances, and the new time last. -/
def writes (plan : TimeAdvance) : List Write :=
  plan.promotions.flatMap promotionWrites ++ plan.retirements.map (.delete .current) ++
    plan.supplies.entries.map (fun (supernet, amount) => .setSupply supernet amount) ++
    plan.rewardPools.entries.map (fun (supernet, amount) => .setRewardPool supernet amount) ++
    [.setTimestamp plan.timestamp]

end TimeAdvance

namespace Ledger

/-- The stakers at the front of a sequence that change state up to `time`. -/
def dueBy (sequence : StakerSeq) (time : UInt64) : List Staker :=
  sequence.toList.takeWhile fun s => s.nextTime ≤ time

/-- Plans the move of chain time to `time`. -/
def planAdvance (l : Ledger) (rewards : RewardPolicy) (time : UInt64) : Answer TimeAdvance := do
  let pending ← l.stakers .pending
  let plan ← (dueBy pending time).foldlM (TimeAdvance.addPromotion rewards l)
    { timestamp := time }
  let current ← l.stakers .current
  return { plan with
    retirements := (dueBy current time).filter fun s => s.priority.isPermissioned }

/-- Applies a plan. -/
def applyAdvance (l : Ledger) (plan : TimeAdvance) : Ledger := l.writeAll plan.writes

/-- The earliest time at which a staker changes state, if there is any staker. -/
def nextChangeTime (l : Ledger) : Answer (Option UInt64) := do
  let current := (← l.stakers .current).toList.head?.map (·.nextTime)
  let pending := (← l.stakers .pending).toList.head?.map (·.nextTime)
  match current, pending with
  | some a, some b => return some (min a b)
  | some a, none => return some a
  | none, b => return b

/-- Chain time moves neither backwards nor past the next change of a staker. -/
def verifyAdvance (l : Ledger) (time : UInt64) : Answer Unit := do
  if time < l.timestamp then
    throw (.invalidTransaction (.timeBehind time l.timestamp))
  match ← l.nextChangeTime with
  | some next => if next < time then throw (.invalidTransaction (.timeBeyondChange time next))
  | none => return ()

end Ledger

end StakingLedger
