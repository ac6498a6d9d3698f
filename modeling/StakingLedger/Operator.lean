import StakingLedger.Advance
import StakingLedger.State.Open
import StakingLedger.Transaction

/-! # The operator's run to a target time

The operator moves the durable root forward as blocks would: every step runs on
a layer over the last committed ledger, is folded back and is committed as the
next height. Due rewarded stakers are retired before time moves on.
-/

namespace StakingLedger

/-- A committed step of the operator. -/
inductive Step where
  /-- A due staker was retired, with or without its reward. -/
  | rewarded (stakerTx : EntityId) (paid : Bool) (height : UInt64)
  /-- Chain time moved, promoting and retiring some stakers. -/
  | advanced (time : UInt64) (promoted retired : Nat) (height : UInt64)
  deriving DecidableEq

/-- The committed figures of a supernet. -/
structure Status where
  height : UInt64
  timestamp : UInt64
  feePool : UInt64
  supernetId : EntityId
  currentSupply : UInt64
  rewardPool : UInt64
  nextChangeTime : Option UInt64
  deriving DecidableEq

/-- A computation that moves the durable root and may fail; what was committed or folded before a
failure stays. -/
abbrev StateOp := ExceptT LedgerError (StateM State)

namespace StateOp

/-- Asks the root. -/
def ask {α : Type} (read : State → Answer α) : StateOp α := fun s => (read s, s)

/-- Changes the root; a failed change leaves it as it was. -/
def change (f : State → Answer State) : StateOp Unit := fun s =>
  match f s with
  | .ok s' => (.ok (), s')
  | .error e => (.error e, s)

/-- Runs a computation: its answer, and the root after it. -/
def run {α : Type} (action : StateOp α) (s : State) : Answer α × State := action s

end StateOp

namespace State

/-- The figures of a supernet. -/
def status (s : State) (supernet : EntityId) : Answer Status := do
  let supply ← s.supply supernet
  let pool ← s.rewardPool supernet
  let next ← (Ledger.root s).nextChangeTime
  return ⟨s.height, s.timestamp, s.feePool, supernet, supply, pool, next⟩

/-- Folds the changes of a layer into the root. -/
def fold (s : State) (changes : Changes) : State := s.writeAll changes.writes

/-- The rewarded staker that is due: the first current one, if it ends now. -/
def dueStaker? (s : State) : Option Staker :=
  s.registries.current.all.toList.head?.filter fun staker =>
    staker.endTime == s.timestamp && !staker.priority.isPermissioned

/-- Retires a due staker on a layer. -/
def rewardOn (stakerTx : EntityId) (paid : Bool) (height : UInt64) : LedgerM Step := do
  rewardStaker stakerTx paid
  return .rewarded stakerTx paid height

/-- Moves time on a layer to the next change of a staker, or to the target if that comes first. -/
def advanceOn (rewards : RewardPolicy) (now target height : UInt64) : LedgerM Step := do
  let change ← LedgerM.ask (·.nextChangeTime)
  let time := match change with
    | some t => min t target
    | none => target
  LedgerM.ask (·.verifyAdvance time)
  let plan ← LedgerM.ask (·.planAdvance rewards time)
  if time ≤ now ∧ plan.promotions.isEmpty ∧ plan.retirements.isEmpty then
    throw (.invariantViolation (.stuck now))
  plan.writes.forM LedgerM.write
  return .advanced time plan.promotions.length plan.retirements.length height

/-- The step that brings the root nearer to the target, if one is left, on a layer over it. -/
def stepOn (s : State) (rewards : RewardPolicy) (target : UInt64) (paid : Bool)
    (height : UInt64) : LedgerM (Option Step) :=
  match s.dueStaker? with
  | some staker => some <$> rewardOn staker.txId paid height
  | none =>
    if target ≤ s.timestamp then return none
    else some <$> advanceOn rewards s.timestamp target height

/-- Runs one step on a layer over the root: the step, if one is left, and the layer's changes. -/
def planStep (s : State) (rewards : RewardPolicy) (target : UInt64) (paid : Bool) :
    Answer (Option (Step × Changes × UInt64)) := do
  let height ← s.nextHeight
  let tip := EntityId.ofWord s.height
  let layer ← (Versions.insert {} tip (.root s)).openLayer tip
  match (s.stepOn rewards target paid height).run layer with
  | (.error e, _) => throw e
  | (.ok (some step), .layer _ _ _ changes) => return some (step, changes, height)
  | (.ok _, _) => return none

/-- Takes one step, if one is left, and commits it. -/
def stepTowards (rewards : RewardPolicy) (target : UInt64) (paid : Bool) :
    StateOp (Option Step) := do
  match ← StateOp.ask (·.planStep rewards target paid) with
  | none => return none
  | some (step, changes, height) =>
    StateOp.change fun s => .ok (s.fold changes)
    StateOp.change (·.commit height)
    return some step

/-- Takes steps until none is left, at most `bound` of them. -/
def stepsWithin (rewards : RewardPolicy) (target : UInt64) (paid : Bool) :
    Nat → StateOp (List Step)
  | 0 => return []
  | bound + 1 => do
    match ← stepTowards rewards target paid with
    | none => return []
    | some step =>
      let steps ← stepsWithin rewards target paid bound
      return step :: steps

/-- A figure that every step makes smaller: the time left, and the changes of stakers left. A
promotion takes a staker out of the pending set and may add as many current stakers as were
pending; every other step at the same time takes a staker out of the current set. -/
def stepsLeft (s : State) (target : UInt64) : Nat :=
  let pending := s.registries.pending.size
  (target.toNat - s.timestamp.toNat) + s.registries.current.size + pending * (pending + 2)

/-- Moves chain time to the target, committing one height per step, and retires who is due then. -/
def advanceTo (rewards : RewardPolicy) (target : UInt64) (paid : Bool) : StateOp (List Step) := do
  let now ← StateOp.ask fun s => .ok s.timestamp
  if target < now then throw (.invalidTransaction (.targetBehind target now))
  let bound ← StateOp.ask fun s => .ok (s.stepsLeft target + 1)
  stepsWithin rewards target paid bound

end State

end StakingLedger
