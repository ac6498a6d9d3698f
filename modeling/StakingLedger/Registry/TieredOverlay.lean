import StakingLedger.Registry.Overlay
import StakingLedger.Registry.Tiered

/-! # The registry of a layer by supernet and node

A layer keeps its changes of slots on two levels, a map of nodes for every supernet, beside the two
flat indexes. Whether it changed anything is read off the outer map alone.
-/

namespace StakingLedger

/-- The changes of one layer to a set of stakers, its slots by supernet and then by node. -/
structure TieredOverlay where
  diffs : NodeMap SlotDiff := .empty
  added : StakerTree := .empty
  deleted : DeletedStakers := .empty
  deriving DecidableEq

namespace TieredOverlay

/-- The overlay that keeps the same changes in one map of slots. -/
def flat (t : TieredOverlay) : RegistryOverlay := ⟨t.diffs.flat, t.added, t.deleted⟩

/-- What the layer says about the validator of a slot: nothing when it leaves the slot to its
parent, otherwise the validator or its absence. -/
def validator? (t : TieredOverlay) (slot : Slot) : Option (Option Staker) :=
  match t.diffs.at? slot with
  | none => none
  | some d =>
    match d.status with
    | .unmodified => none
    | .added => some d.validator
    | .deleted => some none

/-- The delegators of a slot over those of the parent. -/
def delegators (t : TieredOverlay) (parent : StakerSeq) (slot : Slot) : StakerSeq :=
  match t.diffs.at? slot with
  | none => parent
  | some d => .merge (.mask parent d.deletedDelegators) (.ofTree d.addedDelegators)

/-- The whole set over that of the parent. -/
def all (t : TieredOverlay) (parent : StakerSeq) : StakerSeq :=
  .merge (.mask parent t.deleted) (.ofTree t.added)

/-- Whether the layer changed nothing. -/
def isEmpty (t : TieredOverlay) : Bool := t.diffs.isEmpty

/-- What is recorded of a slot. -/
def recorded (t : TieredOverlay) (slot : Slot) : SlotDiff := (t.diffs.at? slot).getD {}

/-- Changes the record of a slot, a new one if there is none. -/
def record (t : TieredOverlay) (slot : Slot) (f : SlotDiff → SlotDiff) : NodeMap SlotDiff :=
  t.diffs.set slot (f (t.recorded slot))

/-- Adds a validator; one added by this layer to the same slot is replaced. -/
def putValidator (t : TieredOverlay) (s : Staker) : TieredOverlay :=
  let others := match (t.recorded s.slot).replaced? with
    | some replaced => t.added.erase replaced.key
    | none => t.added
  { t with
    diffs := t.record s.slot (·.putValidator s)
    added := others.insert s.key s }

/-- Drops a staker that this layer added, or marks it as deleted. -/
def forget (t : TieredOverlay) (s : Staker) : TieredOverlay :=
  if t.added.contains s.key then { t with added := t.added.erase s.key }
  else { t with deleted := t.deleted.insert s.txId s }

/-- Deletes a validator. -/
def deleteValidator (t : TieredOverlay) (s : Staker) : TieredOverlay :=
  { t.forget s with
    diffs := TieredRegistry.prune (t.record s.slot (·.deleteValidator s)) s.slot }

/-- Adds a delegator; the deletion of the same one by this layer is cancelled. -/
def putDelegator (t : TieredOverlay) (s : Staker) : TieredOverlay :=
  let diffs := TieredRegistry.prune (t.record s.slot (·.putDelegator s)) s.slot
  if (t.recorded s.slot).restoresDelegator s then
    { t with diffs := diffs, deleted := t.deleted.erase s.txId }
  else { t with diffs := diffs, added := t.added.insert s.key s }

/-- Deletes a delegator. -/
def deleteDelegator (t : TieredOverlay) (s : Staker) : TieredOverlay :=
  { t.forget s with
    diffs := TieredRegistry.prune (t.record s.slot (·.deleteDelegator s)) s.slot }

end TieredOverlay

end StakingLedger
