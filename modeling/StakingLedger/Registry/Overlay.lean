import StakingLedger.Registry.SlotDiff

/-! # The registry of a layer

A layer keeps only its changes to a set of stakers: by slot, and as the stakers
it added and the ones of its parent that it deleted. Its views combine these
changes with the view of the parent.
-/

namespace StakingLedger

/-- The changes of one layer to a set of stakers. -/
structure RegistryOverlay where
  diffs : SlotDiffs := .empty
  added : StakerTree := .empty
  deleted : DeletedStakers := .empty
  deriving DecidableEq

namespace RegistryOverlay

instance : Inhabited RegistryOverlay := ⟨{}⟩

/-- What the layer says about the validator of a slot: nothing when it leaves the slot to its
parent, otherwise the validator or its absence. -/
def validator? (o : RegistryOverlay) (slot : Slot) : Option (Option Staker) :=
  match o.diffs.get? slot with
  | none => none
  | some d =>
    match d.status with
    | .unmodified => none
    | .added => some d.validator
    | .deleted => some none

/-- The delegators of a slot over those of the parent. -/
def delegators (o : RegistryOverlay) (parent : StakerSeq) (slot : Slot) : StakerSeq :=
  match o.diffs.get? slot with
  | none => parent
  | some d => .merge (.mask parent d.deletedDelegators) (.ofTree d.addedDelegators)

/-- The whole set over that of the parent. -/
def all (o : RegistryOverlay) (parent : StakerSeq) : StakerSeq :=
  .merge (.mask parent o.deleted) (.ofTree o.added)

/-- Whether the layer changed nothing. -/
def isEmpty (o : RegistryOverlay) : Bool := o.diffs.isEmpty

/-- Adds a validator; one added by this layer to the same slot is replaced. -/
def putValidator (o : RegistryOverlay) (s : Staker) : RegistryOverlay :=
  let others := match (o.diffs.recorded s.slot).replaced? with
    | some replaced => o.added.erase replaced.key
    | none => o.added
  { o with
    diffs := o.diffs.update s.slot (·.putValidator s)
    added := others.insert s.key s }

/-- Drops a staker that this layer added, or marks it as deleted. -/
def forget (o : RegistryOverlay) (s : Staker) : RegistryOverlay :=
  if o.added.contains s.key then { o with added := o.added.erase s.key }
  else { o with deleted := o.deleted.insert s.txId s }

/-- Deletes a validator. -/
def deleteValidator (o : RegistryOverlay) (s : Staker) : RegistryOverlay :=
  { o.forget s with diffs := o.diffs.updatePruned s.slot (·.deleteValidator s) }

/-- Adds a delegator; the deletion of the same one by this layer is cancelled. -/
def putDelegator (o : RegistryOverlay) (s : Staker) : RegistryOverlay :=
  let diffs := o.diffs.updatePruned s.slot (·.putDelegator s)
  if (o.diffs.recorded s.slot).restoresDelegator s then
    { o with diffs := diffs, deleted := o.deleted.erase s.txId }
  else { o with diffs := diffs, added := o.added.insert s.key s }

/-- Deletes a delegator. -/
def deleteDelegator (o : RegistryOverlay) (s : Staker) : RegistryOverlay :=
  { o.forget s with diffs := o.diffs.updatePruned s.slot (·.deleteDelegator s) }

end RegistryOverlay

end StakingLedger
