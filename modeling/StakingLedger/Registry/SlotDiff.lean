import StakingLedger.Staker.Sequence

/-! # Changes to one slot

A slot diff is what happened to one node's validator and delegators on one
supernet. Undoing a change of the same diff cancels it, so that the diff tends
to say the net change only. The operations trust their caller: a put staker is
expected to be absent, a deleted one to be present.
-/

namespace StakingLedger

/-- What happened to the validator of a slot. -/
inductive SlotStatus where
  /-- The validator is as it was. -/
  | unmodified
  /-- A validator was added, perhaps in the place of a deleted one. -/
  | added
  /-- The validator that was there is deleted. -/
  | deleted
  deriving DecidableEq, Inhabited

/-- The changes to one slot. -/
structure SlotDiff where
  status : SlotStatus := .unmodified
  /-- The added validator, or the deleted one. -/
  validator : Option Staker := none
  /-- The validator that was deleted before `validator` was added in its place. -/
  superseded : Option Staker := none
  addedDelegators : StakerTree := .empty
  deletedDelegators : DeletedStakers := .empty
  deriving DecidableEq

namespace SlotDiff

instance : Inhabited SlotDiff := ⟨{}⟩

/-- Records that a validator is added. -/
def putValidator (d : SlotDiff) (s : Staker) : SlotDiff :=
  { d with
    status := .added
    validator := some s
    superseded := if d.status = .deleted then d.validator else d.superseded }

/-- The validator that a further addition takes the place of: one added in this diff. -/
def replaced? (d : SlotDiff) : Option Staker :=
  if d.status = .added then d.validator else none

/-- Records that the validator is deleted; one added in this diff is forgotten again. -/
def deleteValidator (d : SlotDiff) (s : Staker) : SlotDiff :=
  if d.status = .added then
    match d.superseded with
    | some previous =>
      { d with status := .deleted, validator := some previous, superseded := none }
    | none => { d with status := .unmodified, validator := none }
  else { d with status := .deleted, validator := some s }

/-- Whether a deletion of the validator would only cancel an addition. -/
def cancelsValidator (d : SlotDiff) : Bool := d.status == .added

/-- Whether adding the delegator would only cancel its deletion. -/
def restoresDelegator (d : SlotDiff) (s : Staker) : Bool := d.deletedDelegators.contains s.txId

/-- Records that a delegator is added; the deletion of the same one is cancelled. -/
def putDelegator (d : SlotDiff) (s : Staker) : SlotDiff :=
  if d.restoresDelegator s then
    { d with deletedDelegators := d.deletedDelegators.erase s.txId }
  else { d with addedDelegators := d.addedDelegators.insert s.key s }

/-- Whether deleting the delegator would only cancel its addition. -/
def cancelsDelegator (d : SlotDiff) (s : Staker) : Bool := d.addedDelegators.contains s.key

/-- Records that a delegator is deleted; one added in this diff is forgotten again. -/
def deleteDelegator (d : SlotDiff) (s : Staker) : SlotDiff :=
  if d.cancelsDelegator s then { d with addedDelegators := d.addedDelegators.erase s.key }
  else { d with deletedDelegators := d.deletedDelegators.insert s.txId s }

/-- Whether nothing is recorded. -/
def isEmpty (d : SlotDiff) : Bool :=
  d.status == .unmodified && d.addedDelegators.isEmpty && d.deletedDelegators.isEmpty

end SlotDiff

/-- The changed slots, by supernet and then by node. -/
abbrev SlotDiffs := OrderedMap Slot SlotDiff

namespace SlotDiffs

/-- What is recorded of a slot. -/
def recorded (diffs : SlotDiffs) (slot : Slot) : SlotDiff := (diffs.get? slot).getD {}

/-- Changes the record of a slot and keeps it even if it says nothing. -/
def update (diffs : SlotDiffs) (slot : Slot) (f : SlotDiff → SlotDiff) : SlotDiffs :=
  diffs.insert slot (f (diffs.recorded slot))

/-- Changes the record of a slot and drops it if it says nothing any more. -/
def updatePruned (diffs : SlotDiffs) (slot : Slot) (f : SlotDiff → SlotDiff) : SlotDiffs :=
  let changed := f (diffs.recorded slot)
  if changed.isEmpty then diffs.erase slot else diffs.insert slot changed

end SlotDiffs

end StakingLedger
