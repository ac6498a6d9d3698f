import StakingLedger.Registry.SlotDiff

/-! # The committed registry of stakers

One set of stakers, found by slot and walked as a whole, together with what
changed since the last flush. A slot without validator and delegators is not
kept. The operations trust their caller: a put staker is expected to be absent
and a deleted one to be present.
-/

namespace StakingLedger

/-- The stakers of one slot. -/
structure SlotStakers where
  validator : Option Staker := none
  delegators : StakerTree := .empty
  deriving DecidableEq

namespace SlotStakers

instance : Inhabited SlotStakers := ⟨{}⟩

def isEmpty (entry : SlotStakers) : Bool := entry.validator.isNone && entry.delegators.isEmpty

end SlotStakers

/-- A set of stakers and its changes since the last flush. -/
structure Registry where
  /-- The stakers by slot. -/
  slots : OrderedMap Slot SlotStakers := .empty
  /-- All stakers in their order. -/
  stakers : StakerTree := .empty
  /-- What changed since the last flush. -/
  diffs : SlotDiffs := .empty
  deriving DecidableEq

namespace Registry

instance : Inhabited Registry := ⟨{}⟩

/-- The stakers of a slot. -/
def slotStakers (r : Registry) (slot : Slot) : SlotStakers := (r.slots.get? slot).getD {}

/-- The validator of a slot. -/
def validator? (r : Registry) (slot : Slot) : Option Staker := (r.slotStakers slot).validator

/-- The delegators of a slot, in their order. -/
def delegators (r : Registry) (slot : Slot) : StakerSeq := .ofTree (r.slotStakers slot).delegators

/-- Every staker, in order. -/
def all (r : Registry) : StakerSeq := .ofTree r.stakers

def size (r : Registry) : Nat := r.stakers.size

def isEmpty (r : Registry) : Bool := r.stakers.isEmpty

/-- Whether anything changed since the last flush. -/
def hasChanges (r : Registry) : Bool := !r.diffs.isEmpty

/-- Changes the stakers of a slot that is kept, and drops the slot once nobody is left. -/
def updateSlot (r : Registry) (slot : Slot) (f : SlotStakers → SlotStakers) :
    OrderedMap Slot SlotStakers :=
  r.slots.alter slot fun
    | none => none
    | some entry => if (f entry).isEmpty then none else some (f entry)

/-- Adds a validator; one that is already in the slot is replaced and leaves the set. -/
def putValidator (r : Registry) (s : Staker) : Registry :=
  let entry := r.slotStakers s.slot
  let others := match entry.validator with
    | some replaced => r.stakers.erase replaced.key
    | none => r.stakers
  { slots := r.slots.insert s.slot { entry with validator := some s }
    stakers := others.insert s.key s
    diffs := r.diffs.update s.slot (·.putValidator s) }

/-- Removes a validator. -/
def deleteValidator (r : Registry) (s : Staker) : Registry :=
  { slots := r.updateSlot s.slot fun entry => { entry with validator := none }
    stakers := r.stakers.erase s.key
    diffs := r.diffs.updatePruned s.slot (·.deleteValidator s) }

/-- Adds a delegator. -/
def putDelegator (r : Registry) (s : Staker) : Registry :=
  let entry := r.slotStakers s.slot
  { slots := r.slots.insert s.slot { entry with delegators := entry.delegators.insert s.key s }
    stakers := r.stakers.insert s.key s
    diffs := r.diffs.updatePruned s.slot (·.putDelegator s) }

/-- Removes a delegator. -/
def deleteDelegator (r : Registry) (s : Staker) : Registry :=
  { slots := r.updateSlot s.slot fun entry =>
      { entry with delegators := entry.delegators.erase s.key }
    stakers := r.stakers.erase s.key
    diffs := r.diffs.updatePruned s.slot (·.deleteDelegator s) }

/-- Adds a staker in the place its priority asks for. -/
def put (r : Registry) (s : Staker) : Registry :=
  if s.isValidator then r.putValidator s else r.putDelegator s

/-- Forgets the recorded changes, once they are flushed. -/
def clearDiffs (r : Registry) : Registry := { r with diffs := .empty }

end Registry

end StakingLedger
