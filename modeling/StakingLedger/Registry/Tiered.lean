import StakingLedger.Registry.Basic

/-! # Registries by supernet and node

In memory the slots of a registry, and their changes, are kept on two levels: a map of nodes for
every supernet. Whoever empties a slot drops its entry, and the supernet's map with it when that
was the last one. Read as a map of all slots, such a registry is the one that `Registry` is.
-/

namespace StakingLedger

namespace Slot

theorem compare_of_same_supernet (supernet : EntityId) (node node' : NodeId) :
    compare (⟨supernet, node⟩ : Slot) ⟨supernet, node'⟩ = compare node node' := by
  change (compare supernet supernet).then (compare node node') = _
  rw [Std.ReflOrd.compare_self]
  rfl

theorem compare_of_supernet_lt {supernet supernet' : EntityId} (node node' : NodeId)
    (h : compare supernet supernet' = .lt) :
    compare (⟨supernet, node⟩ : Slot) ⟨supernet', node'⟩ = .lt := by
  change (compare supernet supernet').then (compare node node') = _
  rw [h]
  rfl

end Slot

/-- Values by supernet and then by node. -/
abbrev NodeMap (β : Type) := OrderedMap EntityId (OrderedMap NodeId β)

namespace NodeMap

variable {β : Type}

/-- What stands in a slot. -/
def at? (m : NodeMap β) (slot : Slot) : Option β :=
  (m.get? slot.supernetId).bind (·.get? slot.nodeId)

/-- Puts a value into a slot, in a new map of nodes if the supernet has none. -/
def set (m : NodeMap β) (slot : Slot) (v : β) : NodeMap β :=
  let nodes := (m.get? slot.supernetId).getD .empty
  m.insert slot.supernetId (nodes.insert slot.nodeId v)

/-- Changes or drops what stands in a slot. A supernet whose map is empty then is dropped, and one
without a map is left alone. -/
def adjust (m : NodeMap β) (slot : Slot) (f : β → Option β) : NodeMap β :=
  m.alter slot.supernetId fun
    | none => none
    | some nodes =>
      let rest := nodes.alter slot.nodeId (·.bind f)
      if rest.isEmpty then none else some rest

/-- No supernet is kept for an empty map of nodes. -/
def Tidy (m : NodeMap β) : Prop :=
  ∀ supernet nodes, m.get? supernet = some nodes → nodes.isEmpty = false

/-- The entries of one supernet, by slot. -/
def slotEntries (supernet : EntityId) (nodes : OrderedMap NodeId β) : List (Slot × β) :=
  nodes.entries.map fun e => (⟨supernet, e.1⟩, e.2)

theorem sorted_slotEntries (m : NodeMap β) :
    (m.entries.flatMap fun e => slotEntries e.1 e.2).Pairwise
      fun a b => compare a.1 b.1 = .lt := by
  refine List.pairwise_flatMap.mpr ⟨fun e _ => ?_, m.sorted.imp fun {e e'} hlt a ha b hb => ?_⟩
  · refine List.pairwise_map.mpr (e.2.sorted.imp fun {n n'} hlt => ?_)
    rw [Slot.compare_of_same_supernet]
    exact hlt
  · obtain ⟨n, _, rfl⟩ := List.mem_map.mp ha
    obtain ⟨n', _, rfl⟩ := List.mem_map.mp hb
    exact Slot.compare_of_supernet_lt _ _ hlt

/-- The map of all slots, in the order of supernets and nodes. -/
def flat (m : NodeMap β) : OrderedMap Slot β :=
  ⟨m.entries.flatMap fun e => slotEntries e.1 e.2, sorted_slotEntries m⟩

end NodeMap

/-- A set of stakers and its changes since the last flush, by supernet and then by node. -/
structure TieredRegistry where
  slots : NodeMap SlotStakers := .empty
  stakers : StakerTree := .empty
  diffs : NodeMap SlotDiff := .empty
  deriving DecidableEq

namespace TieredRegistry

/-- The registry that keeps the same slots in one map. -/
def flat (t : TieredRegistry) : Registry := ⟨t.slots.flat, t.stakers, t.diffs.flat⟩

/-- The validator of a slot. -/
def validator? (t : TieredRegistry) (slot : Slot) : Option Staker :=
  (t.slots.at? slot).bind (·.validator)

/-- The delegators of a slot, in their order. -/
def delegators (t : TieredRegistry) (slot : Slot) : StakerSeq :=
  match t.slots.at? slot with
  | none => .empty
  | some entry => .ofTree entry.delegators

/-- Every staker, in order. -/
def all (t : TieredRegistry) : StakerSeq := .ofTree t.stakers

def size (t : TieredRegistry) : Nat := t.stakers.size

/-- The stakers of a slot, nobody if it is not kept. -/
def entry (t : TieredRegistry) (slot : Slot) : SlotStakers := (t.slots.at? slot).getD {}

/-- Changes the stakers of a slot that is kept, and drops the slot once nobody is left. -/
def updateSlot (t : TieredRegistry) (slot : Slot) (f : SlotStakers → SlotStakers) :
    NodeMap SlotStakers :=
  t.slots.adjust slot fun entry => if (f entry).isEmpty then none else some (f entry)

/-- Changes the record of a slot, a new one if there is none. -/
def record (t : TieredRegistry) (slot : Slot) (f : SlotDiff → SlotDiff) : NodeMap SlotDiff :=
  t.diffs.set slot (f ((t.diffs.at? slot).getD {}))

/-- Drops the record of a slot if it says nothing. -/
def prune (diffs : NodeMap SlotDiff) (slot : Slot) : NodeMap SlotDiff :=
  diffs.adjust slot fun d => if d.isEmpty then none else some d

/-- Adds a validator; one that is already in the slot is replaced and leaves the set. -/
def putValidator (t : TieredRegistry) (s : Staker) : TieredRegistry :=
  let others := match (t.entry s.slot).validator with
    | some replaced => t.stakers.erase replaced.key
    | none => t.stakers
  { slots := t.slots.set s.slot { t.entry s.slot with validator := some s }
    stakers := others.insert s.key s
    diffs := t.record s.slot (·.putValidator s) }

/-- Removes a validator. -/
def deleteValidator (t : TieredRegistry) (s : Staker) : TieredRegistry :=
  { slots := t.updateSlot s.slot fun entry => { entry with validator := none }
    stakers := t.stakers.erase s.key
    diffs := prune (t.record s.slot (·.deleteValidator s)) s.slot }

/-- Adds a delegator. -/
def putDelegator (t : TieredRegistry) (s : Staker) : TieredRegistry :=
  let entry := t.entry s.slot
  { slots := t.slots.set s.slot { entry with delegators := entry.delegators.insert s.key s }
    stakers := t.stakers.insert s.key s
    diffs := prune (t.record s.slot (·.putDelegator s)) s.slot }

/-- Removes a delegator. -/
def deleteDelegator (t : TieredRegistry) (s : Staker) : TieredRegistry :=
  { slots := t.updateSlot s.slot fun entry =>
      { entry with delegators := entry.delegators.erase s.key }
    stakers := t.stakers.erase s.key
    diffs := prune (t.record s.slot (·.deleteDelegator s)) s.slot }

/-- Adds a staker in the place its priority asks for. -/
def put (t : TieredRegistry) (s : Staker) : TieredRegistry :=
  if s.isValidator then t.putValidator s else t.putDelegator s

/-- Forgets the recorded changes, once they are flushed. -/
def clearDiffs (t : TieredRegistry) : TieredRegistry := { t with diffs := .empty }

end TieredRegistry

end StakingLedger
