import StakingLedger.Proofs.Registry.Trading
import StakingLedger.Proofs.State.Loading
import StakingLedger.Registry.Tiered

/-! # The two levels of a registry

A registry kept by supernet and node does what the one with a single map of slots does: every
operation commutes with the reading of the two levels as one. Beyond that it keeps no empty map
of nodes, so what it holds in memory is what its slots and records need.
-/

namespace StakingLedger

theorem Slot.ext_ids {slot slot' : Slot} (hsupernet : slot.supernetId = slot'.supernetId)
    (hnode : slot.nodeId = slot'.nodeId) : slot = slot' := by
  cases slot
  cases slot'
  cases hsupernet
  cases hnode
  rfl

namespace NodeMap

variable {β : Type} {m : NodeMap β} {slot slot' : Slot}

theorem mem_slotEntries {supernet : EntityId} {nodes : OrderedMap NodeId β} {v : β} :
    (slot, v) ∈ slotEntries supernet nodes ↔
      slot.supernetId = supernet ∧ nodes.get? slot.nodeId = some v := by
  rw [OrderedMap.get?_eq_some_iff, slotEntries, List.mem_map]
  constructor
  · rintro ⟨e, he, heq⟩
    cases heq
    exact ⟨rfl, he⟩
  · rintro ⟨rfl, he⟩
    exact ⟨_, he, rfl⟩

/-- Read as one map, the two levels have the same value in every slot. -/
theorem get?_flat (m : NodeMap β) (slot : Slot) : m.flat.get? slot = m.at? slot := by
  refine Option.ext fun v => ?_
  rw [OrderedMap.get?_eq_some_iff, flat, List.mem_flatMap, at?, Option.bind_eq_some_iff]
  constructor
  · rintro ⟨e, he, hv⟩
    obtain ⟨hsupernet, hnode⟩ := mem_slotEntries.mp hv
    exact ⟨e.2, OrderedMap.get?_eq_some_iff.mpr (hsupernet ▸ he), hnode⟩
  · rintro ⟨nodes, hnodes, hnode⟩
    exact ⟨_, OrderedMap.get?_eq_some_iff.mp hnodes, mem_slotEntries.mpr ⟨rfl, hnode⟩⟩

theorem at?_set (m : NodeMap β) (slot slot' : Slot) (v : β) :
    (m.set slot v).at? slot' = if slot' = slot then some v else m.at? slot' := by
  unfold at? set
  dsimp only
  by_cases hsupernet : slot'.supernetId = slot.supernetId
  · rw [hsupernet, OrderedMap.get?_insert_self, Option.bind_some]
    by_cases hnode : slot'.nodeId = slot.nodeId
    · rw [if_pos (Slot.ext_ids hsupernet hnode), hnode, OrderedMap.get?_insert_self]
    · rw [if_neg fun heq => hnode (congrArg Slot.nodeId heq), OrderedMap.get?_insert_ne _ _ hnode]
      cases m.get? slot.supernetId with
      | none => rfl
      | some nodes => rfl
  · rw [if_neg fun heq => hsupernet (congrArg Slot.supernetId heq),
      OrderedMap.get?_insert_ne _ _ hsupernet]

theorem at?_adjust (m : NodeMap β) (slot slot' : Slot) (f : β → Option β) :
    (m.adjust slot f).at? slot' = if slot' = slot then (m.at? slot).bind f else m.at? slot' := by
  unfold at? adjust
  rw [OrderedMap.get?_alter]
  by_cases hsupernet : slot'.supernetId = slot.supernetId
  · have hnodes : ∀ nodes : OrderedMap NodeId β,
        (nodes.alter slot.nodeId (·.bind f)).get? slot'.nodeId =
          if slot' = slot then (nodes.get? slot.nodeId).bind f else nodes.get? slot'.nodeId := by
      intro nodes
      rw [OrderedMap.get?_alter]
      by_cases heq : slot' = slot
      · rw [if_pos heq, if_pos (by rw [heq]; exact Std.ReflOrd.compare_self)]
      · have hnode : slot'.nodeId ≠ slot.nodeId := fun h => heq (Slot.ext_ids hsupernet h)
        rw [if_neg heq, if_neg (OrderedMap.compare_ne_eq_of_ne hnode)]
    rw [hsupernet, if_pos Std.ReflOrd.compare_self]
    cases m.get? slot.supernetId with
    | none => simp
    | some nodes =>
        dsimp only
        split
        next hempty =>
          have hnone := OrderedMap.isEmpty_iff_forall.mp hempty slot'.nodeId
          rw [hnodes] at hnone
          exact hnone.symm
        next => exact hnodes nodes
  · rw [if_neg (OrderedMap.compare_ne_eq_of_ne hsupernet),
      if_neg fun heq => hsupernet (congrArg Slot.supernetId heq)]

theorem flat_set (m : NodeMap β) (slot : Slot) (v : β) :
    (m.set slot v).flat = m.flat.insert slot v := by
  apply OrderedMap.ext_get?
  intro slot'
  rw [get?_flat, at?_set]
  by_cases heq : slot' = slot
  · rw [if_pos heq, heq, OrderedMap.get?_insert_self]
  · rw [if_neg heq, OrderedMap.get?_insert_ne _ _ heq, get?_flat]

theorem flat_adjust (m : NodeMap β) (slot : Slot) (f : β → Option β) :
    (m.adjust slot f).flat = m.flat.alter slot (·.bind f) := by
  apply OrderedMap.ext_get?
  intro slot'
  rw [get?_flat, at?_adjust, OrderedMap.get?_alter, get?_flat, get?_flat]
  by_cases heq : slot' = slot
  · rw [if_pos heq, if_pos (by rw [heq]; exact Std.ReflOrd.compare_self)]
  · rw [if_neg heq, if_neg (OrderedMap.compare_ne_eq_of_ne heq)]

namespace Tidy

theorem empty : Tidy (OrderedMap.empty : NodeMap β) := by
  intro supernet nodes hget
  cases hget

theorem set (h : m.Tidy) (slot : Slot) (v : β) : (m.set slot v).Tidy := by
  intro supernet nodes hget
  unfold NodeMap.set at hget
  dsimp only at hget
  rw [OrderedMap.get?_insert] at hget
  split at hget
  · cases hget
    exact OrderedMap.isEmpty_insert _ _ _
  · exact h supernet nodes hget

theorem adjust (h : m.Tidy) (slot : Slot) (f : β → Option β) : (m.adjust slot f).Tidy := by
  intro supernet nodes hget
  unfold NodeMap.adjust at hget
  rw [OrderedMap.get?_alter] at hget
  split at hget
  · split at hget
    · cases hget
    · dsimp only at hget
      split at hget
      · cases hget
      next hkept =>
        cases hget
        simpa using hkept
  · exact h supernet nodes hget

end Tidy

end NodeMap

namespace TieredRegistry

variable {t : TieredRegistry} {s : Staker} {slot : Slot}

/-! ## One map for two levels -/

theorem entry_eq (t : TieredRegistry) (slot : Slot) : t.entry slot = t.flat.slotStakers slot := by
  rw [entry, Registry.slotStakers, flat, NodeMap.get?_flat]

theorem validator?_eq (t : TieredRegistry) (slot : Slot) :
    t.validator? slot = t.flat.validator? slot := by
  rw [Registry.validator?, ← entry_eq, entry, validator?]
  cases t.slots.at? slot with
  | none => rfl
  | some entry => rfl

theorem delegators_eq (t : TieredRegistry) (slot : Slot) :
    t.delegators slot = t.flat.delegators slot := by
  rw [Registry.delegators, ← entry_eq, entry, delegators]
  cases t.slots.at? slot with
  | none => rfl
  | some entry => rfl

theorem flat_updateSlot (t : TieredRegistry) (slot : Slot) (f : SlotStakers → SlotStakers) :
    (t.updateSlot slot f).flat = t.flat.updateSlot slot f := by
  rw [updateSlot, NodeMap.flat_adjust, Registry.updateSlot]
  congr 1
  funext entry?
  cases entry? with
  | none => rfl
  | some entry => rfl

theorem flat_record (t : TieredRegistry) (slot : Slot) (f : SlotDiff → SlotDiff) :
    (t.record slot f).flat = t.flat.diffs.update slot f := by
  rw [record, NodeMap.flat_set, SlotDiffs.update, SlotDiffs.recorded, flat, NodeMap.get?_flat]

/-- A record that is changed and then pruned is one that is dropped or stored. -/
theorem flat_prune_record (t : TieredRegistry) (slot : Slot) (f : SlotDiff → SlotDiff) :
    (prune (t.record slot f) slot).flat = t.flat.diffs.updatePruned slot f := by
  rw [prune, NodeMap.flat_adjust, flat_record]
  apply OrderedMap.ext_get?
  intro slot'
  have hself : (t.flat.diffs.update slot f).get? slot = some (f (t.flat.diffs.recorded slot)) :=
    OrderedMap.get?_insert_self _ _ _
  rw [OrderedMap.get?_alter, hself, SlotDiffs.updatePruned, Option.bind_some, SlotDiffs.update]
  by_cases heq : slot' = slot
  · subst heq
    rw [if_pos Std.ReflOrd.compare_self]
    split
    · rw [OrderedMap.get?_erase_self]
    · rw [OrderedMap.get?_insert_self]
  · rw [if_neg (OrderedMap.compare_ne_eq_of_ne heq), OrderedMap.get?_insert_ne _ _ heq]
    split
    · rw [OrderedMap.get?_erase_ne _ heq]
    · rw [OrderedMap.get?_insert_ne _ _ heq]

theorem flat_putValidator (t : TieredRegistry) (s : Staker) :
    (t.putValidator s).flat = t.flat.putValidator s := by
  unfold putValidator Registry.putValidator
  rw [flat, NodeMap.flat_set, flat_record, entry_eq]
  rfl

theorem flat_deleteValidator (t : TieredRegistry) (s : Staker) :
    (t.deleteValidator s).flat = t.flat.deleteValidator s := by
  unfold deleteValidator Registry.deleteValidator
  rw [flat, flat_updateSlot, flat_prune_record]
  rfl

theorem flat_putDelegator (t : TieredRegistry) (s : Staker) :
    (t.putDelegator s).flat = t.flat.putDelegator s := by
  unfold putDelegator Registry.putDelegator
  rw [flat, NodeMap.flat_set, flat_prune_record, entry_eq]
  rfl

theorem flat_deleteDelegator (t : TieredRegistry) (s : Staker) :
    (t.deleteDelegator s).flat = t.flat.deleteDelegator s := by
  unfold deleteDelegator Registry.deleteDelegator
  rw [flat, flat_updateSlot, flat_prune_record]
  rfl

theorem flat_put (t : TieredRegistry) (s : Staker) : (t.put s).flat = t.flat.put s := by
  unfold put Registry.put
  split
  · exact t.flat_putValidator s
  · exact t.flat_putDelegator s

theorem flat_clearDiffs (t : TieredRegistry) : t.clearDiffs.flat = t.flat.clearDiffs := rfl

/-! ## No empty maps -/

/-- Neither the slots nor the records of a supernet are kept as an empty map. -/
structure Tidy (t : TieredRegistry) : Prop where
  slots : t.slots.Tidy
  diffs : t.diffs.Tidy

namespace Tidy

theorem empty : Tidy {} := ⟨.empty, .empty⟩

theorem putValidator (h : t.Tidy) (s : Staker) : (t.putValidator s).Tidy :=
  ⟨h.slots.set _ _, h.diffs.set _ _⟩

theorem deleteValidator (h : t.Tidy) (s : Staker) : (t.deleteValidator s).Tidy :=
  ⟨h.slots.adjust _ _, (h.diffs.set _ _).adjust _ _⟩

theorem putDelegator (h : t.Tidy) (s : Staker) : (t.putDelegator s).Tidy :=
  ⟨h.slots.set _ _, (h.diffs.set _ _).adjust _ _⟩

theorem deleteDelegator (h : t.Tidy) (s : Staker) : (t.deleteDelegator s).Tidy :=
  ⟨h.slots.adjust _ _, (h.diffs.set _ _).adjust _ _⟩

theorem put (h : t.Tidy) (s : Staker) : (t.put s).Tidy := by
  unfold TieredRegistry.put
  split
  · exact h.putValidator s
  · exact h.putDelegator s

theorem clearDiffs (h : t.Tidy) : t.clearDiffs.Tidy := ⟨h.slots, .empty⟩

end Tidy

/-! ## Loading -/

/-- Puts one stored staker into a registry. -/
def loadStep (space : KeySpace) (t : TieredRegistry) (entry : Bytes × Bytes) :
    Answer TieredRegistry := do
  let staker ← State.loadStaker space entry.1 entry.2
  return t.put staker

/-- The stored stakers of a phase, by supernet and node. -/
def load (store : Store) (space : KeySpace) : Answer TieredRegistry := do
  let registry ← (store.scan space.bytes).foldlM (loadStep space) ({} : TieredRegistry)
  return registry.clearDiffs

theorem flat_loadSteps (space : KeySpace) (entries : List (Bytes × Bytes)) (t : TieredRegistry) :
    (entries.foldlM (loadStep space) t).map flat =
      entries.foldlM (State.loadStep space) t.flat := by
  induction entries generalizing t with
  | nil => rfl
  | cons e rest ih =>
      rw [List.foldlM_cons, List.foldlM_cons, loadStep, State.loadStep]
      cases State.loadStaker space e.1 e.2 with
      | error fault => rfl
      | ok s => exact (ih (t.put s)).trans (by rw [flat_put]; rfl)

/-- Loading on two levels is loading into one map, faults included. -/
theorem flat_load (store : Store) (space : KeySpace) :
    (load store space).map flat = State.loadRegistry store space := by
  have hsteps := flat_loadSteps space (store.scan space.bytes) {}
  change ((store.scan space.bytes).foldlM (loadStep space) {} >>= _).map flat =
    (store.scan space.bytes).foldlM (State.loadStep space) {} >>= _
  rw [show ({} : Registry) = flat {} from rfl, ← hsteps]
  cases (store.scan space.bytes).foldlM (loadStep space) {} with
  | error fault => rfl
  | ok t => rfl

theorem tidy_of_loadSteps {space : KeySpace} {entries : List (Bytes × Bytes)}
    {t t' : TieredRegistry} (ht : t.Tidy) (h : entries.foldlM (loadStep space) t = .ok t') :
    t'.Tidy := by
  refine foldlM_keeps Tidy (fun hstep ht => ?_) h ht
  obtain ⟨s, _, hput⟩ := bind_eq_ok_iff.mp hstep
  cases hput
  exact ht.put s

theorem tidy_of_load {store : Store} {space : KeySpace} (h : load store space = .ok t) :
    t.Tidy := by
  obtain ⟨t', hfold, ht⟩ := bind_eq_ok_iff.mp h
  cases ht
  exact (tidy_of_loadSteps Tidy.empty hfold).clearDiffs

end TieredRegistry

end StakingLedger
