import StakingLedger.Proofs.Registry.SlotHistory
import StakingLedger.Proofs.Registry.Tiered
import StakingLedger.Registry.TieredOverlay

/-! # The two levels of a layer's registry

Read as one map of slots, the registry of a layer on two levels is the one with a single map: its
reads are the same, and every operation commutes with the reading. It keeps no empty map of nodes,
so that the outer map is empty just if no slot has a record.
-/

namespace StakingLedger

/-- Where no supernet is kept for an empty map, there is none if no slot has a value. -/
theorem NodeMap.Tidy.isEmpty_iff {β : Type} {m : NodeMap β} (h : m.Tidy) :
    m.isEmpty = true ↔ ∀ slot, m.at? slot = none := by
  constructor
  · intro hempty slot
    rw [at?, OrderedMap.isEmpty_iff_forall.mp hempty, Option.bind_none]
  · intro hnone
    refine OrderedMap.isEmpty_iff_forall.mpr fun supernet => ?_
    cases hget : m.get? supernet with
    | none => rfl
    | some nodes =>
        have hempty : nodes.isEmpty = true := OrderedMap.isEmpty_iff_forall.mpr fun node => by
          have hslot := hnone ⟨supernet, node⟩
          rwa [at?, hget, Option.bind_some] at hslot
        rw [h supernet nodes hget] at hempty
        cases hempty

/-! ## Calls -/

def RegistryOverlay.change (o : RegistryOverlay) : SlotChange → RegistryOverlay
  | .putValidator s => o.putValidator s
  | .deleteValidator s => o.deleteValidator s
  | .putDelegator s => o.putDelegator s
  | .deleteDelegator s => o.deleteDelegator s

namespace TieredOverlay

def change (t : TieredOverlay) : SlotChange → TieredOverlay
  | .putValidator s => t.putValidator s
  | .deleteValidator s => t.deleteValidator s
  | .putDelegator s => t.putDelegator s
  | .deleteDelegator s => t.deleteDelegator s

variable {t : TieredOverlay}

/-! ## One map for two levels -/

theorem recorded_eq (t : TieredOverlay) (slot : Slot) :
    t.recorded slot = t.flat.diffs.recorded slot := by
  rw [recorded, SlotDiffs.recorded, flat, NodeMap.get?_flat]

theorem validator?_eq (t : TieredOverlay) (slot : Slot) :
    t.validator? slot = t.flat.validator? slot := by
  have hget : t.flat.diffs.get? slot = t.diffs.at? slot := t.diffs.get?_flat slot
  unfold validator? RegistryOverlay.validator?
  exact hget ▸ rfl

theorem delegators_eq (t : TieredOverlay) (parent : StakerSeq) (slot : Slot) :
    t.delegators parent slot = t.flat.delegators parent slot := by
  have hget : t.flat.diffs.get? slot = t.diffs.at? slot := t.diffs.get?_flat slot
  unfold delegators RegistryOverlay.delegators
  exact hget ▸ rfl

/-- Without empty maps of nodes the outer map alone tells whether there is a record. -/
theorem isEmpty_eq (h : t.diffs.Tidy) : t.isEmpty = t.flat.isEmpty := by
  rw [Bool.eq_iff_iff, isEmpty, h.isEmpty_iff, RegistryOverlay.isEmpty,
    OrderedMap.isEmpty_iff_forall]
  exact forall_congr' fun slot => by rw [flat, NodeMap.get?_flat]

theorem flat_record (t : TieredOverlay) (slot : Slot) (f : SlotDiff → SlotDiff) :
    (t.record slot f).flat = t.flat.diffs.update slot f :=
  TieredRegistry.flat_record { diffs := t.diffs } slot f

theorem flat_prune_record (t : TieredOverlay) (slot : Slot) (f : SlotDiff → SlotDiff) :
    (TieredRegistry.prune (t.record slot f) slot).flat = t.flat.diffs.updatePruned slot f :=
  TieredRegistry.flat_prune_record { diffs := t.diffs } slot f

theorem flat_forget (t : TieredOverlay) (s : Staker) : (t.forget s).flat = t.flat.forget s := by
  unfold forget RegistryOverlay.forget
  split
  next hadded => rw [if_pos (show t.flat.added.contains s.key = true from hadded)]; rfl
  next hkept => rw [if_neg (show ¬ t.flat.added.contains s.key = true from hkept)]; rfl

/-- A deletion forgets the staker and changes the record of its slot. -/
theorem flat_forget_record (t : TieredOverlay) (s : Staker) (f : SlotDiff → SlotDiff) :
    flat { t.forget s with diffs := TieredRegistry.prune (t.record s.slot f) s.slot } =
      { t.flat.forget s with diffs := t.flat.diffs.updatePruned s.slot f } := by
  rw [← flat_forget, ← flat_prune_record]
  rfl

theorem flat_putValidator (t : TieredOverlay) (s : Staker) :
    (t.putValidator s).flat = t.flat.putValidator s := by
  unfold putValidator RegistryOverlay.putValidator
  rw [recorded_eq, flat, flat_record]
  rfl

theorem flat_putDelegator (t : TieredOverlay) (s : Staker) :
    (t.putDelegator s).flat = t.flat.putDelegator s := by
  unfold putDelegator RegistryOverlay.putDelegator
  rw [recorded_eq]
  dsimp only
  split
  · rw [flat, flat_prune_record]
    rfl
  · rw [flat, flat_prune_record]
    rfl

theorem flat_change (t : TieredOverlay) (c : SlotChange) : (t.change c).flat = t.flat.change c := by
  cases c with
  | putValidator s => exact t.flat_putValidator s
  | deleteValidator s => exact t.flat_forget_record s _
  | putDelegator s => exact t.flat_putDelegator s
  | deleteDelegator s => exact t.flat_forget_record s _

/-! ## No empty maps -/

theorem tidy_change (h : t.diffs.Tidy) (c : SlotChange) : (t.change c).diffs.Tidy := by
  cases c with
  | putValidator s => exact h.set _ _
  | deleteValidator s => exact (h.set _ _).adjust _ _
  | putDelegator s =>
      unfold change putDelegator
      dsimp only
      split
      · exact (h.set _ _).adjust _ _
      · exact (h.set _ _).adjust _ _
  | deleteDelegator s => exact (h.set _ _).adjust _ _

end TieredOverlay

end StakingLedger
