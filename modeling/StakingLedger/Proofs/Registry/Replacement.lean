import StakingLedger.Proofs.Registry.Content
import StakingLedger.Proofs.Registry.Layering

/-! # Replacing a validator of the same level

A validator that is put into a slot takes the place of the one that was put there before, on the
same registry since its last flush or on the same layer. That comes to the same as deleting the
old one and then putting the new one: the record of the slot, the slot itself and the whole set
all end up alike.
-/

namespace StakingLedger

/-- A value that is stored under a key hides what the map had there before. -/
theorem OrderedMap.insert_congr {α β : Type} [Ord α] [Std.TransOrd α] [Std.LawfulEqOrd α]
    {m n : OrderedMap α β} {k : α} (v : β) (h : ∀ k', k' ≠ k → m.get? k' = n.get? k') :
    m.insert k v = n.insert k v := by
  apply ext_get?
  intro k'
  by_cases heq : k' = k
  · rw [heq, get?_insert_self, get?_insert_self]
  · rw [get?_insert_ne _ _ heq, get?_insert_ne _ _ heq, h k' heq]

variable {s old : Staker} {slot : Slot}

/-! ## The record of a slot -/

namespace SlotDiff

variable {d : SlotDiff}

/-- Deleting the validator of a diff that added one gives back what stood there before. -/
theorem deleteValidator_of_added (h : d.status = .added) (old : Staker) :
    d.deleteValidator old =
      { d with
        status := if d.superseded.isSome then .deleted else .unmodified
        validator := d.superseded
        superseded := none } := by
  unfold deleteValidator
  rw [if_pos h]
  obtain ⟨_, _, superseded, _, _⟩ := d
  cases superseded <;> rfl

theorem status_deleteValidator_of_added (h : d.status = .added) (old : Staker) :
    (d.deleteValidator old).status ≠ .added := by
  rw [deleteValidator_of_added h]
  cases d.superseded <;> nofun

/-- A diff that says nothing after its validator was deleted is the fresh one. -/
theorem deleteValidator_eq_default (h : d.status = .added)
    (hempty : (d.deleteValidator old).isEmpty = true) : d.deleteValidator old = {} := by
  rw [deleteValidator_of_added h] at hempty ⊢
  simp only [isEmpty, Bool.and_eq_true, beq_iff_eq] at hempty
  obtain ⟨⟨hstatus, hadded⟩, hdeleted⟩ := hempty
  have hsuperseded : d.superseded = none := by
    cases hsuperseded : d.superseded with
    | none => rfl
    | some previous =>
        rw [hsuperseded] at hstatus
        cases hstatus
  rw [hsuperseded, OrderedMap.eq_empty_of_isEmpty hadded, OrderedMap.eq_empty_of_isEmpty hdeleted]
  rfl

theorem putValidator_deleteValidator (h : d.status = .added) (old s : Staker) :
    (d.deleteValidator old).putValidator s = d.putValidator s := by
  have hkept : d.status ≠ .deleted := by
    rw [h]
    decide
  rw [deleteValidator_of_added h, putValidator, putValidator, if_neg hkept]
  cases hsuperseded : d.superseded <;> rfl

end SlotDiff

namespace SlotDiffs

variable {diffs : SlotDiffs}

theorem recorded_deleteValidator (h : (diffs.recorded slot).status = .added) (old : Staker) :
    (diffs.updatePruned slot (·.deleteValidator old)).recorded slot =
      (diffs.recorded slot).deleteValidator old := by
  rw [recorded_updatePruned _ _ _ fun hempty => SlotDiff.deleteValidator_eq_default h hempty,
    if_pos rfl]

theorem update_putValidator_over (h : (diffs.recorded slot).status = .added) (old s : Staker) :
    (diffs.updatePruned slot (·.deleteValidator old)).update slot (·.putValidator s) =
      diffs.update slot (·.putValidator s) := by
  rw [update, recorded_deleteValidator h, SlotDiff.putValidator_deleteValidator h]
  refine OrderedMap.insert_congr _ fun slot' hne => ?_
  unfold updatePruned
  dsimp only
  split
  · rw [OrderedMap.get?_erase_ne _ hne]
  · rw [OrderedMap.get?_insert_ne _ _ hne]

end SlotDiffs

/-! ## The committed registry -/

/-- Replacing a validator that was put since the last flush. -/
theorem Registry.putValidator_eq_delete_put {r : Registry} (hslot : old.slot = s.slot)
    (hadded : (r.diffs.recorded s.slot).status = .added) (hheld : r.validator? s.slot = some old) :
    r.putValidator s = (r.deleteValidator old).putValidator s := by
  have hentry : (r.deleteValidator old).slotStakers s.slot =
      { r.slotStakers s.slot with validator := none } := by
    rw [deleteValidator, slotStakers_updateSlot _ _ _ _ rfl, if_pos hslot.symm, hslot]
  have hvalidator : (r.slotStakers s.slot).validator = some old := hheld
  rw [putValidator, putValidator.eq_def (r.deleteValidator old), hentry, hvalidator]
  dsimp only
  congr 1
  · refine OrderedMap.insert_congr _ fun slot' hne => ?_
    rw [deleteValidator, hslot]
    dsimp only [updateSlot]
    rw [OrderedMap.get?_alter, if_neg (OrderedMap.compare_ne_eq_of_ne hne)]
  · rw [deleteValidator, hslot]
    exact (SlotDiffs.update_putValidator_over hadded old s).symm

/-! ## The registry of a layer -/

/-- Replacing a validator that the layer itself put. -/
theorem RegistryOverlay.putValidator_eq_delete_put {o : RegistryOverlay} (hslot : old.slot = s.slot)
    (hadded : (o.diffs.recorded s.slot).status = .added)
    (hheld : (o.diffs.recorded s.slot).validator = some old)
    (hlisted : o.added.contains old.key = true) :
    o.putValidator s = (o.deleteValidator old).putValidator s := by
  have hreplaced : (o.diffs.recorded s.slot).replaced? = some old := by
    rw [SlotDiff.replaced?, if_pos hadded, hheld]
  have hforget : o.forget old = { o with added := o.added.erase old.key } := by
    rw [forget, if_pos hlisted]
  have hnone : ((o.diffs.updatePruned s.slot (·.deleteValidator old)).recorded s.slot).replaced? =
      none := by
    rw [SlotDiffs.recorded_deleteValidator hadded, SlotDiff.replaced?,
      if_neg (SlotDiff.status_deleteValidator_of_added hadded old)]
  rw [putValidator, putValidator.eq_def (o.deleteValidator old), deleteValidator, hforget, hslot,
    hreplaced, hnone]
  dsimp only
  rw [SlotDiffs.update_putValidator_over hadded]

end StakingLedger
