import StakingLedger.Proofs.Registry.NetChange
import StakingLedger.Proofs.Staker.Enumeration
import StakingLedger.Registry.Overlay

/-! # What a layer says about a set of stakers

The registry of a layer tells how the set of its parent turned into its own.
The flat indexes tell less than the slot diffs: a validator that was deleted
and put again stands in both of them, while such a delegator stands in
neither. The combined views show the layer's own set all the same.
-/

namespace StakingLedger

/-- The stakers that the flat index of additions holds. -/
def SlotDiffs.incoming (diffs : SlotDiffs) (were are : Set Staker) : Set Staker :=
  {s | s ∈ are ∧ if s.isValidator then (diffs.recorded s.slot).status = .added else s ∉ were}

/-- The stakers that the flat index of deletions holds. -/
def SlotDiffs.outgoing (diffs : SlotDiffs) (were are : Set Staker) : Set Staker :=
  {s | s ∈ were ∧
    if s.isValidator then (diffs.recorded s.slot).status ≠ .unmodified else s ∉ are}

namespace RegistryOverlay

theorem diffs_putDelegator (o : RegistryOverlay) (s : Staker) :
    (o.putDelegator s).diffs = o.diffs.updatePruned s.slot (·.putDelegator s) := by
  unfold putDelegator
  dsimp only
  split <;> rfl

theorem diffs_deleteDelegator (o : RegistryOverlay) (s : Staker) :
    (o.deleteDelegator s).diffs = o.diffs.updatePruned s.slot (·.deleteDelegator s) := rfl

/-! ## One slot over that of the parent -/

section Reads

variable {o : RegistryOverlay} {slot : Slot} {before after : Option Staker} {were are : Set Staker}

/-- What the overlay says about a validator, over what its parent says. -/
theorem validator?_getD_of_nets (h : (o.diffs.recorded slot).Nets before after were are) :
    (o.validator? slot).getD before = after := by
  unfold validator?
  cases hget : o.diffs.get? slot with
  | none =>
      rw [SlotDiffs.recorded, hget] at h
      exact (h.unmodified rfl).2.2.symm
  | some d =>
      rw [SlotDiffs.recorded, hget, Option.getD_some] at h
      dsimp only
      cases hstatus : d.status with
      | unmodified => exact (h.unmodified hstatus).2.2.symm
      | added => exact (h.added hstatus).1
      | deleted => exact (h.deleted hstatus).2.2.2.symm

/-- Over a walk that meets the delegators of before, in whatever order, the overlay meets those of
now. -/
theorem mem_delegators_of_nets (h : (o.diffs.recorded slot).Nets before after were are)
    (htx : were.InjOn Staker.txId) {parent : StakerSeq} (hparent : ∀ s, s ∈ parent.toList ↔ s ∈ were)
    (s : Staker) : s ∈ (o.delegators parent slot).toList ↔ s ∈ are := by
  unfold delegators
  cases hget : o.diffs.get? slot with
  | none =>
      rw [SlotDiffs.recorded, hget] at h
      rw [(h.eq_default_of_isEmpty rfl).2.2]
      exact hparent s
  | some d =>
      rw [SlotDiffs.recorded, hget, Option.getD_some] at h
      have hhidden : s ∈ were → ((!d.deletedDelegators.contains s.txId) = true ↔ s ∈ are) := by
        intro hs
        rw [Bool.not_eq_true', ← Bool.not_eq_true, h.deletedDelegators.contains_iff]
        constructor
        · intro hkept
          by_contra hgone
          exact hkept ⟨s, ⟨hs, hgone⟩, rfl⟩
        · rintro hare ⟨t, ht, heq⟩
          exact ht.2 (htx ht.1 hs heq ▸ hare)
      dsimp only
      rw [StakerSeq.toList_merge, (StakerSeq.mergeLists_perm _ _).mem_iff, List.mem_append,
        StakerSeq.toList_mask, List.mem_filter, hparent, StakerSeq.toList_ofTree,
        h.addedDelegators.mem_values, and_congr_right hhidden, Set.mem_sdiff]
      tauto

end Reads

/-- The overlay says how the stakers went from `were` to `are`. -/
structure Nets (o : RegistryOverlay) (were are : Set Staker) : Prop where
  diffs : o.diffs.Net were are
  added : o.added.Indexes Staker.key (o.diffs.incoming were are)
  deleted : o.deleted.Indexes Staker.txId (o.diffs.outgoing were are)

namespace Nets

variable {o : RegistryOverlay} {were are : Set Staker} {s : Staker}

theorem refl (are : Set Staker) : Nets {} are are where
  diffs := SlotDiffs.Net.refl are
  added := OrderedMap.Indexes.empty.congr fun s => by
    simp [SlotDiffs.incoming, SlotDiffs.recorded]
  deleted := OrderedMap.Indexes.empty.congr fun s => by
    simp [SlotDiffs.outgoing, SlotDiffs.recorded]

/-! ## One slot of the overlay -/

theorem occupant_eq_of_unmodified (h : o.Nets were are) {slot : Slot}
    (hstatus : (o.diffs.recorded slot).status = .unmodified) :
    occupant are slot = occupant were slot :=
  ((h.diffs.nets slot).unmodified hstatus).2.2

theorem occupant_isSome_of_added (h : o.Nets were are) {slot : Slot}
    (hstatus : (o.diffs.recorded slot).status = .added) : (occupant are slot).isSome = true :=
  ((h.diffs.nets slot).added hstatus).2.1

theorem occupant_eq_none_of_deleted (h : o.Nets were are) {slot : Slot}
    (hstatus : (o.diffs.recorded slot).status = .deleted) : occupant are slot = none :=
  ((h.diffs.nets slot).deleted hstatus).2.2.2

/-- A present validator was there before exactly when its slot is not marked as added. -/
theorem status_of_mem (h : o.Nets were are) (hone : OneValidatorPerSlot are)
    (hv : s.isValidator = true) (hs : s ∈ are) :
    (o.diffs.recorded s.slot).status = .added ∨
      ((o.diffs.recorded s.slot).status = .unmodified ∧ s ∈ were) := by
  have hholds : occupant are s.slot = some s := (occupant_eq_some_iff hone).mpr ⟨hs, hv, rfl⟩
  cases hstatus : (o.diffs.recorded s.slot).status with
  | added => exact Or.inl rfl
  | unmodified =>
      refine Or.inr ⟨rfl, ?_⟩
      rw [h.occupant_eq_of_unmodified hstatus] at hholds
      exact mem_of_occupant hholds
  | deleted =>
      rw [h.occupant_eq_none_of_deleted hstatus] at hholds
      cases hholds

theorem status_ne_added_of_free (h : o.Nets were are) {slot : Slot}
    (hfree : occupant are slot = none) : (o.diffs.recorded slot).status ≠ .added := by
  intro hstatus
  have hsome := h.occupant_isSome_of_added hstatus
  rw [hfree] at hsome
  cases hsome

/-! ## Operations -/

theorem status_putDelegator (s : Staker) (d : SlotDiff) :
    (d.putDelegator s).status = d.status := by
  unfold SlotDiff.putDelegator
  split <;> rfl

theorem status_deleteDelegator (s : Staker) (d : SlotDiff) :
    (d.deleteDelegator s).status = d.status := by
  unfold SlotDiff.deleteDelegator
  split <;> rfl

/-- A validator put into a free slot is the one staker that becomes an addition. -/
theorem mem_incoming_putValidator (hv : s.isValidator = true)
    (hfree : occupant are s.slot = none) (t : Staker) :
    t ∈ (o.diffs.update s.slot (·.putValidator s)).incoming were (insert s are) ↔
      t = s ∨ t ∈ o.diffs.incoming were are := by
  have hslot : t ∈ are → t.isValidator = true → t.slot ≠ s.slot := occupant_eq_none_iff.mp hfree t
  simp only [SlotDiffs.incoming, Set.mem_insert_iff, Set.mem_ofPred_eq,
    SlotDiffs.recorded_update o.diffs s.slot]
  by_cases heq : t = s
  · simp [heq, hv, SlotDiff.putValidator]
  · simp only [heq, false_or]
    refine and_congr_right fun ht => ?_
    by_cases htv : t.isValidator = true
    · rw [if_pos htv, if_pos htv, if_neg (hslot ht htv)]
    · rw [if_neg htv, if_neg htv]

/-- A validator put into a free slot brings no deletion: if the slot had a validator before, that
one counts as deleted already. -/
theorem mem_outgoing_putValidator (h : o.Nets were are) (hwere : OneValidatorPerSlot were)
    (hv : s.isValidator = true) (hfree : occupant are s.slot = none) (t : Staker) :
    t ∈ (o.diffs.update s.slot (·.putValidator s)).outgoing were (insert s are) ↔
      t ∈ o.diffs.outgoing were are := by
  simp only [SlotDiffs.outgoing, Set.mem_insert_iff, Set.mem_ofPred_eq,
    SlotDiffs.recorded_update o.diffs s.slot]
  refine and_congr_right fun ht => ?_
  by_cases htv : t.isValidator = true
  · rw [if_pos htv, if_pos htv]
    by_cases hslot : t.slot = s.slot
    · rw [if_pos hslot]
      refine iff_of_true (by simp [SlotDiff.putValidator]) fun hunmodified => ?_
      have hsame := h.occupant_eq_of_unmodified hunmodified
      rw [(occupant_eq_some_iff hwere).mpr ⟨ht, htv, rfl⟩, hslot, hfree] at hsame
      cases hsame
    · rw [if_neg hslot]
  · have hne : t ≠ s := fun heq => htv (heq ▸ hv)
    rw [if_neg htv, if_neg htv, or_iff_right hne]

theorem putValidator (h : o.Nets were are) (hone : OneValidatorPerSlot are)
    (hwere : OneValidatorPerSlot were) (hv : s.isValidator = true)
    (hfree : occupant are s.slot = none) (htx : ∀ t ∈ are, t.txId = s.txId → t = s) :
    (o.putValidator s).Nets were (insert s are) := by
  have hreplaced : (o.diffs.recorded s.slot).replaced? = none := by
    rw [SlotDiff.replaced?, if_neg (h.status_ne_added_of_free hfree)]
  constructor
  · exact h.diffs.putValidator hone hv hfree
  · have hindex := h.added.insert (b := s) fun t ht heq =>
      htx t ht.1 (Staker.txId_of_key_eq heq)
    simp only [RegistryOverlay.putValidator, hreplaced]
    exact hindex.congr fun t => (mem_incoming_putValidator hv hfree t).symm
  · simp only [RegistryOverlay.putValidator, hreplaced]
    exact h.deleted.congr fun t => (h.mem_outgoing_putValidator hwere hv hfree t).symm

/-- Whether a staker stands in the index of additions. -/
theorem added_contains_iff (h : o.Nets were are)
    (htx : ∀ t ∈ are, t.txId = s.txId → t = s) :
    o.added.contains s.key = true ↔ s ∈ o.diffs.incoming were are := by
  rw [h.added.contains_iff]
  constructor
  · rintro ⟨t, ht, heq⟩
    exact htx t ht.1 (Staker.txId_of_key_eq heq) ▸ ht
  · exact fun hin => ⟨s, hin, rfl⟩

/-- Forgetting a staker, where the slot diffs turned into `diffs'` at the same time. -/
theorem forget (h : o.Nets were are) {diffs' : SlotDiffs} {are' : Set Staker}
    (htx : ∀ t ∈ were ∪ are, t.txId = s.txId → t = s) (hdiffs : diffs'.Net were are')
    (hincoming : ∀ t, t ∈ diffs'.incoming were are' ↔ t ∈ o.diffs.incoming were are ∧ t ≠ s)
    (houtgoing : ∀ t, t ∈ diffs'.outgoing were are' ↔
      t ∈ o.diffs.outgoing were are ∨ (t = s ∧ s ∉ o.diffs.incoming were are)) :
    ({ o.forget s with diffs := diffs' } : RegistryOverlay).Nets were are' := by
  have hcontains := h.added_contains_iff fun t ht => htx t (Or.inr ht)
  by_cases hin : s ∈ o.diffs.incoming were are
  · rw [RegistryOverlay.forget, if_pos (hcontains.mpr hin)]
    refine ⟨hdiffs, (h.added.erase hin).congr fun t => (hincoming t).symm,
      h.deleted.congr fun t => ?_⟩
    rw [houtgoing]
    exact ⟨Or.inl, fun ht => ht.elim id fun hnew => absurd hin hnew.2⟩
  · rw [RegistryOverlay.forget, if_neg (mt hcontains.mp hin)]
    refine ⟨hdiffs, h.added.congr fun t => ?_, ?_⟩
    · rw [hincoming]
      exact ⟨fun ht => ⟨ht, fun heq => hin (heq ▸ ht)⟩, And.left⟩
    · refine (h.deleted.insert fun t ht heq => htx t (Or.inl ht.1) heq).congr fun t => ?_
      rw [houtgoing, Set.mem_insert_iff]
      constructor
      · exact fun ht => ht.elim (fun heq => Or.inr ⟨heq, hin⟩) Or.inl
      · exact fun ht => ht.elim Or.inr fun hnew => Or.inl hnew.1

theorem deleteValidator (h : o.Nets were are) (hone : OneValidatorPerSlot are)
    (hwere : OneValidatorPerSlot were) (hv : s.isValidator = true) (hs : s ∈ are)
    (htx : ∀ t ∈ were ∪ are, t.txId = s.txId → t = s) :
    (o.deleteValidator s).Nets were (are \ {s}) := by
  have hslot := h.diffs.nets s.slot
  rw [(occupant_eq_some_iff hone).mpr ⟨hs, hv, rfl⟩] at hslot
  have hrecorded := SlotDiffs.recorded_updatePruned o.diffs s.slot (·.deleteValidator s)
    fun hempty => (hslot.deleteValidator.eq_default_of_isEmpty hempty).1
  refine h.forget htx (h.diffs.deleteValidator hone hv hs) (fun t => ?_) fun t => ?_
  · simp only [SlotDiffs.incoming, Set.mem_ofPred_eq, Set.mem_sdiff, Set.mem_singleton_iff,
      hrecorded]
    by_cases heq : t = s
    · simp [heq]
    · by_cases ht : t ∈ are
      · by_cases htv : t.isValidator = true
        · have hne : t.slot ≠ s.slot := fun hsame => heq (hone t ht s hs htv hv hsame)
          simp [heq, ht, htv, hne]
        · simp [heq, ht, htv]
      · simp [ht]
  · simp only [SlotDiffs.outgoing, SlotDiffs.incoming, Set.mem_ofPred_eq, Set.mem_sdiff,
      Set.mem_singleton_iff, hrecorded, hs, hv, true_and, if_true]
    by_cases htv : t.isValidator = true
    · rw [if_pos htv, if_pos htv]
      by_cases hsame : t.slot = s.slot
      · rw [if_pos hsame, hsame]
        -- a validator that was there before is gone now, so its slot cannot be as it was
        have hmarked : t ∈ were →
            ((o.diffs.recorded s.slot).deleteValidator s).status ≠ .unmodified := by
          intro ht hunmodified
          have hbefore := (hslot.deleteValidator.unmodified hunmodified).2.2
          rw [(occupant_eq_some_iff hwere).mpr ⟨ht, htv, hsame⟩] at hbefore
          cases hbefore
        have hcases := h.status_of_mem hone hv hs
        constructor
        · rintro ⟨ht, _⟩
          rcases hcases with hadded | ⟨hunmodified, hwas⟩
          · exact Or.inl ⟨ht, by rw [hadded]; decide⟩
          · exact Or.inr ⟨hwere t ht s hwas htv hv hsame, by rw [hunmodified]; decide⟩
        · rintro (⟨ht, _⟩ | ⟨rfl, hnot⟩)
          · exact ⟨ht, hmarked ht⟩
          · have hwas := (hcases.resolve_left hnot).2
            exact ⟨hwas, hmarked hwas⟩
      · have hne : t ≠ s := fun heq => hsame (congrArg Staker.slot heq)
        rw [if_neg hsame]
        simp [hne]
    · have hne : t ≠ s := fun heq => htv (heq ▸ hv)
      simp [htv, hne]

theorem putDelegator (h : o.Nets were are) (hone : OneValidatorPerSlot are)
    (hd : s.isValidator = false) (htx : ∀ t ∈ were ∪ are, t.txId = s.txId → t = s)
    (hs : s ∉ are) :
    (o.putDelegator s).Nets were (insert s are) := by
  have hdiffs := h.diffs.putDelegator hone hd (SlotDiffs.Net.forall_delegators htx s.slot) hs
  have hstatus := SlotDiffs.status_updatePruned o.diffs s.slot (status_putDelegator s)
  have hrestores : (o.diffs.recorded s.slot).restoresDelegator s = true ↔ s ∈ were := by
    rw [(h.diffs.nets s.slot).restoresDelegator_iff (fun t ht => htx t (Or.inl ht.1))
      fun hmem => hs hmem.1]
    exact ⟨And.left, fun hwas => ⟨hwas, hd, rfl⟩⟩
  have hincoming : ∀ t, t ∈ (o.diffs.updatePruned s.slot (·.putDelegator s)).incoming were
      (insert s are) ↔ t ∈ o.diffs.incoming were are ∨ (t = s ∧ s ∉ were) := by
    intro t
    simp only [SlotDiffs.incoming, Set.mem_ofPred_eq, Set.mem_insert_iff, hstatus]
    by_cases heq : t = s
    · simp [heq, hs, hd]
    · simp [heq]
  have houtgoing : ∀ t, t ∈ (o.diffs.updatePruned s.slot (·.putDelegator s)).outgoing were
      (insert s are) ↔ t ∈ o.diffs.outgoing were are ∧ t ≠ s := by
    intro t
    simp only [SlotDiffs.outgoing, Set.mem_ofPred_eq, Set.mem_insert_iff, hstatus]
    by_cases heq : t = s
    · simp [heq, hd]
    · simp [heq]
  unfold RegistryOverlay.putDelegator
  dsimp only
  split
  next hrestored =>
    have hwas : s ∈ were := hrestores.mp hrestored
    have hout : s ∈ o.diffs.outgoing were are := ⟨hwas, by simpa [hd] using hs⟩
    refine ⟨hdiffs, h.added.congr fun t => ?_,
      (h.deleted.erase hout).congr fun t => (houtgoing t).symm⟩
    rw [hincoming]
    exact ⟨Or.inl, fun ht => ht.elim id fun hnew => absurd hwas hnew.2⟩
  next hnew =>
    have hwas : s ∉ were := mt hrestores.mpr hnew
    refine ⟨hdiffs, ?_, h.deleted.congr fun t => ?_⟩
    · refine (h.added.insert fun t ht heq =>
        htx t (Or.inr ht.1) (Staker.txId_of_key_eq heq)).congr fun t => ?_
      rw [hincoming, Set.mem_insert_iff]
      constructor
      · exact fun ht => ht.elim (fun heq => Or.inr ⟨heq, hwas⟩) Or.inl
      · exact fun ht => ht.elim Or.inr fun hnew => Or.inl hnew.1
    · rw [houtgoing]
      exact ⟨fun ht => ⟨ht, fun heq => hwas (heq ▸ ht.1)⟩, And.left⟩

theorem deleteDelegator (h : o.Nets were are) (hone : OneValidatorPerSlot are)
    (hd : s.isValidator = false) (htx : ∀ t ∈ were ∪ are, t.txId = s.txId → t = s)
    (hs : s ∈ are) :
    (o.deleteDelegator s).Nets were (are \ {s}) := by
  have hstatus := SlotDiffs.status_updatePruned o.diffs s.slot (status_deleteDelegator s)
  have hdiffs := h.diffs.deleteDelegator hone hd (SlotDiffs.Net.forall_delegators htx s.slot) hs
  refine h.forget htx hdiffs (fun t => ?_) fun t => ?_
  · simp only [SlotDiffs.incoming, Set.mem_ofPred_eq, Set.mem_sdiff, Set.mem_singleton_iff,
      hstatus]
    tauto
  · simp only [SlotDiffs.outgoing, SlotDiffs.incoming, Set.mem_ofPred_eq, Set.mem_sdiff,
      Set.mem_singleton_iff, hstatus]
    by_cases heq : t = s
    · simp [heq, hd, hs]
    · simp [heq]

/-! ## Reads -/

/-- What the overlay says about a validator, over what its parent says. -/
theorem validator?_getD (h : o.Nets were are) (slot : Slot) :
    (o.validator? slot).getD (occupant were slot) = occupant are slot :=
  validator?_getD_of_nets (h.diffs.nets slot)

theorem enumerates_delegators (h : o.Nets were are) (htx : (were ∪ are).InjOn Staker.txId)
    {parent : StakerSeq} {slot : Slot}
    (hparent : Enumerates parent.toList Staker.key (delegatorsIn were slot)) :
    Enumerates (o.delegators parent slot).toList Staker.key (delegatorsIn are slot) := by
  have hslot := h.diffs.nets slot
  unfold RegistryOverlay.delegators
  cases hget : o.diffs.get? slot with
  | none =>
      rw [SlotDiffs.recorded, hget] at hslot
      have hempty := (hslot.eq_default_of_isEmpty rfl).2.2
      rw [hempty]
      exact hparent
  | some d =>
      rw [SlotDiffs.recorded, hget, Option.getD_some] at hslot
      refine hparent.masked_merged hslot.deletedDelegators hslot.addedDelegators ?_
        (fun s hs => hs.1) ?_ fun s => ?_
      · exact htx.mono fun s hs => Or.inl hs.1
      · intro s hs hkept t ht hkey
        have heq := htx (Or.inl hs.1) (Or.inr ht.1.1) (Staker.txId_of_key_eq hkey)
        exact ht.2 (heq ▸ hs)
      · simp only [Set.mem_sdiff, not_and, not_not]
        tauto

theorem mem_iff (h : o.Nets were are) (hone : OneValidatorPerSlot are)
    (hwere : OneValidatorPerSlot were) (s : Staker) :
    s ∈ are ↔ (s ∈ were ∧ s ∉ o.diffs.outgoing were are) ∨ s ∈ o.diffs.incoming were are := by
  simp only [SlotDiffs.outgoing, SlotDiffs.incoming, Set.mem_ofPred_eq, not_and]
  by_cases hv : s.isValidator = true
  · rw [if_pos hv, if_pos hv, not_not]
    constructor
    · intro hs
      rcases h.status_of_mem hone hv hs with hadded | ⟨hunmodified, hwas⟩
      · exact Or.inr ⟨hs, hadded⟩
      · exact Or.inl ⟨hwas, fun _ => hunmodified⟩
    · rintro (⟨hwas, hkept⟩ | hin)
      · have hholds := h.occupant_eq_of_unmodified (hkept hwas)
        rw [(occupant_eq_some_iff hwere).mpr ⟨hwas, hv, rfl⟩] at hholds
        exact mem_of_occupant hholds
      · exact hin.1
  · rw [if_neg hv, if_neg hv]
    tauto

theorem enumerates_all (h : o.Nets were are) (hone : OneValidatorPerSlot are)
    (hwere : OneValidatorPerSlot were) (htx : (were ∪ are).InjOn Staker.txId)
    {parent : StakerSeq} (hparent : Enumerates parent.toList Staker.key were) :
    Enumerates (o.all parent).toList Staker.key are := by
  refine hparent.masked_merged h.deleted h.added (htx.mono fun s => Or.inl)
    (fun s hs => hs.1) ?_ (h.mem_iff hone hwere)
  intro s hs hkept t ht hkey
  have heq := htx (Or.inl hs) (Or.inr ht.1) (Staker.txId_of_key_eq hkey)
  subst heq
  simp only [SlotDiffs.outgoing, Set.mem_ofPred_eq, not_and] at hkept
  have hkept := hkept hs
  obtain ⟨hmem, hin⟩ := ht
  split at hin
  next hv =>
    rw [if_pos hv, hin] at hkept
    exact hkept (by decide)
  next hd =>
    rw [if_neg hd] at hkept
    exact hin hs

end Nets

end RegistryOverlay

end StakingLedger
