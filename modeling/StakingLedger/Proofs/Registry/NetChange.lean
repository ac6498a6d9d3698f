import StakingLedger.Proofs.OrderedMap.Index
import StakingLedger.Proofs.Registry.Slots
import StakingLedger.Registry.SlotDiff

/-! # Net changes

A slot diff is a net change when it says exactly how the validator and the
delegators of its slot differ between an earlier and a later set of stakers.
Every operation that keeps to the contract turns a net change into a net
change, whatever was cancelled, restored or superseded on the way.
-/

namespace StakingLedger

/-! ## One slot -/

/-- What the diff of a slot says when the validator went from `before` to `after` and the
delegators from `were` to `are`. -/
structure SlotDiff.Nets (d : SlotDiff) (before after : Option Staker)
    (were are : Set Staker) : Prop where
  unmodified : d.status = .unmodified → d.validator = none ∧ d.superseded = none ∧ after = before
  added : d.status = .added → d.validator = after ∧ after.isSome = true ∧ d.superseded = before
  deleted : d.status = .deleted →
    d.validator = before ∧ before.isSome = true ∧ d.superseded = none ∧ after = none
  addedDelegators : d.addedDelegators.Indexes Staker.key (are \ were)
  deletedDelegators : d.deletedDelegators.Indexes Staker.txId (were \ are)

namespace SlotDiff.Nets

variable {d : SlotDiff} {before after : Option Staker} {were are : Set Staker} {s : Staker}

theorem refl (held : Option Staker) (are : Set Staker) : ({} : SlotDiff).Nets held held are are where
  unmodified _ := ⟨rfl, rfl, rfl⟩
  added h := by cases h
  deleted h := by cases h
  addedDelegators := by simpa using OrderedMap.Indexes.empty
  deletedDelegators := by simpa using OrderedMap.Indexes.empty

theorem exists_added (h : d.Nets before after were are) (hstatus : d.status = .added) :
    ∃ v, d.validator = some v ∧ after = some v ∧ d.superseded = before := by
  obtain ⟨hvalidator, hsome, hsuperseded⟩ := h.added hstatus
  obtain ⟨v, rfl⟩ := Option.isSome_iff_exists.mp hsome
  exact ⟨v, hvalidator, rfl, hsuperseded⟩

theorem exists_deleted (h : d.Nets before after were are) (hstatus : d.status = .deleted) :
    ∃ v, d.validator = some v ∧ before = some v ∧ d.superseded = none ∧ after = none := by
  obtain ⟨hvalidator, hsome, hsuperseded, hnone⟩ := h.deleted hstatus
  obtain ⟨v, rfl⟩ := Option.isSome_iff_exists.mp hsome
  exact ⟨v, hvalidator, rfl, hsuperseded, hnone⟩

theorem putValidator (h : d.Nets before none were are) (s : Staker) :
    (d.putValidator s).Nets before (some s) were are where
  unmodified hstatus := by cases hstatus
  added _ := by
    refine ⟨rfl, rfl, ?_⟩
    cases hstatus : d.status with
    | unmodified =>
        obtain ⟨_, hsuperseded, hsame⟩ := h.unmodified hstatus
        simp [SlotDiff.putValidator, hstatus, hsuperseded, ← hsame]
    | added =>
        have hsome := (h.added hstatus).2.1
        cases hsome
    | deleted => simp [SlotDiff.putValidator, hstatus, (h.deleted hstatus).1]
  deleted hstatus := by cases hstatus
  addedDelegators := h.addedDelegators
  deletedDelegators := h.deletedDelegators

theorem deleteValidator (h : d.Nets before (some s) were are) :
    (d.deleteValidator s).Nets before none were are := by
  cases hstatus : d.status with
  | unmodified =>
      obtain ⟨_, hsuperseded, hsame⟩ := h.unmodified hstatus
      have hresult : d.deleteValidator s = { d with status := .deleted, validator := some s } := by
        simp [SlotDiff.deleteValidator, hstatus]
      rw [hresult]
      exact {
        unmodified := fun hs => by cases hs
        added := fun hs => by cases hs
        deleted := fun _ => ⟨hsame, by rw [← hsame]; rfl, hsuperseded, rfl⟩
        addedDelegators := h.addedDelegators
        deletedDelegators := h.deletedDelegators }
  | deleted =>
      have hnone := (h.deleted hstatus).2.2.2
      cases hnone
  | added =>
      have hsuperseded := (h.added hstatus).2.2
      cases hprevious : d.superseded with
      | none =>
          have hresult : d.deleteValidator s =
              { d with status := .unmodified, validator := none } := by
            simp [SlotDiff.deleteValidator, hstatus, hprevious]
          rw [hresult]
          exact {
            unmodified := fun _ => ⟨rfl, hprevious, by rw [← hsuperseded, hprevious]⟩
            added := fun hs => by cases hs
            deleted := fun hs => by cases hs
            addedDelegators := h.addedDelegators
            deletedDelegators := h.deletedDelegators }
      | some previous =>
          have hresult : d.deleteValidator s =
              { d with status := .deleted, validator := some previous, superseded := none } := by
            simp [SlotDiff.deleteValidator, hstatus, hprevious]
          have hbefore : before = some previous := by rw [← hsuperseded, hprevious]
          rw [hresult]
          exact {
            unmodified := fun hs => by cases hs
            added := fun hs => by cases hs
            deleted := fun _ => ⟨hbefore.symm, by rw [hbefore]; rfl, rfl, rfl⟩
            addedDelegators := h.addedDelegators
            deletedDelegators := h.deletedDelegators }

/-- A deletion is restored exactly when the staker was there before. -/
theorem restoresDelegator_iff (h : d.Nets before after were are)
    (htx : ∀ t ∈ were, t.txId = s.txId → t = s) (hs : s ∉ are) :
    d.restoresDelegator s = true ↔ s ∈ were := by
  rw [SlotDiff.restoresDelegator, h.deletedDelegators.contains_iff]
  constructor
  · rintro ⟨t, ht, heq⟩
    exact htx t ht.1 heq ▸ ht.1
  · exact fun hmem => ⟨s, ⟨hmem, hs⟩, rfl⟩

/-- An addition is cancelled exactly when the staker was not there before. -/
theorem cancelsDelegator_iff (h : d.Nets before after were are)
    (htx : ∀ t ∈ are, t.txId = s.txId → t = s) (hs : s ∈ are) :
    d.cancelsDelegator s = true ↔ s ∉ were := by
  rw [SlotDiff.cancelsDelegator, h.addedDelegators.contains_iff]
  constructor
  · rintro ⟨t, ht, heq⟩
    exact htx t ht.1 (congrArg StakerKey.txId heq) ▸ ht.2
  · exact fun hmem => ⟨s, ⟨hs, hmem⟩, rfl⟩

theorem putDelegator (h : d.Nets before after were are)
    (htx : ∀ t ∈ were ∪ are, t.txId = s.txId → t = s) (hs : s ∉ are) :
    (d.putDelegator s).Nets before after were (insert s are) := by
  have hrestores := h.restoresDelegator_iff (fun t ht => htx t (Or.inl ht)) hs
  unfold SlotDiff.putDelegator
  split
  next hrestored =>
    have hwas : s ∈ were := hrestores.mp hrestored
    exact {
      unmodified := h.unmodified
      added := h.added
      deleted := h.deleted
      addedDelegators := h.addedDelegators.congr fun t => by
        constructor
        · exact fun ht => ⟨Or.inr ht.1, ht.2⟩
        · rintro ⟨rfl | ht, hnot⟩
          · exact absurd hwas hnot
          · exact ⟨ht, hnot⟩
      deletedDelegators := (h.deletedDelegators.erase ⟨hwas, hs⟩).congr fun t => by
        simp only [Set.mem_sdiff, Set.mem_insert_iff, Set.mem_singleton_iff, not_or]
        tauto }
  next hnew =>
    have hwas : s ∉ were := fun hmem => hnew (hrestores.mpr hmem)
    exact {
      unmodified := h.unmodified
      added := h.added
      deleted := h.deleted
      addedDelegators :=
        (h.addedDelegators.insert fun t ht heq =>
          htx t (Or.inr ht.1) (congrArg StakerKey.txId heq)).congr fun t => by
          constructor
          · rintro (rfl | ht)
            · exact ⟨Or.inl rfl, hwas⟩
            · exact ⟨Or.inr ht.1, ht.2⟩
          · rintro ⟨rfl | ht, hnot⟩
            · exact Or.inl rfl
            · exact Or.inr ⟨ht, hnot⟩
      deletedDelegators := h.deletedDelegators.congr fun t => by
        constructor
        · rintro ⟨ht, hnot⟩
          refine ⟨ht, ?_⟩
          rintro (rfl | hare)
          · exact hwas ht
          · exact hnot hare
        · exact fun ht => ⟨ht.1, fun hare => ht.2 (Or.inr hare)⟩ }

theorem deleteDelegator (h : d.Nets before after were are)
    (htx : ∀ t ∈ were ∪ are, t.txId = s.txId → t = s) (hs : s ∈ are) :
    (d.deleteDelegator s).Nets before after were (are \ {s}) := by
  have hcancels := h.cancelsDelegator_iff (fun t ht => htx t (Or.inr ht)) hs
  unfold SlotDiff.deleteDelegator
  split
  next hcancelled =>
    have hwas : s ∉ were := hcancels.mp hcancelled
    exact {
      unmodified := h.unmodified
      added := h.added
      deleted := h.deleted
      addedDelegators := (h.addedDelegators.erase ⟨hs, hwas⟩).congr fun t => by
        simp only [Set.mem_sdiff, Set.mem_singleton_iff]
        tauto
      deletedDelegators := h.deletedDelegators.congr fun t => by
        constructor
        · exact fun ht => ⟨ht.1, fun hare => ht.2 hare.1⟩
        · rintro ⟨ht, hnot⟩
          exact ⟨ht, fun hare => hnot ⟨hare, fun heq => hwas (heq ▸ ht)⟩⟩ }
  next hkept =>
    have hwas : s ∈ were := by
      by_contra hnot
      exact hkept (hcancels.mpr hnot)
    exact {
      unmodified := h.unmodified
      added := h.added
      deleted := h.deleted
      addedDelegators := h.addedDelegators.congr fun t => by
        constructor
        · rintro ⟨ht, hnot⟩
          exact ⟨⟨ht, fun heq => hnot (heq ▸ hwas)⟩, hnot⟩
        · exact fun ht => ⟨ht.1.1, ht.2⟩
      deletedDelegators :=
        (h.deletedDelegators.insert fun t ht heq => htx t (Or.inl ht.1) heq).congr fun t => by
          constructor
          · rintro (rfl | ht)
            · exact ⟨hwas, fun hare => hare.2 rfl⟩
            · exact ⟨ht.1, fun hare => ht.2 hare.1⟩
          · rintro ⟨ht, hnot⟩
            by_cases heq : t = s
            · exact Or.inl heq
            · exact Or.inr ⟨ht, fun hare => hnot ⟨hare, heq⟩⟩ }

/-- A diff that records nothing is the fresh one, and nothing has changed. -/
theorem eq_default_of_isEmpty (h : d.Nets before after were are) (hempty : d.isEmpty = true) :
    d = {} ∧ after = before ∧ are = were := by
  simp only [SlotDiff.isEmpty, Bool.and_eq_true, beq_iff_eq] at hempty
  obtain ⟨⟨hstatus, hadded⟩, hdeleted⟩ := hempty
  obtain ⟨hvalidator, hsuperseded, hsame⟩ := h.unmodified hstatus
  refine ⟨?_, hsame, ?_⟩
  · have hnoneAdded := OrderedMap.eq_empty_of_isEmpty hadded
    have hnoneDeleted := OrderedMap.eq_empty_of_isEmpty hdeleted
    cases d
    simp_all
  · ext t
    have hnew := h.addedDelegators.isEmpty_iff.mp hadded t
    have hgone := h.deletedDelegators.isEmpty_iff.mp hdeleted t
    simp only [Set.mem_sdiff, not_and, not_not] at hnew hgone
    exact ⟨hnew, hgone⟩

end SlotDiff.Nets

/-! ## All slots -/

namespace SlotDiffs

theorem recorded_update (diffs : SlotDiffs) (slot slot' : Slot) (f : SlotDiff → SlotDiff) :
    (diffs.update slot f).recorded slot' =
      if slot' = slot then f (diffs.recorded slot) else diffs.recorded slot' := by
  unfold update
  split
  next heq => rw [recorded, heq, OrderedMap.get?_insert_self, Option.getD_some]
  next hne => rw [recorded, OrderedMap.get?_insert_ne _ _ hne, recorded]

/-- What holds of every record, and of the changed one, holds after the change. -/
theorem forall_update {diffs : SlotDiffs} {Q : SlotDiff → Prop} {slot slot' : Slot} {d : SlotDiff}
    {f : SlotDiff → SlotDiff} (h : ∀ slot d, diffs.get? slot = some d → Q d)
    (hf : Q (f (diffs.recorded slot))) (hget : (diffs.update slot f).get? slot' = some d) : Q d := by
  unfold update at hget
  rw [OrderedMap.get?_insert] at hget
  split at hget
  · cases hget
    exact hf
  · exact h slot' d hget

/-- A changed record that says nothing is dropped, and need not be looked at. -/
theorem forall_updatePruned {diffs : SlotDiffs} {Q : SlotDiff → Prop} {slot slot' : Slot}
    {d : SlotDiff} {f : SlotDiff → SlotDiff} (h : ∀ slot d, diffs.get? slot = some d → Q d)
    (hf : (f (diffs.recorded slot)).isEmpty = false → Q (f (diffs.recorded slot)))
    (hget : (diffs.updatePruned slot f).get? slot' = some d) : Q d := by
  unfold updatePruned at hget
  dsimp only at hget
  split at hget
  · rw [OrderedMap.get?_erase] at hget
    split at hget
    · cases hget
    · exact h slot' d hget
  next hkept => exact forall_update h (hf (by simpa using hkept)) hget

theorem recorded_updatePruned (diffs : SlotDiffs) (slot : Slot) (f : SlotDiff → SlotDiff)
    (hprune : (f (diffs.recorded slot)).isEmpty = true → f (diffs.recorded slot) = {})
    (slot' : Slot) :
    (diffs.updatePruned slot f).recorded slot' =
      if slot' = slot then f (diffs.recorded slot) else diffs.recorded slot' := by
  unfold updatePruned
  dsimp only
  split
  next hempty =>
    split
    next heq => rw [recorded, heq, OrderedMap.get?_erase_self, Option.getD_none, hprune hempty]
    next hne => rw [recorded, OrderedMap.get?_erase_ne _ hne, recorded]
  next =>
    split
    next heq => rw [recorded, heq, OrderedMap.get?_insert_self, Option.getD_some]
    next hne => rw [recorded, OrderedMap.get?_insert_ne _ _ hne, recorded]

/-- Dropping a record that says nothing leaves the status of its slot as it was. -/
theorem status_updatePruned (diffs : SlotDiffs) (slot : Slot) {f : SlotDiff → SlotDiff}
    (hf : ∀ d, (f d).status = d.status) (slot' : Slot) :
    ((diffs.updatePruned slot f).recorded slot').status = (diffs.recorded slot').status := by
  unfold updatePruned
  dsimp only
  by_cases heq : slot' = slot
  · subst heq
    split
    next hempty =>
      simp only [SlotDiff.isEmpty, Bool.and_eq_true, beq_iff_eq, hf] at hempty
      rw [recorded, OrderedMap.get?_erase_self, hempty.1.1]
      rfl
    next => rw [recorded, OrderedMap.get?_insert_self, Option.getD_some, hf]
  · split
    · rw [recorded, OrderedMap.get?_erase_ne _ heq, recorded]
    · rw [recorded, OrderedMap.get?_insert_ne _ _ heq, recorded]

/-- The diffs say how the stakers went from `were` to `are`, and none of them says nothing. -/
structure Net (diffs : SlotDiffs) (were are : Set Staker) : Prop where
  nets : ∀ slot, (diffs.recorded slot).Nets (occupant were slot) (occupant are slot)
    (delegatorsIn were slot) (delegatorsIn are slot)
  kept : ∀ slot d, diffs.get? slot = some d → d.isEmpty = false

namespace Net

variable {diffs : SlotDiffs} {were are : Set Staker} {s : Staker}

theorem refl (are : Set Staker) : SlotDiffs.Net .empty are are :=
  ⟨fun slot => SlotDiff.Nets.refl _ _, fun _ _ h => by cases h⟩

/-- Where no slot has a record, nothing has changed. -/
theorem eq_of_isEmpty (h : diffs.Net were are) (hwere : OneValidatorPerSlot were)
    (hare : OneValidatorPerSlot are) (hempty : diffs.isEmpty = true) : are = were := by
  ext t
  have hrecorded : diffs.recorded t.slot = {} := by
    rw [recorded, OrderedMap.eq_empty_of_isEmpty hempty]
    rfl
  have hnets := h.nets t.slot
  rw [hrecorded] at hnets
  obtain ⟨_, hvalidator, hdelegators⟩ := hnets.eq_default_of_isEmpty rfl
  cases hv : t.isValidator with
  | true =>
      have hare : occupant are t.slot = some t ↔ t ∈ are ∧ _ := occupant_eq_some_iff hare
      have hwere : occupant were t.slot = some t ↔ t ∈ were ∧ _ := occupant_eq_some_iff hwere
      rw [hvalidator] at hare
      exact ⟨fun ht => (hwere.mp (hare.mpr ⟨ht, hv, rfl⟩)).1,
        fun ht => (hare.mp (hwere.mpr ⟨ht, hv, rfl⟩)).1⟩
  | false =>
      constructor
      · intro ht
        have hmem : t ∈ delegatorsIn are t.slot := ⟨ht, hv, rfl⟩
        rw [hdelegators] at hmem
        exact hmem.1
      · intro ht
        have hmem : t ∈ delegatorsIn were t.slot := ⟨ht, hv, rfl⟩
        rw [← hdelegators] at hmem
        exact hmem.1

/-- Replacing the record of one slot. -/
theorem of_updatePruned {are' : Set Staker} (h : diffs.Net were are) {slot : Slot}
    {f : SlotDiff → SlotDiff}
    (hslot : (f (diffs.recorded slot)).Nets (occupant were slot) (occupant are' slot)
      (delegatorsIn were slot) (delegatorsIn are' slot))
    (hothers : ∀ slot', slot' ≠ slot →
      occupant are' slot' = occupant are slot' ∧ delegatorsIn are' slot' = delegatorsIn are slot') :
    (diffs.updatePruned slot f).Net were are' := by
  refine ⟨fun slot' => ?_, fun _ _ => forall_updatePruned h.kept id⟩
  rw [recorded_updatePruned _ _ _ fun hempty => (hslot.eq_default_of_isEmpty hempty).1]
  split
  next heq => rw [heq]; exact hslot
  next hne =>
    rw [(hothers slot' hne).1, (hothers slot' hne).2]
    exact h.nets slot'

/-- What is true of all stakers before and after is true of the delegators of a slot. -/
theorem forall_delegators {p : Staker → Prop} (h : ∀ t ∈ were ∪ are, p t) (slot : Slot) :
    ∀ t ∈ delegatorsIn were slot ∪ delegatorsIn are slot, p t := by
  rintro t (ht | ht)
  · exact h t (Or.inl ht.1)
  · exact h t (Or.inr ht.1)

theorem putValidator (h : diffs.Net were are) (hone : OneValidatorPerSlot are)
    (hv : s.isValidator = true) (hfree : occupant are s.slot = none) :
    (diffs.update s.slot (·.putValidator s)).Net were (insert s are) := by
  constructor
  · intro slot
    rw [recorded_update, occupant_insert_validator hone hv hfree, delegatorsIn_insert_validator hv]
    split
    next heq =>
      have hslot := h.nets s.slot
      rw [hfree] at hslot
      rw [heq]
      exact hslot.putValidator s
    next hne => exact h.nets slot
  · intro slot d hget
    unfold SlotDiffs.update at hget
    by_cases heq : slot = s.slot
    · rw [heq, OrderedMap.get?_insert_self, Option.some.injEq] at hget
      rw [← hget]
      rfl
    · rw [OrderedMap.get?_insert_ne _ _ heq] at hget
      exact h.kept slot d hget

theorem deleteValidator (h : diffs.Net were are) (hone : OneValidatorPerSlot are)
    (hv : s.isValidator = true) (hs : s ∈ are) :
    (diffs.updatePruned s.slot (·.deleteValidator s)).Net were (are \ {s}) := by
  have hholds : occupant are s.slot = some s := (occupant_eq_some_iff hone).mpr ⟨hs, hv, rfl⟩
  refine h.of_updatePruned ?_ fun slot' hne => ?_
  · have hslot := h.nets s.slot
    rw [hholds] at hslot
    rw [occupant_diff_validator hone hs hv, if_pos rfl, delegatorsIn_diff_validator hv]
    exact hslot.deleteValidator
  · rw [occupant_diff_validator hone hs hv, if_neg hne, delegatorsIn_diff_validator hv]
    exact ⟨rfl, rfl⟩

theorem putDelegator (h : diffs.Net were are) (hone : OneValidatorPerSlot are)
    (hd : s.isValidator = false)
    (htx : ∀ t ∈ delegatorsIn were s.slot ∪ delegatorsIn are s.slot, t.txId = s.txId → t = s)
    (hs : s ∉ are) :
    (diffs.updatePruned s.slot (·.putDelegator s)).Net were (insert s are) := by
  refine h.of_updatePruned ?_ fun slot' hne => ?_
  · rw [occupant_insert_delegator hone hd, delegatorsIn_insert_self hd]
    exact (h.nets s.slot).putDelegator htx fun hmem => hs hmem.1
  · rw [occupant_insert_delegator hone hd, delegatorsIn_insert_ne hne]
    exact ⟨rfl, rfl⟩

theorem deleteDelegator (h : diffs.Net were are) (hone : OneValidatorPerSlot are)
    (hd : s.isValidator = false)
    (htx : ∀ t ∈ delegatorsIn were s.slot ∪ delegatorsIn are s.slot, t.txId = s.txId → t = s)
    (hs : s ∈ are) :
    (diffs.updatePruned s.slot (·.deleteDelegator s)).Net were (are \ {s}) := by
  refine h.of_updatePruned ?_ fun slot' hne => ?_
  · rw [occupant_diff_delegator hone hd, delegatorsIn_diff_self]
    exact (h.nets s.slot).deleteDelegator htx ⟨hs, hd, rfl⟩
  · rw [occupant_diff_delegator hone hd, delegatorsIn_diff_ne hne]
    exact ⟨rfl, rfl⟩

end Net

end SlotDiffs

end StakingLedger
