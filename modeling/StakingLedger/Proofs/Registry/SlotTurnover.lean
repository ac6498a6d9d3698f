import StakingLedger.Proofs.Registry.Layering
import StakingLedger.Proofs.Registry.SlotHistory
import StakingLedger.Proofs.State.StoredStakers

/-! # Who comes and who goes in a slot

The diff of a slot names the stakers that it adds and the stakers of before that it takes away: a
validator that is superseded is one of these, and may be added again. A change that keeps to the
contract moves only the staker it is about, whatever its role, and nobody has two roles.
-/

namespace StakingLedger

/-- The staker that a change puts or deletes. -/
def SlotChange.staker : SlotChange → Staker
  | .putValidator s | .deleteValidator s | .putDelegator s | .deleteDelegator s => s

namespace SlotContent

/-- The staker is in the slot, as its validator or as a delegator. -/
def Has (content : SlotContent) (s : Staker) : Prop :=
  content.validator = some s ∨ s ∈ content.delegators

/-- Everybody in a slot is of that slot and on record, and nobody is there twice. -/
structure Proper (records : Set Staker) (slot : Slot) (content : SlotContent) : Prop where
  recorded : ∀ s, content.Has s → s ∈ records
  slot : ∀ s, content.Has s → s.slot = slot
  once : ∀ s, content.validator = some s → s ∉ content.delegators

/-- The contract of a change: who is put is absent, a validator comes into a free slot, and who is
deleted is there. -/
def Admits (records : Set Staker) (content : SlotContent) : SlotChange → Prop
  | .putValidator s => s ∈ records ∧ ¬ content.Has s ∧ content.validator = none
  | .deleteValidator s => content.validator = some s
  | .putDelegator s => s ∈ records ∧ ¬ content.Has s
  | .deleteDelegator s => s ∈ content.delegators

variable {records : Set Staker} {slot : Slot} {content : SlotContent} {c : SlotChange}

theorem Admits.allows (h : content.Admits records c) : content.Allows records c := by
  cases c with
  | putValidator s => exact h.2.2
  | deleteValidator s => exact h
  | putDelegator s => exact ⟨h.1, fun hs => h.2 (Or.inr hs)⟩
  | deleteDelegator s => exact h

/-- Who is put or deleted is on record. -/
theorem Admits.staker_mem (h : content.Admits records c) (hproper : content.Proper records slot) :
    c.staker ∈ records := by
  cases c with
  | putValidator s => exact h.1
  | deleteValidator s => exact hproper.recorded s (Or.inl h)
  | putDelegator s => exact h.1
  | deleteDelegator s => exact hproper.recorded s (Or.inr h)

/-- After a change there is nobody in a slot but who was there and who is put. -/
theorem has_change {s : Staker} (h : (content.change c).Has s) : content.Has s ∨ s = c.staker := by
  cases c with
  | putValidator v =>
      rcases h with hv | hd
      · exact Or.inr (Option.some.inj hv).symm
      · exact Or.inl (Or.inr hd)
  | deleteValidator v =>
      rcases h with hv | hd
      · cases hv
      · exact Or.inl (Or.inr hd)
  | putDelegator d =>
      rcases h with hv | rfl | hd
      · exact Or.inl (Or.inl hv)
      · exact Or.inr rfl
      · exact Or.inl (Or.inr hd)
  | deleteDelegator d =>
      rcases h with hv | hd
      · exact Or.inl (Or.inl hv)
      · exact Or.inl (Or.inr hd.1)

theorem Proper.change (h : content.Proper records c.staker.slot)
    (hadmits : content.Admits records c) : (content.change c).Proper records c.staker.slot where
  recorded s hs := (has_change hs).elim (h.recorded s) fun heq => heq ▸ hadmits.staker_mem h
  slot s hs := (has_change hs).elim (h.slot s) fun heq => heq ▸ rfl
  once s hv := by
    cases c with
    | putValidator v =>
        obtain rfl := Option.some.inj hv
        exact fun hd => hadmits.2.1 (Or.inr hd)
    | deleteValidator v => cases hv
    | putDelegator d =>
        rintro (rfl | hd)
        · exact hadmits.2 (Or.inl hv)
        · exact h.once s hv hd
    | deleteDelegator d => exact fun hd => h.once s hv hd.1

end SlotContent

namespace SlotDiff

/-- The diff takes the staker away: as a deleted validator, as a superseded one, or as a
delegator. -/
def Removes (d : SlotDiff) (s : Staker) : Prop :=
  (d.status = .deleted ∧ d.validator = some s) ∨ d.superseded = some s ∨
    s ∈ d.deletedDelegators.values

/-- What happens to delegators leaves the status of the slot as it is. -/
theorem status_record_putDelegator (d : SlotDiff) (s : Staker) :
    (d.record (.putDelegator s)).status = d.status :=
  RegistryOverlay.Nets.status_putDelegator s d

theorem status_record_deleteDelegator (d : SlotDiff) (s : Staker) :
    (d.record (.deleteDelegator s)).status = d.status :=
  RegistryOverlay.Nets.status_deleteDelegator s d

namespace NetsContent

variable {d : SlotDiff} {records : Set Staker} {slot : Slot} {before now : SlotContent}
  {c : SlotChange} {s t : Staker}

theorem adds_iff (h : d.NetsContent before now) : d.Adds t ↔
    (d.status = .added ∧ now.validator = some t) ∨
      (t ∈ now.delegators ∧ t ∉ before.delegators) := by
  have hdelegators : t ∈ d.addedDelegators.values ↔ t ∈ now.delegators ∧ t ∉ before.delegators :=
    h.addedDelegators.mem_values
  refine or_congr (and_congr_right fun hstatus => ?_) hdelegators
  rw [(h.added hstatus).1]

theorem removes_iff (h : d.NetsContent before now) : d.Removes t ↔
    (d.status ≠ .unmodified ∧ before.validator = some t) ∨
      (t ∈ before.delegators ∧ t ∉ now.delegators) := by
  have hdelegators : t ∈ d.deletedDelegators.values ↔ t ∈ before.delegators ∧ t ∉ now.delegators :=
    h.deletedDelegators.mem_values
  rw [Removes, hdelegators, ← or_assoc]
  refine or_congr_left ?_
  cases hstatus : d.status with
  | unmodified => simp [(h.unmodified hstatus).2.1]
  | added => simp [(h.added hstatus).2.2]
  | deleted => simp [(h.deleted hstatus).1, (h.deleted hstatus).2.2.1]

theorem has_of_adds (h : d.NetsContent before now) (hadds : d.Adds t) : now.Has t := by
  rcases h.adds_iff.mp hadds with ⟨_, hvalidator⟩ | ⟨hdelegator, _⟩
  · exact Or.inl hvalidator
  · exact Or.inr hdelegator

theorem has_of_removes (h : d.NetsContent before now) (hremoves : d.Removes t) : before.Has t := by
  rcases h.removes_iff.mp hremoves with ⟨_, hvalidator⟩ | ⟨hdelegator, _⟩
  · exact Or.inl hvalidator
  · exact Or.inr hdelegator

/-- In a slot without a validator only delegators are added. -/
theorem adds_iff_of_free (h : d.NetsContent before now) (hfree : now.validator = none) :
    d.Adds t ↔ t ∈ now.delegators ∧ t ∉ before.delegators := by
  rw [h.adds_iff, hfree]
  exact or_iff_right fun hvalidator => nomatch hvalidator.2

/-- In a slot without a validator the one of before, if there was one, is taken away. -/
theorem removes_iff_of_free (h : d.NetsContent before now) (hfree : now.validator = none) :
    d.Removes t ↔ before.validator = some t ∨ (t ∈ before.delegators ∧ t ∉ now.delegators) := by
  rw [h.removes_iff]
  refine or_congr_left (and_iff_right_of_imp fun hbefore hstatus => ?_)
  rw [← (h.unmodified hstatus).2.2, hfree] at hbefore
  cases hbefore

/-- A diff says nothing just if it moves nobody. -/
theorem isEmpty_iff (h : d.NetsContent before now) :
    d.isEmpty = true ↔ ∀ t, ¬ d.Adds t ∧ ¬ d.Removes t := by
  constructor
  · intro hempty t
    obtain ⟨rfl, _⟩ := h.eq_default_of_isEmpty hempty
    simp [Adds, Removes, OrderedMap.mem_values_iff]
  · intro hnobody
    have hstatus : d.status = .unmodified := by
      cases hstatus : d.status with
      | unmodified => rfl
      | added =>
          obtain ⟨v, hvalidator, _⟩ := h.exists_added hstatus
          exact absurd (Or.inl ⟨hstatus, hvalidator⟩) (hnobody v).1
      | deleted =>
          obtain ⟨v, hvalidator, _⟩ := h.exists_deleted hstatus
          exact absurd (Or.inl ⟨hstatus, hvalidator⟩) (hnobody v).2
    have hadded : d.addedDelegators.isEmpty = true := h.addedDelegators.isEmpty_iff.mpr
      fun t ht => (hnobody t).1 (Or.inr (h.addedDelegators.mem_values.mpr ht))
    have hdeleted : d.deletedDelegators.isEmpty = true := h.deletedDelegators.isEmpty_iff.mpr
      fun t ht => (hnobody t).2 (Or.inr (Or.inr (h.deletedDelegators.mem_values.mpr ht)))
    simp [isEmpty, hstatus, hadded, hdeleted]

/-- Who is in the slot now was there and is not taken away, or is added. -/
theorem has_iff (h : d.NetsContent before now) (hbefore : before.Proper records slot) :
    now.Has t ↔ (before.Has t ∧ ¬ d.Removes t) ∨ d.Adds t := by
  have honce := hbefore.once t
  rw [h.adds_iff, h.removes_iff, SlotContent.Has, SlotContent.Has]
  cases hstatus : d.status with
  | unmodified =>
      have hnotAdded : SlotStatus.unmodified ≠ .added := by decide
      rw [(h.unmodified hstatus).2.2]
      tauto
  | added =>
      have hchanged : SlotStatus.added ≠ .unmodified := by decide
      tauto
  | deleted =>
      have hchanged : SlotStatus.deleted ≠ .unmodified := by decide
      have hnotAdded : SlotStatus.deleted ≠ .added := by decide
      have hgone : now.validator ≠ some t := by rw [(h.deleted hstatus).2.2.2]; nofun
      tauto

/-! ## Everybody else -/

/-- Nobody but the staker of a change is added by it, or no longer added. -/
theorem adds_record_of_ne (h : d.NetsContent before now)
    (h' : (d.record c).NetsContent before (now.change c)) (hadmits : now.Admits records c)
    (hne : t ≠ c.staker) : (d.record c).Adds t ↔ d.Adds t := by
  cases c with
  | putValidator s =>
      rw [h'.adds_iff, h.adds_iff_of_free hadmits.2.2]
      exact or_iff_right fun hvalidator => hne (Option.some.inj hvalidator.2).symm
  | deleteValidator s =>
      rw [h'.adds_iff_of_free rfl, h.adds_iff, show now.validator = some s from hadmits]
      exact (or_iff_right fun hvalidator => hne (Option.some.inj hvalidator.2).symm).symm
  | putDelegator s =>
      rw [h'.adds_iff, h.adds_iff, status_record_putDelegator]
      exact or_congr_right (and_congr_left' (or_iff_right hne))
  | deleteDelegator s =>
      rw [h'.adds_iff, h.adds_iff, status_record_deleteDelegator]
      exact or_congr_right (and_congr_left' (and_iff_left hne))

/-- A validator that is put takes nobody away. -/
theorem removes_putValidator (h : d.NetsContent before now)
    (h' : (d.putValidator s).NetsContent before (now.change (.putValidator s)))
    (hfree : now.validator = none) : (d.putValidator s).Removes t ↔ d.Removes t := by
  rw [h'.removes_iff, h.removes_iff_of_free hfree]
  exact or_congr_left (and_iff_right (show SlotStatus.added ≠ .unmodified by decide))

/-- Nobody but the staker of a change is taken away by it, or taken back. -/
theorem removes_record_of_ne (h : d.NetsContent before now)
    (h' : (d.record c).NetsContent before (now.change c)) (hadmits : now.Admits records c)
    (hne : t ≠ c.staker) : (d.record c).Removes t ↔ d.Removes t := by
  cases c with
  | putValidator s => exact h.removes_putValidator h' hadmits.2.2
  | deleteValidator s =>
      rw [h'.removes_iff_of_free rfl, h.removes_iff]
      refine or_congr_left (and_iff_right_of_imp fun hbefore hstatus => ?_).symm
      have hsame : before.validator = some s := by rw [← (h.unmodified hstatus).2.2]; exact hadmits
      exact hne (Option.some.inj (hbefore.symm.trans hsame))
  | putDelegator s =>
      rw [h'.removes_iff, h.removes_iff, status_record_putDelegator]
      exact or_congr_right (and_congr_right' (not_congr (or_iff_right hne)))
  | deleteDelegator s =>
      rw [h'.removes_iff, h.removes_iff, status_record_deleteDelegator]
      exact or_congr_right (and_congr_right' (not_congr (and_iff_left hne)))

/-! ## The staker of the change -/

/-- A delegator that is put is added if it was not there before. -/
theorem adds_putDelegator
    (h' : (d.putDelegator s).NetsContent before (now.change (.putDelegator s)))
    (habsent : ¬ now.Has s) : (d.putDelegator s).Adds s ↔ s ∉ before.delegators := by
  rw [h'.adds_iff]
  constructor
  · rintro (⟨_, hvalidator⟩ | ⟨_, hnew⟩)
    · exact absurd (Or.inl hvalidator) habsent
    · exact hnew
  · exact fun hnew => Or.inr ⟨Or.inl rfl, hnew⟩

/-- A delegator that is put is no longer taken away if it was there before. -/
theorem removes_putDelegator (h : d.NetsContent before now)
    (h' : (d.putDelegator s).NetsContent before (now.change (.putDelegator s)))
    (hbefore : before.Proper records slot) :
    (d.putDelegator s).Removes s ↔ d.Removes s ∧ s ∉ before.delegators := by
  rw [h'.removes_iff, h.removes_iff, RegistryOverlay.Nets.status_putDelegator]
  constructor
  · rintro (hvalidator | ⟨_, hgone⟩)
    · exact ⟨Or.inl hvalidator, hbefore.once s hvalidator.2⟩
    · exact absurd (Or.inl rfl) hgone
  · rintro ⟨hvalidator | hgone, hnew⟩
    · exact Or.inl hvalidator
    · exact absurd hgone.1 hnew

/-- Who is deleted is not added any more. -/
theorem not_adds_deleteValidator
    (h' : (d.deleteValidator s).NetsContent before (now.change (.deleteValidator s)))
    (hvalidator : now.validator = some s) (hnow : now.Proper records slot) :
    ¬ (d.deleteValidator s).Adds s := by
  rw [h'.adds_iff_of_free rfl]
  exact fun hadded => hnow.once s hvalidator hadded.1

theorem not_adds_deleteDelegator
    (h' : (d.deleteDelegator s).NetsContent before (now.change (.deleteDelegator s)))
    (hdelegator : s ∈ now.delegators) (hnow : now.Proper records slot) :
    ¬ (d.deleteDelegator s).Adds s := by
  rw [h'.adds_iff]
  rintro (⟨_, hvalidator⟩ | ⟨hleft, _⟩)
  · exact hnow.once s hvalidator hdelegator
  · exact hleft.2 rfl

/-- Who is deleted is taken away if it was not added, and otherwise as it was. -/
theorem removes_deleteValidator (h : d.NetsContent before now)
    (h' : (d.deleteValidator s).NetsContent before (now.change (.deleteValidator s)))
    (hvalidator : now.validator = some s) (hnow : now.Proper records slot) :
    (d.deleteValidator s).Removes s ↔ d.Removes s ∨ ¬ d.Adds s := by
  have hadds : d.Adds s ↔ d.status = .added := by
    rw [h.adds_iff, or_iff_left fun hadded => hnow.once s hvalidator hadded.1]
    exact and_iff_left hvalidator
  have hsame : (now.change (.deleteValidator s)).delegators = now.delegators := rfl
  rw [h'.removes_iff_of_free rfl, h.removes_iff, hadds, hsame]
  cases hstatus : d.status with
  | unmodified =>
      have hbefore := hvalidator
      rw [(h.unmodified hstatus).2.2] at hbefore
      exact iff_of_true (Or.inl hbefore) (Or.inr (by decide))
  | added => simp
  | deleted =>
      rw [(h.deleted hstatus).2.2.2] at hvalidator
      cases hvalidator

theorem removes_deleteDelegator (h : d.NetsContent before now)
    (h' : (d.deleteDelegator s).NetsContent before (now.change (.deleteDelegator s)))
    (hdelegator : s ∈ now.delegators) (hnow : now.Proper records slot) :
    (d.deleteDelegator s).Removes s ↔ d.Removes s ∨ ¬ d.Adds s := by
  have hadds : d.Adds s ↔ s ∉ before.delegators := by
    rw [h.adds_iff, or_iff_right fun hadded => hnow.once s hadded.2 hdelegator]
    exact and_iff_right hdelegator
  have hgone : s ∉ (now.change (.deleteDelegator s)).delegators := fun hleft => hleft.2 rfl
  rw [h'.removes_iff, h.removes_iff, hadds, not_not, and_iff_left hgone,
    or_iff_left fun hleft : s ∈ before.delegators ∧ s ∉ now.delegators => hleft.2 hdelegator,
    RegistryOverlay.Nets.status_deleteDelegator]

end NetsContent

end SlotDiff

end StakingLedger
