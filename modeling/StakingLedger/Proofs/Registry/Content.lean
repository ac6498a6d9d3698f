import StakingLedger.Proofs.Registry.NetChange
import StakingLedger.Proofs.Staker.Enumeration
import StakingLedger.Registry.Basic

/-! # What a registry holds

A committed registry holds a set of stakers when all its indexes agree with the
set: the whole set by key, the validator of every slot and the delegators of
every slot. Each operation changes the set by the one staker it names.
-/

namespace StakingLedger

theorem SlotStakers.eq_default_of_isEmpty {entry : SlotStakers} (h : entry.isEmpty = true) :
    entry = {} := by
  obtain ⟨validator, delegators⟩ := entry
  simp only [SlotStakers.isEmpty, Bool.and_eq_true, Option.isNone_iff_eq_none] at h
  rw [h.1, OrderedMap.eq_empty_of_isEmpty h.2]

namespace Registry

/-- All indexes of the registry agree with one set of stakers. -/
structure Holds (r : Registry) (members : Set Staker) : Prop where
  stakers : r.stakers.Indexes Staker.key members
  validator : ∀ slot, r.validator? slot = occupant members slot
  delegators : ∀ slot,
    (r.slotStakers slot).delegators.Indexes Staker.key (delegatorsIn members slot)

theorem slotStakers_insert (r : Registry) (slot slot' : Slot) (entry : SlotStakers)
    (stakers : StakerTree) (diffs : SlotDiffs) :
    (Registry.mk (r.slots.insert slot entry) stakers diffs).slotStakers slot' =
      if slot' = slot then entry else r.slotStakers slot' := by
  unfold slotStakers
  split
  next heq => rw [heq, OrderedMap.get?_insert_self, Option.getD_some]
  next hne => rw [OrderedMap.get?_insert_ne _ _ hne]

/-- A slot that is dropped reads like one without stakers, so dropping it changes no read. -/
theorem slotStakers_updateSlot (r : Registry) (slot slot' : Slot)
    (f : SlotStakers → SlotStakers) (hf : f {} = {}) (stakers : StakerTree) (diffs : SlotDiffs) :
    (Registry.mk (r.updateSlot slot f) stakers diffs).slotStakers slot' =
      if slot' = slot then f (r.slotStakers slot) else r.slotStakers slot' := by
  unfold slotStakers updateSlot
  dsimp only
  rw [OrderedMap.get?_alter]
  by_cases heq : slot' = slot
  · rw [if_pos heq, if_pos (by rw [heq]; exact Std.ReflOrd.compare_self)]
    cases r.slots.get? slot with
    | none => exact hf.symm
    | some entry =>
        dsimp only
        split
        next hempty => exact (SlotStakers.eq_default_of_isEmpty hempty).symm
        next => rfl
  · rw [if_neg heq, if_neg (OrderedMap.compare_ne_eq_of_ne heq)]

namespace Holds

variable {r : Registry} {members : Set Staker} {s : Staker}

theorem empty : Holds {} ∅ where
  stakers := OrderedMap.Indexes.empty
  validator slot := (occupant_eq_none_iff.mpr fun _ hs => absurd hs (Set.notMem_empty _)).symm
  delegators slot := OrderedMap.Indexes.empty.congr fun s => by simp [delegatorsIn]

theorem clearDiffs (h : r.Holds members) : r.clearDiffs.Holds members :=
  ⟨h.stakers, h.validator, h.delegators⟩

/-- A validator put into a free slot joins the set. -/
theorem putValidator_free (h : r.Holds members) (hone : OneValidatorPerSlot members)
    (hv : s.isValidator = true) (hfree : occupant members s.slot = none)
    (hslot : ∀ t ∈ members, t.key = s.key → t.slot = s.slot) :
    (r.putValidator s).Holds (insert s members) := by
  have hnone : (r.slotStakers s.slot).validator = none := (h.validator s.slot).trans hfree
  constructor
  · have hindex := h.stakers.insert (b := s) fun t ht heq => by
      have htv : t.isValidator = true := (Staker.isValidator_of_key_eq heq).trans hv
      exact absurd (hslot t ht heq) (occupant_eq_none_iff.mp hfree t ht htv)
    simpa only [Registry.putValidator, hnone] using hindex
  · intro slot
    rw [occupant_insert_validator hone hv hfree, validator?, Registry.putValidator,
      slotStakers_insert]
    split
    next => rfl
    next => exact h.validator slot
  · intro slot
    rw [delegatorsIn_insert_validator hv, Registry.putValidator, slotStakers_insert]
    split
    next heq => rw [heq]; exact h.delegators s.slot
    next => exact h.delegators slot

theorem putValidator (h : r.Holds members) (hone : OneValidatorPerSlot members)
    (hv : s.isValidator = true) (hfree : occupant members s.slot = none)
    (htx : ∀ t ∈ members, t.txId = s.txId → t = s) :
    (r.putValidator s).Holds (insert s members) :=
  h.putValidator_free hone hv hfree fun t ht hkey =>
    congrArg Staker.slot (htx t ht (Staker.txId_of_key_eq hkey))

/-- A validator put into a slot that is taken replaces the one that held it. -/
theorem putValidator_over (h : r.Holds members) (hone : OneValidatorPerSlot members)
    (hv : s.isValidator = true) {old : Staker} (hheld : occupant members s.slot = some old)
    (hplace : ∀ t ∈ members, t.key = s.key → t.slot = s.slot) :
    (r.putValidator s).Holds (insert s (members \ {old})) := by
  obtain ⟨hold, holdv, hslot⟩ := (occupant_eq_some_iff hone).mp hheld
  have hless : OneValidatorPerSlot (members \ {old}) := hone.subset fun t ht => ht.1
  have hfree : occupant (members \ {old}) s.slot = none := by
    rw [occupant_diff_validator hone hold holdv, if_pos hslot.symm]
  have hsome : (r.slotStakers s.slot).validator = some old := (h.validator s.slot).trans hheld
  constructor
  · have hindex := (h.stakers.erase hold).insert (b := s) fun t ht heq => by
      have htv : t.isValidator = true := (Staker.isValidator_of_key_eq heq).trans hv
      exact absurd (hplace t ht.1 heq) (occupant_eq_none_iff.mp hfree t ht htv)
    simpa only [Registry.putValidator, hsome] using hindex
  · intro slot
    rw [occupant_insert_validator hless hv hfree, validator?, Registry.putValidator,
      slotStakers_insert]
    split
    next => rfl
    next hne =>
      rw [occupant_diff_validator hone hold holdv, if_neg fun heq => hne (heq.trans hslot)]
      exact h.validator slot
  · intro slot
    rw [delegatorsIn_insert_validator hv, delegatorsIn_diff_validator holdv,
      Registry.putValidator, slotStakers_insert]
    split
    next heq => rw [heq]; exact h.delegators s.slot
    next => exact h.delegators slot

theorem deleteValidator (h : r.Holds members) (hone : OneValidatorPerSlot members)
    (hv : s.isValidator = true) (hs : s ∈ members) :
    (r.deleteValidator s).Holds (members \ {s}) := by
  constructor
  · exact h.stakers.erase hs
  · intro slot
    rw [occupant_diff_validator hone hs hv, validator?, Registry.deleteValidator,
      slotStakers_updateSlot _ _ _ _ rfl]
    split
    next => rfl
    next => exact h.validator slot
  · intro slot
    rw [delegatorsIn_diff_validator hv, Registry.deleteValidator,
      slotStakers_updateSlot _ _ _ _ rfl]
    split
    next heq => rw [heq]; exact h.delegators s.slot
    next => exact h.delegators slot

/-- A delegator takes the place of the one of its slot that has its key, if there is one. -/
theorem putDelegator_over (h : r.Holds members) (hone : OneValidatorPerSlot members)
    (hd : s.isValidator = false) (hslot : ∀ t ∈ members, t.key = s.key → t.slot = s.slot) :
    (r.putDelegator s).Holds (insert s {t | t ∈ members ∧ t.key ≠ s.key}) := by
  have hrest : OneValidatorPerSlot {t | t ∈ members ∧ t.key ≠ s.key} := hone.subset fun t ht => ht.1
  constructor
  · exact h.stakers.put s
  · intro slot
    rw [occupant_insert_delegator hrest hd, occupant_without_key hone hd, validator?,
      Registry.putDelegator, slotStakers_insert]
    split
    next heq => rw [heq]; exact h.validator s.slot
    next => exact h.validator slot
  · intro slot
    rw [Registry.putDelegator, slotStakers_insert]
    split
    next heq =>
      rw [heq, delegatorsIn_insert_self hd]
      refine ((h.delegators s.slot).put s).congr fun t => or_congr_right ?_
      exact ⟨fun ht => ⟨⟨ht.1.1, ht.2⟩, ht.1.2⟩, fun ht => ⟨⟨ht.1.1, ht.2⟩, ht.1.2⟩⟩
    next hne =>
      rw [delegatorsIn_insert_ne hne]
      refine (h.delegators slot).congr fun t => ?_
      refine ⟨fun ht => ⟨⟨ht.1, fun hkey => hne ?_⟩, ht.2⟩, fun ht => ⟨ht.1.1, ht.2⟩⟩
      rw [← ht.2.2, hslot t ht.1 hkey]

theorem putDelegator (h : r.Holds members) (hone : OneValidatorPerSlot members)
    (hd : s.isValidator = false) (htx : ∀ t ∈ members, t.txId = s.txId → t = s) :
    (r.putDelegator s).Holds (insert s members) := by
  have hover := h.putDelegator_over hone hd fun t ht hkey =>
    congrArg Staker.slot (htx t ht (Staker.txId_of_key_eq hkey))
  have hmembers : insert s {t | t ∈ members ∧ t.key ≠ s.key} = insert s members := by
    refine Set.Subset.antisymm (Set.insert_subset_insert fun t ht => ht.1) ?_
    rintro t (rfl | ht)
    · exact Or.inl rfl
    · by_cases hkey : t.key = s.key
      · exact Or.inl (htx t ht (Staker.txId_of_key_eq hkey))
      · exact Or.inr ⟨ht, hkey⟩
  rwa [hmembers] at hover

theorem deleteDelegator (h : r.Holds members) (hone : OneValidatorPerSlot members)
    (hd : s.isValidator = false) (hs : s ∈ members) :
    (r.deleteDelegator s).Holds (members \ {s}) := by
  have hupdate : (fun entry : SlotStakers =>
      { entry with delegators := entry.delegators.erase s.key }) {} = {} := rfl
  constructor
  · exact h.stakers.erase hs
  · intro slot
    rw [occupant_diff_delegator hone hd, validator?, Registry.deleteDelegator,
      slotStakers_updateSlot _ _ _ _ hupdate]
    split
    next heq => rw [heq]; exact h.validator s.slot
    next => exact h.validator slot
  · intro slot
    rw [Registry.deleteDelegator, slotStakers_updateSlot _ _ _ _ hupdate]
    split
    next heq =>
      rw [heq, delegatorsIn_diff_self]
      exact (h.delegators s.slot).erase ⟨hs, hd, rfl⟩
    next hne =>
      rw [delegatorsIn_diff_ne hne]
      exact h.delegators slot

/-- A staker of a new transaction joins the set, where a validator finds its slot free. -/
theorem put_free (h : r.Holds members) (hone : OneValidatorPerSlot members)
    (hnew : ∀ t ∈ members, t.txId ≠ s.txId)
    (hfree : s.isValidator = true → occupant members s.slot = none) :
    (r.put s).Holds (insert s members) := by
  have htx : ∀ t ∈ members, t.txId = s.txId → t = s := fun t ht heq => absurd heq (hnew t ht)
  unfold Registry.put
  split
  next hv => exact h.putValidator hone hv (hfree hv) htx
  next hd => exact h.putDelegator hone (by simpa using hd) htx

/-- A staker of a new transaction joins the set; a validator may take the place of another. -/
theorem put (h : r.Holds members) (hone : OneValidatorPerSlot members)
    (hnew : ∀ t ∈ members, t.txId ≠ s.txId) :
    ∃ members', (r.put s).Holds members' ∧ OneValidatorPerSlot members' ∧
      members' ⊆ insert s members := by
  have htx : ∀ t ∈ members, t.txId = s.txId → t = s := fun t ht heq => absurd heq (hnew t ht)
  have hplace : ∀ t ∈ members, t.key = s.key → t.slot = s.slot := fun t ht hkey =>
    absurd (Staker.txId_of_key_eq hkey) (hnew t ht)
  unfold Registry.put
  split
  next hv =>
    cases hheld : occupant members s.slot with
    | none =>
        exact ⟨_, h.putValidator_free hone hv hheld hplace, hone.insert_validator hheld, fun _ ht => ht⟩
    | some old =>
        obtain ⟨hold, holdv, hslot⟩ := (occupant_eq_some_iff hone).mp hheld
        refine ⟨_, h.putValidator_over hone hv hheld hplace, ?_, ?_⟩
        · refine (hone.subset fun t ht => ht.1).insert_validator ?_
          rw [occupant_diff_validator hone hold holdv, if_pos hslot.symm]
        · exact Set.insert_subset_insert fun t ht => ht.1
  next hd =>
    have hd : s.isValidator = false := by simpa using hd
    exact ⟨_, h.putDelegator hone hd htx, hone.insert_delegator hd, fun _ ht => ht⟩

/-! ## Reads -/

theorem enumerates_all (h : r.Holds members) :
    Enumerates r.all.toList Staker.key members :=
  h.stakers.enumerates_ofTree

theorem enumerates_delegators (h : r.Holds members) (slot : Slot) :
    Enumerates (r.delegators slot).toList Staker.key (delegatorsIn members slot) :=
  (h.delegators slot).enumerates_ofTree

end Holds

end Registry

/-! ## Registries without empty slots -/

namespace Registry

/-- No slot is kept for nobody. -/
def Tidy (r : Registry) : Prop :=
  ∀ slot entry, r.slots.get? slot = some entry → entry.isEmpty = false

namespace Tidy

variable {r : Registry}

theorem empty : Tidy {} := by
  intro slot entry hget
  cases hget

theorem clearDiffs (h : r.Tidy) : r.clearDiffs.Tidy := h

theorem insert (h : r.Tidy) (slot : Slot) {entry : SlotStakers} (hentry : entry.isEmpty = false)
    (stakers : StakerTree) (diffs : SlotDiffs) :
    (Registry.mk (r.slots.insert slot entry) stakers diffs).Tidy := by
  intro slot' entry' hget
  dsimp only at hget
  by_cases heq : slot' = slot
  · subst heq
    rw [OrderedMap.get?_insert_self] at hget
    cases hget
    exact hentry
  · rw [OrderedMap.get?_insert_ne _ _ heq] at hget
    exact h slot' entry' hget

theorem updateSlot (h : r.Tidy) (slot : Slot) (f : SlotStakers → SlotStakers)
    (stakers : StakerTree) (diffs : SlotDiffs) :
    (Registry.mk (r.updateSlot slot f) stakers diffs).Tidy := by
  intro slot' entry' hget
  dsimp only [Registry.updateSlot] at hget
  rw [OrderedMap.get?_alter] at hget
  split at hget
  · split at hget
    · cases hget
    · split at hget
      · cases hget
      next hkept =>
        cases hget
        simpa using hkept
  · exact h slot' entry' hget

theorem putValidator (h : r.Tidy) (s : Staker) : (r.putValidator s).Tidy :=
  h.insert s.slot rfl _ _

theorem deleteValidator (h : r.Tidy) (s : Staker) : (r.deleteValidator s).Tidy :=
  h.updateSlot s.slot _ _ _

theorem putDelegator (h : r.Tidy) (s : Staker) : (r.putDelegator s).Tidy := by
  refine h.insert s.slot ?_ _ _
  unfold SlotStakers.isEmpty
  rw [OrderedMap.isEmpty_insert, Bool.and_false]

theorem deleteDelegator (h : r.Tidy) (s : Staker) : (r.deleteDelegator s).Tidy :=
  h.updateSlot s.slot _ _ _

theorem put (h : r.Tidy) (s : Staker) : (r.put s).Tidy := by
  unfold Registry.put
  split
  · exact h.putValidator s
  · exact h.putDelegator s

/-- The slots that are kept are told by what is read of all slots. -/
theorem get?_slots (h : r.Tidy) (slot : Slot) :
    r.slots.get? slot =
      if (r.slotStakers slot).isEmpty then none else some (r.slotStakers slot) := by
  unfold slotStakers
  cases hget : r.slots.get? slot with
  | none => rfl
  | some entry =>
      rw [Option.getD_some, h slot entry hget]
      rfl

/-- Registries that hold the same set are the same, given that they keep no empty slots and have the
same changes on record. -/
theorem eq_of_holds {r' : Registry} {members : Set Staker} (h : r.Tidy) (h' : r'.Tidy)
    (hholds : r.Holds members) (hholds' : r'.Holds members) (hdiffs : r.diffs = r'.diffs) :
    r = r' := by
  have hslotStakers : r.slotStakers = r'.slotStakers := by
    funext slot
    have hvalidator : (r.slotStakers slot).validator = (r'.slotStakers slot).validator :=
      (hholds.validator slot).trans (hholds'.validator slot).symm
    have hdelegators := (hholds.delegators slot).unique (hholds'.delegators slot)
    generalize r.slotStakers slot = entry at *
    generalize r'.slotStakers slot = entry' at *
    cases entry
    cases entry'
    cases hvalidator
    cases hdelegators
    rfl
  have hslots : r.slots = r'.slots := by
    apply OrderedMap.ext_get?
    intro slot
    rw [h.get?_slots, h'.get?_slots, hslotStakers]
  have hstakers := hholds.stakers.unique hholds'.stakers
  cases r
  cases r'
  cases hslots
  cases hstakers
  cases hdiffs
  rfl

end Tidy

end Registry

/-! ## Validators of different slots -/

namespace SlotDiffs

theorem update_comm (diffs : SlotDiffs) {slot slot' : Slot} (f f' : SlotDiff → SlotDiff)
    (h : slot ≠ slot') :
    (diffs.update slot f).update slot' f' = (diffs.update slot' f').update slot f := by
  have hleft : (diffs.update slot f).recorded slot' = diffs.recorded slot' := by
    rw [recorded, update, OrderedMap.get?_insert_ne _ _ h.symm]
    rfl
  have hright : (diffs.update slot' f').recorded slot = diffs.recorded slot := by
    rw [recorded, update, OrderedMap.get?_insert_ne _ _ h]
    rfl
  rw [update, hleft, update.eq_def (diffs.update slot' f'), hright]
  exact OrderedMap.insert_comm diffs _ _ h

end SlotDiffs

namespace Registry

variable {r : Registry} {s t : Staker}

/-- A validator that finds its slot free takes nobody's place. -/
theorem putValidator_of_free (h : r.validator? s.slot = none) :
    r.putValidator s =
      { slots := r.slots.insert s.slot { r.slotStakers s.slot with validator := some s }
        stakers := r.stakers.insert s.key s
        diffs := r.diffs.update s.slot (·.putValidator s) } := by
  have hnone : (r.slotStakers s.slot).validator = none := h
  unfold putValidator
  dsimp only
  rw [hnone]

theorem slotStakers_putValidator_ne (r : Registry) (s : Staker) {slot : Slot} (h : slot ≠ s.slot) :
    (r.putValidator s).slotStakers slot = r.slotStakers slot := by
  rw [putValidator, slotStakers_insert, if_neg h]

/-- Validators of different slots may be put in either order where both slots are free. -/
theorem putValidator_comm (hslot : s.slot ≠ t.slot) (hkey : s.key ≠ t.key)
    (hs : r.validator? s.slot = none) (ht : r.validator? t.slot = none) :
    (r.putValidator s).putValidator t = (r.putValidator t).putValidator s := by
  have hs' : (r.putValidator t).validator? s.slot = none := by
    rw [validator?, slotStakers_putValidator_ne r t hslot]
    exact hs
  have ht' : (r.putValidator s).validator? t.slot = none := by
    rw [validator?, slotStakers_putValidator_ne r s hslot.symm]
    exact ht
  rw [putValidator_of_free ht', putValidator_of_free hs', slotStakers_putValidator_ne r s hslot.symm,
    slotStakers_putValidator_ne r t hslot, putValidator_of_free hs, putValidator_of_free ht]
  dsimp only
  rw [OrderedMap.insert_comm _ _ _ hslot, OrderedMap.insert_comm _ _ _ hkey,
    SlotDiffs.update_comm _ _ _ hslot]

end Registry

end StakingLedger
