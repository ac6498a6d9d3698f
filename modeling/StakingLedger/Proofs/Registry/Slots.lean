import Mathlib.Data.Set.Basic
import StakingLedger.Proofs.Staker.Enumeration

/-! # Slots of staker sets

The stakers of a registry form a plain set with at most one validator in a
slot. Adding or taking away one staker changes the slot of that staker and no
other.
-/

namespace StakingLedger

/-- The delegators of a slot among some stakers. -/
def delegatorsIn (members : Set Staker) (slot : Slot) : Set Staker :=
  {s | s ∈ members ∧ s.isValidator = false ∧ s.slot = slot}

open Classical in
/-- The validator of a slot among some stakers. -/
noncomputable def occupant (members : Set Staker) (slot : Slot) : Option Staker :=
  if h : ∃ s, s ∈ members ∧ s.isValidator = true ∧ s.slot = slot then some h.choose else none

/-- No two validators share a slot. -/
def OneValidatorPerSlot (members : Set Staker) : Prop :=
  ∀ s ∈ members, ∀ t ∈ members, s.isValidator = true → t.isValidator = true →
    s.slot = t.slot → s = t

variable {members : Set Staker} {s t : Staker} {slot : Slot}

theorem occupant_eq_some_iff (h : OneValidatorPerSlot members) :
    occupant members slot = some s ↔ s ∈ members ∧ s.isValidator = true ∧ s.slot = slot := by
  unfold occupant
  split
  next hex =>
    have hspec := hex.choose_spec
    rw [Option.some.injEq]
    constructor
    · rintro rfl
      exact hspec
    · intro hs
      exact h _ hspec.1 s hs.1 hspec.2.1 hs.2.1 (hspec.2.2.trans hs.2.2.symm)
  next hnone =>
    constructor
    · intro heq; cases heq
    · intro hs
      exact absurd ⟨s, hs⟩ hnone

theorem occupant_eq_none_iff :
    occupant members slot = none ↔ ∀ s ∈ members, s.isValidator = true → s.slot ≠ slot := by
  unfold occupant
  split
  next hex =>
    obtain ⟨s, hs, hv, hslot⟩ := hex
    constructor
    · intro heq; cases heq
    · intro hfree
      exact absurd hslot (hfree s hs hv)
  next hnone =>
    exact iff_of_true rfl fun s hs hv hslot => hnone ⟨s, hs, hv, hslot⟩

theorem spec_of_occupant (h : occupant members slot = some s) :
    s ∈ members ∧ s.isValidator = true ∧ s.slot = slot := by
  unfold occupant at h
  split at h
  next hex =>
    cases h
    exact hex.choose_spec
  next => cases h

theorem mem_of_occupant (h : occupant members slot = some s) : s ∈ members :=
  (spec_of_occupant h).1

theorem OneValidatorPerSlot.subset {members' : Set Staker} (h : OneValidatorPerSlot members)
    (hsub : members' ⊆ members) : OneValidatorPerSlot members' :=
  fun s hs t ht => h s (hsub hs) t (hsub ht)

theorem OneValidatorPerSlot.insert_validator (h : OneValidatorPerSlot members)
    (hfree : occupant members s.slot = none) : OneValidatorPerSlot (insert s members) := by
  have hnone := occupant_eq_none_iff.mp hfree
  rintro a (rfl | ha) b (rfl | hb) hav hbv hslot
  · rfl
  · exact absurd hslot.symm (hnone b hb hbv)
  · exact absurd hslot (hnone a ha hav)
  · exact h a ha b hb hav hbv hslot

theorem OneValidatorPerSlot.insert_delegator (h : OneValidatorPerSlot members)
    (hd : s.isValidator = false) : OneValidatorPerSlot (insert s members) := by
  rintro a (rfl | ha) b (rfl | hb) hav hbv hslot
  · rfl
  · rw [hd] at hav; cases hav
  · rw [hd] at hbv; cases hbv
  · exact h a ha b hb hav hbv hslot

/-- Stakers of fewer members occupy a slot as before if none of its validators is left out. -/
theorem occupant_of_subset {members' : Set Staker} (h : OneValidatorPerSlot members)
    (hsub : members' ⊆ members)
    (hkept : ∀ t ∈ members, t.isValidator = true → t.slot = slot → t ∈ members') :
    occupant members' slot = occupant members slot := by
  refine Option.ext fun t => ?_
  rw [occupant_eq_some_iff (h.subset hsub), occupant_eq_some_iff h]
  exact ⟨fun ht => ⟨hsub ht.1, ht.2⟩, fun ht => ⟨hkept t ht.1 ht.2.1 ht.2.2, ht.2⟩⟩

/-- Likewise for the delegators of a slot. -/
theorem delegatorsIn_of_subset {members' : Set Staker} (hsub : members' ⊆ members)
    (hkept : ∀ t ∈ members, t.isValidator = false → t.slot = slot → t ∈ members') :
    delegatorsIn members' slot = delegatorsIn members slot := by
  ext t
  exact ⟨fun ht => ⟨hsub ht.1, ht.2⟩, fun ht => ⟨hkept t ht.1 ht.2.1 ht.2.2, ht.2⟩⟩

/-- Nobody is both a validator and a delegator. -/
theorem ne_of_roles (hv : s.isValidator = true) (hd : t.isValidator = false) : s ≠ t := by
  rintro rfl
  exact Bool.false_ne_true (hd.symm.trans hv)

theorem occupant_insert_validator (h : OneValidatorPerSlot members) (hv : s.isValidator = true)
    (hfree : occupant members s.slot = none) (slot : Slot) :
    occupant (insert s members) slot = if slot = s.slot then some s else occupant members slot := by
  have hone := h.insert_validator hfree
  split
  next heq => exact (occupant_eq_some_iff hone).mpr ⟨Set.mem_insert s members, hv, heq.symm⟩
  next hne =>
    refine (occupant_of_subset hone (Set.subset_insert s members) fun t ht _ hslot => ?_).symm
    exact ht.resolve_left fun heq => hne (by rw [← hslot, heq])

theorem occupant_insert_delegator (h : OneValidatorPerSlot members) (hd : s.isValidator = false)
    (slot : Slot) : occupant (insert s members) slot = occupant members slot :=
  (occupant_of_subset (h.insert_delegator hd) (Set.subset_insert s members)
    fun _ ht htv _ => ht.resolve_left (ne_of_roles htv hd)).symm

theorem occupant_diff_validator (h : OneValidatorPerSlot members) (hs : s ∈ members)
    (hv : s.isValidator = true) (slot : Slot) :
    occupant (members \ {s}) slot = if slot = s.slot then none else occupant members slot := by
  split
  next heq =>
    refine occupant_eq_none_iff.mpr fun t ht htv hslot => ht.2 ?_
    exact h t ht.1 s hs htv hv (hslot.trans heq)
  next hne =>
    refine occupant_of_subset h Set.sdiff_subset fun t ht _ hslot => ⟨ht, fun heq => hne ?_⟩
    rw [← hslot, heq]

theorem occupant_diff_delegator (h : OneValidatorPerSlot members) (hd : s.isValidator = false)
    (slot : Slot) : occupant (members \ {s}) slot = occupant members slot :=
  occupant_of_subset h Set.sdiff_subset fun _ ht htv _ => ⟨ht, ne_of_roles htv hd⟩

/-- A delegator's key is no validator's. -/
theorem occupant_without_key (h : OneValidatorPerSlot members) (hd : s.isValidator = false)
    (slot : Slot) : occupant {t | t ∈ members ∧ t.key ≠ s.key} slot = occupant members slot := by
  refine occupant_of_subset h (fun _ ht => ht.1) fun t ht htv _ => ⟨ht, fun hkey => ?_⟩
  rw [Staker.isValidator_of_key_eq hkey, hd] at htv
  cases htv

theorem delegatorsIn_insert_validator (hv : s.isValidator = true) (slot : Slot) :
    delegatorsIn (insert s members) slot = delegatorsIn members slot :=
  (delegatorsIn_of_subset (Set.subset_insert s members)
    fun _ ht htd _ => ht.resolve_left (ne_of_roles hv htd).symm).symm

theorem delegatorsIn_insert_self (hd : s.isValidator = false) :
    delegatorsIn (insert s members) s.slot = insert s (delegatorsIn members s.slot) := by
  ext t
  constructor
  · rintro ⟨rfl | ht, htd, hslot⟩
    · exact Or.inl rfl
    · exact Or.inr ⟨ht, htd, hslot⟩
  · rintro (rfl | ht)
    · exact ⟨Or.inl rfl, hd, rfl⟩
    · exact ⟨Or.inr ht.1, ht.2⟩

theorem delegatorsIn_insert_ne (hslot : slot ≠ s.slot) :
    delegatorsIn (insert s members) slot = delegatorsIn members slot := by
  refine (delegatorsIn_of_subset (Set.subset_insert s members) fun t ht _ hslot' => ?_).symm
  exact ht.resolve_left fun heq => hslot (by rw [← hslot', heq])

theorem delegatorsIn_diff_validator (hv : s.isValidator = true) (slot : Slot) :
    delegatorsIn (members \ {s}) slot = delegatorsIn members slot :=
  delegatorsIn_of_subset Set.sdiff_subset fun _ ht htd _ => ⟨ht, (ne_of_roles hv htd).symm⟩

theorem delegatorsIn_diff_self :
    delegatorsIn (members \ {s}) s.slot = delegatorsIn members s.slot \ {s} := by
  ext t
  exact ⟨fun ht => ⟨⟨ht.1.1, ht.2⟩, ht.1.2⟩, fun ht => ⟨⟨ht.1.1, ht.2⟩, ht.1.2⟩⟩

theorem delegatorsIn_diff_ne (hslot : slot ≠ s.slot) :
    delegatorsIn (members \ {s}) slot = delegatorsIn members slot := by
  refine delegatorsIn_of_subset Set.sdiff_subset fun t ht _ hslot' => ⟨ht, fun heq => hslot ?_⟩
  rw [← hslot', heq]

end StakingLedger
