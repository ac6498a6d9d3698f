import Mathlib.Algebra.Order.BigOperators.Group.List
import Mathlib.Algebra.Order.Group.Nat
import Mathlib.Algebra.Order.Ring.Int
import Mathlib.Data.List.Perm.Subperm
import StakingLedger.Proofs.Answer
import StakingLedger.Proofs.Registry.NetChange
import StakingLedger.State.Flush

/-! # The weight of a slot

The weight of a slot is that of its validator and of its delegators together.
What the diff of a slot adds up to is the difference between the weights before
and after, for any net change. Nothing is assumed here about overflow: a sum
that leaves the range makes the diff fail.
-/

namespace StakingLedger

/-! ## Signed changes -/

namespace WeightChange

theorem toInt_add {c r : WeightChange} {decrease : Bool} {amount : UInt64}
    (h : c.add decrease amount = .ok r) : r.toInt = c.toInt + toInt ⟨decrease, amount⟩ := by
  unfold add at h
  -- Equal signs add up, and of different signs the greater amount decides.
  split at h
  next hsame =>
    split at h
    next hfits =>
      cases h
      have hsum : (c.amount + amount).toNat = c.amount.toNat + amount.toNat := by
        rw [UInt64.toNat_add]
        exact Nat.mod_eq_of_lt hfits
      unfold toInt
      dsimp only
      rw [hsum, ← hsame]
      split <;> omega
    next => cases h
  next hother =>
    split at h
    next hle =>
      cases h
      have hdifference := UInt64.toNat_sub_of_le _ _ hle
      have hnat := UInt64.le_iff_toNat_le.mp hle
      unfold toInt
      dsimp only
      rw [hdifference]
      cases hc : c.decrease <;> cases decrease <;> simp_all <;> omega
    next hgt =>
      cases h
      have hle : c.amount ≤ amount := by
        rw [UInt64.le_iff_toNat_le] at hgt ⊢
        omega
      have hdifference := UInt64.toNat_sub_of_le _ _ hle
      have hnat := UInt64.le_iff_toNat_le.mp hle
      unfold toInt
      dsimp only
      rw [hdifference]
      cases hc : c.decrease <;> cases decrease <;> simp_all <;> omega

example : (⟨false, 3⟩ : WeightChange).add true 5 = .ok ⟨true, 2⟩ := by decide

theorem toInt_addAll {c r : WeightChange} {changes : List WeightChange}
    (h : c.addAll changes = .ok r) : r.toInt = c.toInt + (changes.map toInt).sum := by
  induction changes generalizing c with
  | nil =>
      cases h
      simp
  | cons d rest ih =>
      obtain ⟨next, hnext, hrest⟩ := bind_eq_ok_iff.mp h
      rw [ih hrest, toInt_add hnext, List.map_cons, List.sum_cons, Int.add_assoc]

end WeightChange

/-! ## Sums over stakers -/

/-- The weights of some stakers, together. -/
def totalWeight (stakers : List Staker) : Int := (stakers.map fun t => (t.weight.toNat : Int)).sum

theorem totalWeight_perm {l l' : List Staker} (h : l.Perm l') : totalWeight l = totalWeight l' :=
  (h.map _).sum_eq

theorem totalWeight_append (l l' : List Staker) :
    totalWeight (l ++ l') = totalWeight l + totalWeight l' := by
  simp [totalWeight]

@[simp] theorem totalWeight_cons (t : Staker) (l : List Staker) :
    totalWeight (t :: l) = t.weight.toNat + totalWeight l := rfl

theorem totalWeight_sublist {l l' : List Staker} (h : l.Sublist l') :
    totalWeight l ≤ totalWeight l' := by
  induction h with
  | slnil => exact Int.le_refl _
  | cons t _ ih =>
      rw [totalWeight_cons]
      omega
  | cons_cons t _ ih =>
      rw [totalWeight_cons, totalWeight_cons]
      omega

/-- Different stakers of a list weigh no more than the whole list. -/
theorem totalWeight_le_of_subset {l l' : List Staker} (hnodup : l.Nodup) (h : l ⊆ l') :
    totalWeight l ≤ totalWeight l' := by
  obtain ⟨part, hperm, hpart⟩ := List.subperm_of_subset hnodup h
  rw [← totalWeight_perm hperm]
  exact totalWeight_sublist hpart

/-- What came and what went make the difference of two sums. -/
theorem totalWeight_difference {were are came went : List Staker} (hwere : were.Nodup)
    (hare : are.Nodup) (hcame : came.Nodup) (hwent : went.Nodup)
    (hnew : ∀ t, t ∈ came ↔ t ∈ are ∧ t ∉ were) (hgone : ∀ t, t ∈ went ↔ t ∈ were ∧ t ∉ are) :
    totalWeight are - totalWeight were = totalWeight came - totalWeight went := by
  have hperm : (are ++ went).Perm (were ++ came) := by
    refine (List.perm_ext_iff_of_nodup ?_ ?_).mpr fun t => ?_
    · refine List.nodup_append.mpr ⟨hare, hwent, fun t ht u hu heq => ?_⟩
      exact ((hgone u).mp hu).2 (heq ▸ ht)
    · refine List.nodup_append.mpr ⟨hwere, hcame, fun t ht u hu heq => ?_⟩
      exact ((hnew u).mp hu).2 (heq ▸ ht)
    · rw [List.mem_append, List.mem_append, hgone, hnew]
      tauto
  have hsum := totalWeight_perm hperm
  rw [totalWeight_append, totalWeight_append] at hsum
  omega

/-! ## One slot -/

/-- The stakers of a slot. -/
def inSlot (held : List Staker) (slot : Slot) : List Staker := held.filter fun t => t.slot = slot

/-- The weight of a slot, the delegators included. -/
def slotWeight (held : List Staker) (slot : Slot) : Nat :=
  ((inSlot held slot).map fun t => t.weight.toNat).sum

/-- The key of the validator of a slot. -/
def slotKey (held : List Staker) (slot : Slot) : Option Bytes :=
  ((inSlot held slot).find? Staker.isValidator).bind Staker.publicKey

theorem slotWeight_le (held : List Staker) (slot : Slot) :
    slotWeight held slot ≤ (held.map fun t => t.weight.toNat).sum :=
  (List.filter_sublist.map _).sum_le_sum fun _ _ => Nat.zero_le _

theorem slotWeight_eq (held : List Staker) (slot : Slot) :
    (slotWeight held slot : Int) = totalWeight (inSlot held slot) := by
  unfold slotWeight totalWeight
  induction inSlot held slot with
  | nil => rfl
  | cons t rest ih => simp [ih]

/-- The weight of a validator, if there is one. -/
def validatorWeight (validator : Option Staker) : Int := totalWeight validator.toList

variable {held : List Staker} {members were are : Set Staker} {slot : Slot} {d : SlotDiff}

theorem mem_inSlot {t : Staker} : t ∈ inSlot held slot ↔ t ∈ held ∧ t.slot = slot := by
  simp [inSlot]

theorem nodup_inSlot (h : Enumerates held Staker.key members) : (inSlot held slot).Nodup :=
  h.nodup.filter _

theorem find?_inSlot (h : Enumerates held Staker.key members) (hone : OneValidatorPerSlot members) :
    (inSlot held slot).find? Staker.isValidator = occupant members slot := by
  cases hfind : (inSlot held slot).find? Staker.isValidator with
  | none =>
      refine (occupant_eq_none_iff.mpr fun t ht hv hslot => ?_).symm
      exact List.find?_eq_none.mp hfind t (mem_inSlot.mpr ⟨(h.mem_iff t).mpr ht, hslot⟩) hv
  | some v =>
      obtain ⟨hmem, hslot⟩ := mem_inSlot.mp (List.mem_of_find?_eq_some hfind)
      exact ((occupant_eq_some_iff hone).mpr
        ⟨(h.mem_iff v).mp hmem, List.find?_some hfind, hslot⟩).symm

theorem slotKey_eq (h : Enumerates held Staker.key members) (hone : OneValidatorPerSlot members) :
    slotKey held slot = (occupant members slot).bind Staker.publicKey := by
  rw [slotKey, find?_inSlot h hone]

/-- The delegators of a slot as they stand in the whole list. -/
def delegatorList (held : List Staker) (slot : Slot) : List Staker :=
  (inSlot held slot).filter fun t => !t.isValidator

theorem mem_delegatorList (h : Enumerates held Staker.key members) {t : Staker} :
    t ∈ delegatorList held slot ↔ t ∈ delegatorsIn members slot := by
  rw [delegatorList, List.mem_filter, mem_inSlot, h.mem_iff, Bool.not_eq_true']
  constructor
  · exact fun ht => ⟨ht.1.1, ht.2, ht.1.2⟩
  · exact fun ht => ⟨⟨ht.1, ht.2.2⟩, ht.2.1⟩

theorem validators_inSlot (h : Enumerates held Staker.key members)
    (hone : OneValidatorPerSlot members) :
    ((inSlot held slot).filter Staker.isValidator).Perm (occupant members slot).toList := by
  refine (List.perm_ext_iff_of_nodup ((nodup_inSlot h).filter _) ?_).mpr fun t => ?_
  · cases occupant members slot <;> simp
  · rw [List.mem_filter, mem_inSlot, h.mem_iff, Option.mem_toList, occupant_eq_some_iff hone]
    tauto

/-- A slot weighs as much as its validator and its delegators. -/
theorem slotWeight_split (h : Enumerates held Staker.key members)
    (hone : OneValidatorPerSlot members) :
    (slotWeight held slot : Int) =
      validatorWeight (occupant members slot) + totalWeight (delegatorList held slot) := by
  have hsplit := List.filter_append_perm Staker.isValidator (inSlot held slot)
  rw [slotWeight_eq, ← totalWeight_perm hsplit, totalWeight_append,
    totalWeight_perm (validators_inSlot h hone)]
  rfl

/-! ## Net changes of weight -/

theorem totalWeight_increases (l : List Staker) :
    ((l.map fun t => (⟨false, t.weight⟩ : WeightChange)).map WeightChange.toInt).sum =
      totalWeight l := by
  rw [List.map_map]
  rfl

theorem totalWeight_decreases (l : List Staker) :
    ((l.map fun t => (⟨true, t.weight⟩ : WeightChange)).map WeightChange.toInt).sum =
      -totalWeight l := by
  rw [List.map_map]
  induction l with
  | nil => rfl
  | cons t rest ih =>
      rw [List.map_cons, List.sum_cons, ih]
      simp only [totalWeight, List.map_cons, List.sum_cons, Function.comp_apply, WeightChange.toInt,
        if_true]
      omega

namespace SlotDiff

/-- The changes of weight that concern the validator. -/
def validatorSteps (d : SlotDiff) : List WeightChange :=
  match d.status, d.validator with
  | .added, some v =>
    (d.superseded.map fun old => (⟨true, old.weight⟩ : WeightChange)).toList ++
      [⟨false, v.weight⟩]
  | .deleted, some v => [⟨true, v.weight⟩]
  | _, _ => []

/-- The changes of weight that concern the delegators. -/
def delegatorSteps (d : SlotDiff) : List WeightChange :=
  d.addedDelegators.values.map (fun s => ⟨false, s.weight⟩) ++
    d.deletedDelegators.values.map (fun s => ⟨true, s.weight⟩)

theorem weightSteps_eq (d : SlotDiff) : d.weightSteps = d.validatorSteps ++ d.delegatorSteps := by
  rw [delegatorSteps, ← List.append_assoc]
  rfl

/-- What the diff of a slot records of its validator is the difference between the two. -/
theorem Nets.sum_validatorSteps {before after : Option Staker} (h : d.Nets before after were are) :
    (d.validatorSteps.map WeightChange.toInt).sum =
      validatorWeight after - validatorWeight before := by
  unfold validatorSteps
  cases hstatus : d.status with
  | unmodified =>
      obtain ⟨_, _, hsame⟩ := h.unmodified hstatus
      rw [hsame]
      simp
  | added =>
      obtain ⟨v, hvalidator, rfl, hsuperseded⟩ := h.exists_added hstatus
      rw [hvalidator, hsuperseded]
      cases before <;> simp [validatorWeight, totalWeight, WeightChange.toInt]
      omega
  | deleted =>
      obtain ⟨v, hvalidator, rfl, _, rfl⟩ := h.exists_deleted hstatus
      rw [hvalidator]
      simp [validatorWeight, totalWeight, WeightChange.toInt]

theorem Nets.weightSteps {before after : Option Staker} (h : d.Nets before after were are) :
    (d.weightSteps.map WeightChange.toInt).sum =
      validatorWeight after - validatorWeight before +
        (totalWeight d.addedDelegators.values - totalWeight d.deletedDelegators.values) := by
  rw [weightSteps_eq, List.map_append, List.sum_append, h.sum_validatorSteps, delegatorSteps,
    List.map_append, List.sum_append, totalWeight_increases, totalWeight_decreases]
  rfl

end SlotDiff

/-- The recorded change of a slot is the difference of its weights. -/
theorem toInt_weightChange {before after : List Staker} {change : WeightChange}
    (h : d.Nets (occupant were slot) (occupant are slot) (delegatorsIn were slot)
      (delegatorsIn are slot))
    (hbefore : Enumerates before Staker.key were) (hafter : Enumerates after Staker.key are)
    (hwere : OneValidatorPerSlot were) (hare : OneValidatorPerSlot are)
    (hchange : d.weightChange = .ok change) :
    change.toInt = slotWeight after slot - slotWeight before slot := by
  have hcame := h.addedDelegators.enumerates
  have hwent := h.deletedDelegators.enumerates
  have hdelegators := totalWeight_difference
    ((nodup_inSlot hbefore).filter fun t => !t.isValidator)
    ((nodup_inSlot hafter).filter fun t => !t.isValidator) hcame.nodup hwent.nodup
    (fun t => by
      rw [hcame.mem_iff]
      exact and_congr (mem_delegatorList hafter).symm (not_congr (mem_delegatorList hbefore)).symm)
    fun t => by
      rw [hwent.mem_iff]
      exact and_congr (mem_delegatorList hbefore).symm (not_congr (mem_delegatorList hafter)).symm
  have hsteps := WeightChange.toInt_addAll hchange
  rw [h.weightSteps] at hsteps
  have hzero : WeightChange.zero.toInt = 0 := rfl
  rw [slotWeight_split hbefore hwere, slotWeight_split hafter hare]
  unfold delegatorList
  omega

/-- The recorded key is that of the validator before, where the key changed. -/
theorem SlotDiff.Nets.previousKey? {before after : Option Staker}
    (h : d.Nets before after were are) :
    d.previousKey? = if before.bind Staker.publicKey = after.bind Staker.publicKey then none
      else some (before.bind Staker.publicKey) := by
  unfold SlotDiff.previousKey?
  cases hstatus : d.status with
  | unmodified =>
      obtain ⟨_, _, hsame⟩ := h.unmodified hstatus
      rw [hsame, if_pos rfl]
  | added =>
      obtain ⟨v, hvalidator, rfl, hsuperseded⟩ := h.exists_added hstatus
      rw [hvalidator, hsuperseded]
      simp
  | deleted =>
      obtain ⟨v, hvalidator, rfl, _, rfl⟩ := h.exists_deleted hstatus
      rw [hvalidator]
      cases hkey : v.publicKey <;> simp [hkey]

theorem previousKey?_eq {before after : List Staker}
    (h : d.Nets (occupant were slot) (occupant are slot) (delegatorsIn were slot)
      (delegatorsIn are slot))
    (hbefore : Enumerates before Staker.key were) (hafter : Enumerates after Staker.key are)
    (hwere : OneValidatorPerSlot were) (hare : OneValidatorPerSlot are) :
    d.previousKey? =
      if slotKey before slot = slotKey after slot then none else some (slotKey before slot) := by
  rw [h.previousKey?, slotKey_eq hbefore hwere, slotKey_eq hafter hare]

end StakingLedger
