import StakingLedger.Proofs.Codec.Canonical
import StakingLedger.Proofs.Ledger.StakerReplay
import StakingLedger.Proofs.ValidatorSet.SameChange

/-! # Weights that can be recorded

A flush adds up the changes of a slot one by one, and on the way the sum may be
larger than both weights. It is refused nowhere if the slot fits in a word before
and after: above zero the sum is of stakers that are there, below zero of stakers
that were.
-/

namespace StakingLedger

/-! ## Sums of signed changes -/

namespace WeightChange

variable {c : WeightChange} {steps : List WeightChange}

/-- What the changes raise the weight by. -/
def gains (steps : List WeightChange) : Int :=
  (steps.map fun d => if d.decrease then 0 else (d.amount.toNat : Int)).sum

/-- What the changes lower the weight by. -/
def losses (steps : List WeightChange) : Int :=
  (steps.map fun d => if d.decrease then (d.amount.toNat : Int) else 0).sum

theorem gains_append (first second : List WeightChange) :
    gains (first ++ second) = gains first + gains second := by
  simp [gains]

theorem losses_append (first second : List WeightChange) :
    losses (first ++ second) = losses first + losses second := by
  simp [losses]

theorem gains_nonneg (steps : List WeightChange) : 0 ≤ gains steps :=
  List.sum_nonneg (List.forall_mem_map.mpr fun d _ => by
    split
    · exact Int.le_refl 0
    · exact Int.natCast_nonneg d.amount.toNat)

theorem losses_nonneg (steps : List WeightChange) : 0 ≤ losses steps :=
  List.sum_nonneg (List.forall_mem_map.mpr fun d _ => by
    split
    · exact Int.natCast_nonneg d.amount.toNat
    · exact Int.le_refl 0)

theorem toInt_eq (d : WeightChange) : d.toInt = gains [d] - losses [d] := by
  obtain ⟨decrease, amount⟩ := d
  cases decrease <;> simp [toInt, gains, losses]

/-- A series can be added from a start to which neither all that is gained nor all that is lost is
too much. -/
theorem exists_addAll (hgains : c.toInt + gains steps < UInt64.size)
    (hlosses : losses steps - c.toInt < UInt64.size) : ∃ r, c.addAll steps = .ok r := by
  induction steps generalizing c with
  | nil => exact ⟨c, rfl⟩
  | cons d rest ih =>
      rw [← List.singleton_append, gains_append] at hgains
      rw [← List.singleton_append, losses_append] at hlosses
      have hd := toInt_eq d
      have hgained := gains_nonneg [d]
      have hlost := losses_nonneg [d]
      have hgainedLater := gains_nonneg rest
      have hlostLater := losses_nonneg rest
      obtain ⟨next, hnext⟩ : ∃ next, c.add d.decrease d.amount = .ok next :=
        exists_add_iff.mpr (show (c.toInt + d.toInt).natAbs < UInt64.size by omega)
      have hvalue : next.toInt = c.toInt + d.toInt := toInt_add hnext
      obtain ⟨r, hr⟩ := ih (c := next) (by omega) (by omega)
      exact ⟨r, bind_eq_ok_iff.mpr ⟨next, hnext, hr⟩⟩

theorem gains_increases (l : List Staker) :
    gains (l.map fun t => ⟨false, t.weight⟩) = totalWeight l := by
  rw [gains, List.map_map]
  rfl

theorem gains_decreases (l : List Staker) : gains (l.map fun t => ⟨true, t.weight⟩) = 0 := by
  rw [gains, List.map_map]
  exact List.sum_eq_zero fun n hn => by
    obtain ⟨_, _, rfl⟩ := List.mem_map.mp hn
    rfl

theorem losses_increases (l : List Staker) : losses (l.map fun t => ⟨false, t.weight⟩) = 0 := by
  rw [losses, List.map_map]
  exact List.sum_eq_zero fun n hn => by
    obtain ⟨_, _, rfl⟩ := List.mem_map.mp hn
    rfl

theorem losses_decreases (l : List Staker) :
    losses (l.map fun t => ⟨true, t.weight⟩) = totalWeight l := by
  rw [losses, List.map_map]
  rfl

end WeightChange

/-! ## One slot -/

namespace SlotDiff

/-- The validator of before that a slot diff takes away. -/
def displaced? (d : SlotDiff) : Option Staker :=
  match d.status with
  | .unmodified => none
  | .added => d.superseded
  | .deleted => d.validator

/-- The stakers that a slot diff takes away: the validator, then the delegators. -/
def departures (d : SlotDiff) : List Staker :=
  d.displaced?.toList ++ d.deletedDelegators.values

namespace Nets

variable {d : SlotDiff} {before after : Option Staker} {were are : Set Staker}

/-- The diff of a slot gains what arrives. -/
theorem gains_weightSteps (h : d.Nets before after were are) :
    WeightChange.gains d.weightSteps = totalWeight d.arrivals := by
  have hvalidator : WeightChange.gains d.validatorSteps =
      totalWeight (if d.status = .added then d.validator.toList else []) := by
    unfold validatorSteps
    cases hstatus : d.status with
    | unmodified => rfl
    | added =>
        obtain ⟨v, hvalidator, rfl, _⟩ := h.exists_added hstatus
        rw [hvalidator]
        cases d.superseded <;> simp [WeightChange.gains, totalWeight]
    | deleted =>
        cases d.validator <;> simp [WeightChange.gains, totalWeight]
  rw [weightSteps_eq, delegatorSteps, WeightChange.gains_append, WeightChange.gains_append,
    hvalidator, WeightChange.gains_increases, WeightChange.gains_decreases, arrivals,
    totalWeight_append, Int.add_zero]

/-- The diff of a slot loses what departs. -/
theorem losses_weightSteps (h : d.Nets before after were are) :
    WeightChange.losses d.weightSteps = totalWeight d.departures := by
  have hvalidator : WeightChange.losses d.validatorSteps = totalWeight d.displaced?.toList := by
    unfold validatorSteps displaced?
    cases hstatus : d.status with
    | unmodified => rfl
    | added =>
        obtain ⟨v, hvalidator, rfl, _⟩ := h.exists_added hstatus
        rw [hvalidator]
        cases d.superseded <;> simp [WeightChange.losses, totalWeight]
    | deleted =>
        cases d.validator <;> simp [WeightChange.losses, totalWeight]
  rw [weightSteps_eq, delegatorSteps, WeightChange.losses_append, WeightChange.losses_append,
    hvalidator, WeightChange.losses_increases, WeightChange.losses_decreases, departures,
    totalWeight_append, Int.zero_add]

theorem before_of_displaced? (h : d.Nets before after were are) {v : Staker}
    (hv : d.displaced? = some v) : before = some v := by
  unfold displaced? at hv
  cases hstatus : d.status with
  | unmodified =>
      rw [hstatus] at hv
      cases hv
  | added =>
      rw [hstatus] at hv
      exact (h.added hstatus).2.2.symm.trans hv
  | deleted =>
      rw [hstatus] at hv
      exact (h.deleted hstatus).1.symm.trans hv

end Nets

end SlotDiff

/-! ## All slots -/

/-- No stakers of one slot weigh more together than a word holds. -/
def Bearable (members : Set Staker) : Prop :=
  ∀ (l : List Staker) (slot : Slot), l.Nodup → (∀ t ∈ l, t ∈ members ∧ t.slot = slot) →
    totalWeight l < UInt64.size

theorem Bearable.mono {members members' : Set Staker} (h : Bearable members)
    (hsub : members' ⊆ members) : Bearable members' :=
  fun l slot hnodup hl => h l slot hnodup fun t ht => ⟨hsub (hl t ht).1, (hl t ht).2⟩

/-- Stakers are bearable if in a list of them every slot is. -/
theorem bearable_of_slotWeight {held : List Staker} {members : Set Staker}
    (hmem : ∀ t ∈ members, t ∈ held) (h : ∀ slot, slotWeight held slot < UInt64.size) :
    Bearable members := by
  intro l slot hnodup hl
  have hle : totalWeight l ≤ totalWeight (inSlot held slot) :=
    totalWeight_le_of_subset hnodup fun t ht =>
      mem_inSlot.mpr ⟨hmem t (hl t ht).1, (hl t ht).2⟩
  rw [← slotWeight_eq] at hle
  have hslot := h slot
  omega

namespace SlotDiffs.Net

variable {diffs : SlotDiffs} {were are : Set Staker} {slot : Slot} {t : Staker}

theorem mem_departures (h : diffs.Net were are) (ht : t ∈ (diffs.recorded slot).departures) :
    t ∈ were ∧ t.slot = slot := by
  have hnets := h.nets slot
  rcases List.mem_append.mp ht with ht | ht
  · obtain ⟨hmem, _, hslot⟩ :=
      spec_of_occupant (hnets.before_of_displaced? (Option.mem_toList.mp ht))
    exact ⟨hmem, hslot⟩
  · have hgone := (hnets.deletedDelegators.mem_values.mp ht).1
    exact ⟨hgone.1, hgone.2.2⟩

theorem nodup_departures (h : diffs.Net were are) : (diffs.recorded slot).departures.Nodup := by
  have hnets := h.nets slot
  refine List.nodup_append.mpr ⟨?_, hnets.deletedDelegators.enumerates.nodup, ?_⟩
  · cases (diffs.recorded slot).displaced? <;> simp
  · rintro v hv t ht rfl
    obtain ⟨_, hvalidator, _⟩ :=
      spec_of_occupant (hnets.before_of_displaced? (Option.mem_toList.mp hv))
    have hd := (hnets.deletedDelegators.mem_values.mp ht).1.2.1
    rw [hvalidator] at hd
    cases hd

/-- The change of every slot can be added up where the slots were bearable and are. -/
theorem exists_weightChange (h : diffs.Net were are) (hone : OneValidatorPerSlot are)
    (hwere : Bearable were) (hare : Bearable are) (slot : Slot) :
    ∃ change, (diffs.recorded slot).weightChange = .ok change := by
  have hnets := h.nets slot
  have hgains := hare (diffs.recorded slot).arrivals slot (h.nodup_arrivals hone) fun t ht => by
    obtain ⟨hin, hslot⟩ := (h.mem_arrivals hone).mp ht
    exact ⟨hin.1, hslot⟩
  have hlosses := hwere (diffs.recorded slot).departures slot h.nodup_departures
    fun t ht => h.mem_departures ht
  rw [← hnets.gains_weightSteps] at hgains
  rw [← hnets.losses_weightSteps] at hlosses
  have hzero : WeightChange.zero.toInt = 0 := rfl
  apply WeightChange.exists_addAll
  · omega
  · omega

/-- The history of a change can be written if the slots are bearable and the stakers before have byte
forms. -/
theorem exists_historyWrites_of_bearable (h : diffs.Net were are) (hone : OneValidatorPerSlot are)
    (hwere : Bearable were) (hare : Bearable are) (hfits : ∀ t ∈ were, Codec.fits t = true)
    (height : UInt64) : ∃ history, diffs.historyWrites height = .ok history := by
  rw [exists_historyWrites_iff]
  intro slot
  obtain ⟨change, hchange⟩ := h.exists_weightChange hone hwere hare slot
  have hkey : (diffs.recorded slot).previousKey?.all Codec.fits = true := by
    rw [(h.nets slot).previousKey?]
    split
    · rfl
    · cases hbefore : occupant were slot with
      | none => rfl
      | some v => exact Staker.fits_iff.mp (hfits v (mem_of_occupant hbefore))
  refine ⟨_, bind_eq_ok_iff.mpr ⟨change, hchange, bind_eq_ok_iff.mpr ⟨(), ?_, rfl⟩⟩⟩
  rw [requireEncodable, if_pos hkey]

end SlotDiffs.Net

end StakingLedger
