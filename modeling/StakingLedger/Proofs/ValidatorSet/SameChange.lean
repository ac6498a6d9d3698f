import StakingLedger.Proofs.Store.ChangeScan
import StakingLedger.Proofs.ValidatorSet.Changes

/-! # Diffs of the same change

Two diffs of the same change need not be equal: a validator that was deleted and
added again is on record as superseded, one that was left alone is not. What is
written of them is the same all the same, and one can be written if the other
can.
-/

namespace StakingLedger

open OrderedMap

/-! ## Sums of signed changes -/

namespace WeightChange

variable {c d r : WeightChange} {decrease : Bool} {amount : UInt64} {steps : List WeightChange}

theorem natAbs_toInt (c : WeightChange) : c.toInt.natAbs = c.amount.toNat := by
  unfold toInt
  split <;> simp

theorem isZero_iff : c.isZero = true ↔ c.toInt = 0 := by
  rw [isZero, beq_iff_eq, ← UInt64.toNat_inj, ← Int.natAbs_eq_zero, natAbs_toInt]
  rfl

/-- Only zero has two forms. -/
theorem eq_of_toInt (h : c.toInt = d.toInt) (hc : c.isZero = false) : c = d := by
  have hnonzero : c.toInt ≠ 0 := by
    intro hzero
    rw [isZero_iff.mpr hzero] at hc
    cases hc
  have hamount : c.amount.toNat = d.amount.toNat := by rw [← natAbs_toInt, h, natAbs_toInt]
  have hdecrease : c.decrease = d.decrease := by
    unfold toInt at h hnonzero
    rw [hamount] at h hnonzero
    cases hleft : c.decrease <;> cases hright : d.decrease <;> try rfl
    all_goals
      simp only [hleft, hright, if_true, Bool.false_eq_true, if_false] at h hnonzero
      omega
  obtain ⟨decrease, amount⟩ := c
  cases hdecrease
  cases UInt64.toNat_inj.mp hamount
  rfl

/-- What is recorded of a change depends on the number only. -/
theorem record_eq_of_toInt {α : Type} {record : WeightChange → α} (h : c.toInt = d.toInt) :
    (if c.isZero then none else some (record c)) = if d.isZero then none else some (record d) := by
  have hzero : c.isZero = d.isZero := by rw [Bool.eq_iff_iff, isZero_iff, isZero_iff, h]
  rw [← hzero]
  cases hc : c.isZero with
  | true => rfl
  | false => rw [eq_of_toInt h hc]

/-- A sum is refused only if it does not fit in a word. -/
theorem exists_add_iff :
    (∃ r, c.add decrease amount = .ok r) ↔
      (c.toInt + toInt ⟨decrease, amount⟩).natAbs < UInt64.size := by
  have hc := c.amount.toNat_lt_size
  have hamount := amount.toNat_lt_size
  unfold add toInt
  dsimp only
  split
  next hsame =>
    have hsum : ((if c.decrease then -(c.amount.toNat : Int) else c.amount.toNat) +
        if decrease then -(amount.toNat : Int) else amount.toNat).natAbs =
          c.amount.toNat + amount.toNat := by
      rw [hsame]
      split <;> omega
    rw [hsum]
    split
    next hfits => exact iff_of_true ⟨_, rfl⟩ hfits
    next hlarge => exact iff_of_false (fun ⟨_, h⟩ => nomatch h) hlarge
  next hother =>
    -- Opposite changes have a sum that is no larger than either of them.
    have hsum : ((if c.decrease then -(c.amount.toNat : Int) else c.amount.toNat) +
        if decrease then -(amount.toNat : Int) else amount.toNat).natAbs < UInt64.size := by
      cases hdecrease : c.decrease <;> cases decrease <;> simp_all <;> omega
    split
    · exact iff_of_true ⟨_, rfl⟩ hsum
    · exact iff_of_true ⟨_, rfl⟩ hsum

/-- Whether a series can be added depends on the number only from which it starts. -/
theorem exists_addAll_of_toInt (hstart : c.toInt = d.toInt) (h : c.addAll steps = .ok r) :
    ∃ r', d.addAll steps = .ok r' ∧ r'.toInt = r.toInt := by
  induction steps generalizing c d with
  | nil =>
      cases h
      exact ⟨d, rfl, hstart.symm⟩
  | cons step rest ih =>
      obtain ⟨next, hnext, hrest⟩ := bind_eq_ok_iff.mp h
      have hfits := exists_add_iff.mp ⟨next, hnext⟩
      rw [hstart] at hfits
      obtain ⟨next', hnext'⟩ := exists_add_iff.mpr hfits
      have hsame : next.toInt = next'.toInt := by rw [toInt_add hnext, toInt_add hnext', hstart]
      obtain ⟨r', hr', hvalue⟩ := ih hsame hrest
      exact ⟨r', bind_eq_ok_iff.mpr ⟨next', hnext', hr'⟩, hvalue⟩

theorem addAll_append (c : WeightChange) (first second : List WeightChange) :
    c.addAll (first ++ second) = (c.addAll first).bind fun r => r.addAll second :=
  List.foldlM_append

end WeightChange

/-! ## One slot -/

namespace SlotDiff

/-- The changes of the validator alone can always be added: it leaves and comes once at most. -/
theorem exists_validatorSteps (d : SlotDiff) :
    ∃ r, WeightChange.zero.addAll d.validatorSteps = .ok r := by
  have hadds : ∀ (c : WeightChange) (decrease : Bool) (amount : UInt64),
      (c.toInt + WeightChange.toInt ⟨decrease, amount⟩).natAbs < UInt64.size →
        ∃ r, c.addAll [⟨decrease, amount⟩] = .ok r := by
    intro c decrease amount hfits
    obtain ⟨r, hr⟩ := WeightChange.exists_add_iff.mpr hfits
    exact ⟨r, bind_eq_ok_iff.mpr ⟨r, hr, rfl⟩⟩
  have hfirst : ∀ (decrease : Bool) (amount : UInt64),
      (WeightChange.zero.toInt + WeightChange.toInt ⟨decrease, amount⟩).natAbs < UInt64.size := by
    intro decrease amount
    have hzero : WeightChange.zero.toInt = 0 := rfl
    rw [hzero, Int.zero_add, WeightChange.natAbs_toInt]
    exact amount.toNat_lt_size
  unfold validatorSteps
  split
  next v _ _ =>
    cases d.superseded with
    | none => exact hadds _ _ _ (hfirst _ _)
    | some old =>
        obtain ⟨r, hr⟩ := hadds _ true old.weight (hfirst _ _)
        have hvalue : r.toInt = -(old.weight.toNat : Int) := by
          rw [WeightChange.toInt_addAll hr]
          simp [WeightChange.toInt, WeightChange.zero]
        have hsecond : (r.toInt + WeightChange.toInt ⟨false, v.weight⟩).natAbs < UInt64.size := by
          have hold := old.weight.toNat_lt_size
          have hnew := v.weight.toNat_lt_size
          have hplus : WeightChange.toInt ⟨false, v.weight⟩ = v.weight.toNat := rfl
          omega
        obtain ⟨r', hr'⟩ := hadds r false v.weight hsecond
        refine ⟨r', (WeightChange.addAll_append _ [⟨true, old.weight⟩] [⟨false, v.weight⟩]).trans ?_⟩
        rw [hr]
        exact hr'
  next => exact hadds _ _ _ (hfirst _ _)
  next => exact ⟨.zero, rfl⟩

namespace Nets

variable {d d' : SlotDiff} {before after : Option Staker} {were are : Set Staker}
  {height : UInt64} {slot : Slot} {writes : List (Bytes × Bytes)}

theorem delegatorSteps_eq (h : d.Nets before after were are) (h' : d'.Nets before after were are) :
    d.delegatorSteps = d'.delegatorSteps := by
  have hadded := h.addedDelegators.enumerates.unique h'.addedDelegators.enumerates
  have hdeleted := h.deletedDelegators.enumerates.unique h'.deletedDelegators.enumerates
  rw [delegatorSteps, delegatorSteps, hadded, hdeleted]

/-- The change of weight comes to the same number, if it can be added up at all. -/
theorem exists_weightChange (h : d.Nets before after were are)
    (h' : d'.Nets before after were are) {r : WeightChange} (hr : d.weightChange = .ok r) :
    ∃ r', d'.weightChange = .ok r' ∧ r'.toInt = r.toInt := by
  obtain ⟨start, hstart⟩ := d.exists_validatorSteps
  obtain ⟨start', hstart'⟩ := d'.exists_validatorSteps
  have hsame : start.toInt = start'.toInt := by
    rw [WeightChange.toInt_addAll hstart, WeightChange.toInt_addAll hstart', h.sum_validatorSteps,
      h'.sum_validatorSteps]
  rw [weightChange, weightSteps_eq, WeightChange.addAll_append, hstart, h.delegatorSteps_eq h'] at hr
  rw [weightChange, weightSteps_eq, WeightChange.addAll_append, hstart']
  exact WeightChange.exists_addAll_of_toInt hsame hr

/-- The history entries are the same, if there can be any. -/
theorem historyWrites (h : d.Nets before after were are) (h' : d'.Nets before after were are)
    (hwrites : d.historyWrites height slot = .ok writes) :
    d'.historyWrites height slot = .ok writes := by
  obtain ⟨change, hchange, hrest⟩ := bind_eq_ok_iff.mp hwrites
  obtain ⟨change', hchange', hsame⟩ := h.exists_weightChange h' hchange
  have hkey : d.previousKey? = d'.previousKey? := by rw [h.previousKey?, h'.previousKey?]
  refine bind_eq_ok_iff.mpr ⟨change', hchange', ?_⟩
  rw [← hkey]
  cases hzero : change.isZero with
  | true =>
      have hzero' : change'.isZero = true := by
        rw [WeightChange.isZero_iff, hsame, ← WeightChange.isZero_iff, hzero]
      rw [hzero] at hrest
      rwa [hzero']
  | false =>
      rw [← WeightChange.eq_of_toInt hsame.symm hzero]
      exact hrest

end Nets

theorem encodable_of_adds {d : SlotDiff} (h : ∀ s, d.Adds s → Codec.fits s = true) :
    d.encodable = true := by
  refine Bool.and_eq_true_iff.mpr ⟨?_, List.all_eq_true.mpr fun s hs => h s (Or.inr hs)⟩
  cases hstatus : d.status <;> cases hvalidator : d.validator <;> try rfl
  exact h _ (Or.inl ⟨hstatus, hvalidator⟩)

end SlotDiff

/-! ## All slots -/

namespace SlotDiffs

variable {diffs diffs' : SlotDiffs} {height : UInt64} {history history' : List (Bytes × Bytes)}
  {were are : Set Staker}

/-- The history can be written if that of every slot can. -/
theorem exists_historyWrites_iff :
    (∃ history, diffs.historyWrites height = .ok history) ↔
      ∀ slot, ∃ writes, (diffs.recorded slot).historyWrites height slot = .ok writes := by
  constructor
  · rintro ⟨history, h⟩ slot
    cases hget : diffs.get? slot with
    | none => exact ⟨[], by rw [recorded, hget]; rfl⟩
    | some d =>
        rw [recorded, hget]
        exact exists_historyWrites h hget
  · intro h
    obtain ⟨parts, hparts⟩ := exists_mapM_eq_ok (l := diffs.entries)
      (f := fun e : Slot × SlotDiff => SlotDiff.historyWrites height e.1 e.2) fun e he => by
        obtain ⟨writes, hwrites⟩ := h e.1
        rw [recorded, OrderedMap.get?_eq_some_iff.mpr he] at hwrites
        exact ⟨writes, hwrites⟩
    exact ⟨parts.flatten, bind_eq_ok_iff.mpr ⟨parts, hparts, rfl⟩⟩

namespace Net

theorem exists_historyWrites (h : diffs.Net were are) (h' : diffs'.Net were are)
    (hhistory : diffs.historyWrites height = .ok history) :
    ∃ history', diffs'.historyWrites height = .ok history' := by
  rw [exists_historyWrites_iff]
  intro slot
  obtain ⟨writes, hwrites⟩ := exists_historyWrites_iff.mp ⟨history, hhistory⟩ slot
  exact ⟨writes, (h.nets slot).historyWrites (h'.nets slot) hwrites⟩

/-- What a key has in the history does not depend on the diffs. -/
theorem lastValue?_historyWrites (h : diffs.Net were are) (h' : diffs'.Net were are)
    (hhistory : diffs.historyWrites height = .ok history)
    (hhistory' : diffs'.historyWrites height = .ok history') (key : Bytes) :
    lastValue? history key = lastValue? history' key := by
  by_cases hchange : ∃ slot, key = changeKey .weightChange slot height ∨
      key = changeKey .publicKeyChange slot height
  · obtain ⟨slot, rfl | rfl⟩ := hchange
    · obtain ⟨change, hadds, hvalue⟩ := lastValue?_weightChange hhistory slot
      obtain ⟨change', hadds', hvalue'⟩ := lastValue?_weightChange hhistory' slot
      obtain ⟨_, hsame, hnumber⟩ := (h.nets slot).exists_weightChange (h'.nets slot) hadds
      rw [hadds'] at hsame
      cases hsame
      rw [hvalue, hvalue', WeightChange.record_eq_of_toInt hnumber]
    · rw [lastValue?_publicKeyChange hhistory, lastValue?_publicKeyChange hhistory',
        (h.nets slot).previousKey?, (h'.nets slot).previousKey?]
  · -- Any other key is not one of the history.
    have hnone : ∀ {diffs : SlotDiffs} {history : List (Bytes × Bytes)},
        diffs.historyWrites height = .ok history → lastValue? history key = none := by
      intro diffs history hhistory
      apply lastValue?_eq_none_iff.mpr
      intro v hmem
      obtain ⟨slot, _, _, _, hwrites, he⟩ := (mem_historyWrites_iff hhistory).mp hmem
      exact hchange ⟨slot, SlotDiff.key_of_mem_historyWrites hwrites he⟩
    rw [hnone hhistory, hnone hhistory']

/-- The stakers to be added have byte forms if all stakers have them afterwards. -/
theorem encodable_iff (h : diffs.Net were are) (hone : OneValidatorPerSlot are)
    (hwere : ∀ t ∈ were, Codec.fits t = true) :
    diffs.encodable = true ↔ ∀ t ∈ are, Codec.fits t = true := by
  constructor
  · exact fun hencodable => h.fits hone hencodable hwere
  · intro hfits
    apply List.all_eq_true.mpr
    intro d hd
    obtain ⟨slot, hget⟩ := OrderedMap.mem_values_iff.mp hd
    exact SlotDiff.encodable_of_adds fun s hs => hfits s (h.mem_of_adds hget hs)

end Net

end SlotDiffs

end StakingLedger
