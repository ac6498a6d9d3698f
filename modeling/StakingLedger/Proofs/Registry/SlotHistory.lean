import StakingLedger.Proofs.Registry.NetChange

/-! # What a slot diff says of a history

Since the last flush the validator and the delegators of a slot were put and
deleted, in any order that keeps to the contract. The diff that recorded it all
says only how the slot differs now. What was cancelled or restored on the way
leaves no trace, and a validator that was replaced is remembered.
-/

namespace StakingLedger

/-- One change to a slot. -/
inductive SlotChange where
  | putValidator (s : Staker)
  | deleteValidator (s : Staker)
  | putDelegator (s : Staker)
  | deleteDelegator (s : Staker)

namespace SlotDiff

def record (d : SlotDiff) : SlotChange → SlotDiff
  | .putValidator s => d.putValidator s
  | .deleteValidator s => d.deleteValidator s
  | .putDelegator s => d.putDelegator s
  | .deleteDelegator s => d.deleteDelegator s

/-- Records changes one after the other. -/
def recordAll (d : SlotDiff) (changes : List SlotChange) : SlotDiff := changes.foldl record d

end SlotDiff

/-- Who is in a slot. -/
structure SlotContent where
  validator : Option Staker
  delegators : Set Staker

namespace SlotContent

def change (content : SlotContent) : SlotChange → SlotContent
  | .putValidator s => { content with validator := some s }
  | .deleteValidator _ => { content with validator := none }
  | .putDelegator s => { content with delegators := insert s content.delegators }
  | .deleteDelegator s => { content with delegators := content.delegators \ {s} }

/-- The contract of a change: a validator comes into a free slot, an absent delegator is put, and
who is deleted is there. -/
def Allows (records : Set Staker) (content : SlotContent) : SlotChange → Prop
  | .putValidator _ => content.validator = none
  | .deleteValidator s => content.validator = some s
  | .putDelegator s => s ∈ records ∧ s ∉ content.delegators
  | .deleteDelegator s => s ∈ content.delegators

/-- Changes that keep to the contract lead from one content of a slot to another one. -/
inductive Leads (records : Set Staker) : SlotContent → List SlotChange → SlotContent → Prop
  | refl (content : SlotContent) : Leads records content [] content
  | step {content after : SlotContent} {change : SlotChange} {rest : List SlotChange}
    (hallowed : content.Allows records change)
    (h : Leads records (content.change change) rest after) :
    Leads records content (change :: rest) after

end SlotContent

/-- The diff says exactly how a slot differs between two contents. -/
structure SlotDiff.Distinguishes (d : SlotDiff) (before after : SlotContent) : Prop where
  addedDelegators : d.addedDelegators.Indexes Staker.key (after.delegators \ before.delegators)
  deletedDelegators :
    d.deletedDelegators.Indexes Staker.txId (before.delegators \ after.delegators)
  deleted_iff : d.status = .deleted ↔ before.validator.isSome = true ∧ after.validator = none
  deleted : d.status = .deleted → d.validator = before.validator ∧ d.superseded = none
  added : d.status = .added → d.validator = after.validator ∧ d.superseded = before.validator
  unmodified : d.status = .unmodified → after.validator = before.validator
  eq_of_isEmpty : d.isEmpty = true → after = before

namespace SlotDiff

variable {d : SlotDiff} {records : Set Staker} {before now after : SlotContent}
  {changes : List SlotChange}

/-- The record of the changes since a content. -/
def NetsContent (d : SlotDiff) (before now : SlotContent) : Prop :=
  d.Nets before.validator now.validator before.delegators now.delegators

namespace NetsContent

/-- One more change that keeps to the contract. -/
theorem record (h : d.NetsContent before now) (hrecords : records.InjOn Staker.txId)
    (hbefore : before.delegators ⊆ records) (hnow : now.delegators ⊆ records)
    {change : SlotChange} (hallowed : now.Allows records change) :
    (d.record change).NetsContent before (now.change change) := by
  have htx : ∀ s ∈ records, ∀ t ∈ before.delegators ∪ now.delegators, t.txId = s.txId → t = s :=
    fun s hs t ht heq => hrecords (ht.elim (fun h => hbefore h) fun h => hnow h) hs heq
  unfold NetsContent at h
  cases change with
  | putValidator s =>
      rw [show now.validator = none from hallowed] at h
      exact h.putValidator s
  | deleteValidator s =>
      rw [show now.validator = some s from hallowed] at h
      exact h.deleteValidator
  | putDelegator s => exact h.putDelegator (htx s hallowed.1) hallowed.2
  | deleteDelegator s => exact h.deleteDelegator (htx s (hnow hallowed)) hallowed

/-- A whole history that keeps to the contract. -/
theorem recordAll (hleads : now.Leads records changes after)
    (hrecords : records.InjOn Staker.txId) (hbefore : before.delegators ⊆ records)
    (h : d.NetsContent before now) (hnow : now.delegators ⊆ records) :
    (d.recordAll changes).NetsContent before after := by
  induction hleads generalizing d with
  | refl => exact h
  | @step now after change rest hallowed _ ih =>
      refine ih (h.record hrecords hbefore hnow hallowed) ?_
      cases change with
      | putValidator => exact hnow
      | deleteValidator => exact hnow
      | putDelegator s => exact Set.insert_subset hallowed.1 hnow
      | deleteDelegator s => exact fun t ht => hnow ht.1

theorem distinguishes (h : d.NetsContent before after) : d.Distinguishes before after where
  addedDelegators := h.addedDelegators
  deletedDelegators := h.deletedDelegators
  deleted_iff := by
    constructor
    · exact fun hstatus => ⟨(h.deleted hstatus).2.1, (h.deleted hstatus).2.2.2⟩
    · rintro ⟨hsome, hnone⟩
      cases hstatus : d.status with
      | unmodified =>
          rw [← (h.unmodified hstatus).2.2, hnone] at hsome
          cases hsome
      | added =>
          have hthere := (h.added hstatus).2.1
          rw [hnone] at hthere
          cases hthere
      | deleted => rfl
  deleted hstatus := ⟨(h.deleted hstatus).1, (h.deleted hstatus).2.2.1⟩
  added hstatus := ⟨(h.added hstatus).1, (h.added hstatus).2.2⟩
  unmodified hstatus := (h.unmodified hstatus).2.2
  eq_of_isEmpty hempty := by
    obtain ⟨_, hvalidator, hdelegators⟩ := h.eq_default_of_isEmpty hempty
    cases before
    cases after
    exact congr (congrArg SlotContent.mk hvalidator) hdelegators

end NetsContent

/-- Whatever was put and deleted in a slot, the diff says the net change. -/
theorem recordAll_distinguishes (hrecords : records.InjOn Staker.txId)
    (hbefore : before.delegators ⊆ records) (hleads : before.Leads records changes after) :
    (({} : SlotDiff).recordAll changes).Distinguishes before after :=
  (NetsContent.recordAll hleads hrecords hbefore (Nets.refl _ _) hbefore).distinguishes

/-- A validator or a delegator of some slot. -/
def slotStaker (word : UInt64) (priority : Priority) : Staker :=
  { (default : Staker) with txId := .ofWord word, priority := priority }

theorem recordAll_distinguishes_turnover :
    let v := slotStaker 1 .primaryNetworkValidatorCurrent
    let w := slotStaker 2 .primaryNetworkValidatorCurrent
    let a := slotStaker 3 .primaryNetworkDelegatorCurrent
    let b := slotStaker 4 .primaryNetworkDelegatorCurrent
    let changes : List SlotChange :=
      [.deleteDelegator a, .deleteValidator v, .putDelegator b, .putValidator w, .putDelegator a,
        .deleteDelegator b, .deleteValidator w]
    ({a, b} : Set Staker).InjOn Staker.txId ∧
      ∃ after, (⟨some v, {a}⟩ : SlotContent).Leads {a, b} changes after ∧
        (({} : SlotDiff).recordAll changes).Distinguishes ⟨some v, {a}⟩ after ∧
        ({} : SlotDiff).recordAll changes = { status := .deleted, validator := some v } := by
  intro v w a b changes
  have hab : a ≠ b := by decide +kernel
  have hrecords : ({a, b} : Set Staker).InjOn Staker.txId := by
    rintro s (rfl | rfl) t (rfl | rfl) htx
    · rfl
    · exact absurd htx (by decide +kernel)
    · exact absurd htx (by decide +kernel)
    · rfl
  have hleads : (⟨some v, {a}⟩ : SlotContent).Leads {a, b} changes _ :=
    .step (Set.mem_singleton a) <| .step rfl <|
      .step ⟨Or.inr rfl, fun hb => hab hb.1.symm⟩ <| .step rfl <|
      .step ⟨Or.inl rfl, by rintro (heq | ha); exacts [hab heq, ha.2 rfl]⟩ <|
      .step (Or.inr (Or.inl rfl)) <| .step rfl <| .refl _
  exact ⟨hrecords, _, hleads,
    recordAll_distinguishes hrecords (Set.singleton_subset_iff.mpr (Or.inl rfl)) hleads,
    by decide +kernel⟩

end SlotDiff

end StakingLedger
