import StakingLedger.Proofs.Registry.Representation
import StakingLedger.Proofs.Registry.SlotTurnover
import StakingLedger.Proofs.Registry.TieredOverlay

/-! # The flat indexes of a layer

A layer books every change twice: in the diff of its slot, and in the flat indexes of additions and
deletions. Lookups read the one side, walks over the whole set the other. As long as the calls keep
to the contract of the combined view the two sides name the same stakers, whichever roles these
have.
-/

namespace StakingLedger

/-! ## Sets that differ in one member -/

namespace OrderedMap.Indexes

variable {α β : Type} [Ord α] {m : OrderedMap α β} {key : β → α} {members members' : Set β} {b : β}

theorem congr_member (h : m.Indexes key members) (hb : b ∈ members' ↔ b ∈ members)
    (hothers : ∀ c, c ≠ b → (c ∈ members' ↔ c ∈ members)) : m.Indexes key members' := by
  refine h.congr fun c => ?_
  by_cases heq : c = b
  · rw [heq, hb]
  · exact (hothers c heq).symm

theorem erase_member [Std.LawfulEqOrd α] (h : m.Indexes key members) (hb : b ∈ members)
    (hb' : b ∉ members') (hothers : ∀ c, c ≠ b → (c ∈ members' ↔ c ∈ members)) :
    (m.erase (key b)).Indexes key members' :=
  (h.erase hb).congr_member (iff_of_false hb' fun hmem => hmem.2 rfl) fun c hne =>
    (hothers c hne).trans ⟨fun hc => ⟨hc, hne⟩, And.left⟩

theorem insert_member [Std.TransOrd α] [Std.LawfulEqOrd α] (h : m.Indexes key members)
    (hfresh : ∀ c ∈ members, key c = key b → c = b) (hb' : b ∈ members')
    (hothers : ∀ c, c ≠ b → (c ∈ members' ↔ c ∈ members)) :
    (m.insert (key b) b).Indexes key members' :=
  (h.insert hfresh).congr_member (iff_of_true hb' (Or.inl rfl)) fun c hne =>
    (hothers c hne).trans (or_iff_right hne).symm

end OrderedMap.Indexes

/-! ## The two sides of the books -/

namespace SlotDiffs

/-- Whom the diffs add, each in its own slot. -/
def additions (diffs : SlotDiffs) : Set Staker := {s | (diffs.recorded s.slot).Adds s}

/-- Whom the diffs take away, each in its own slot. -/
def removals (diffs : SlotDiffs) : Set Staker := {s | (diffs.recorded s.slot).Removes s}

end SlotDiffs

namespace RegistryOverlay

/-- The diffs of the overlay say how every slot went from one content to another, none of them says
nothing, and the flat indexes are theirs. -/
structure Accounts (o : RegistryOverlay) (before now : Slot → SlotContent) : Prop where
  nets : ∀ slot, (o.diffs.recorded slot).NetsContent (before slot) (now slot)
  telling : ∀ slot d, o.diffs.get? slot = some d → d.isEmpty = false
  added : o.added.Indexes Staker.key o.diffs.additions
  deleted : o.deleted.Indexes Staker.txId o.diffs.removals

/-- The contents of all slots after a change. -/
def changed (now : Slot → SlotContent) (c : SlotChange) : Slot → SlotContent := fun slot =>
  if slot = c.staker.slot then (now slot).change c else now slot

/-- Every change alters the record of its own slot, and drops it if it says nothing any more; a slot
that is marked as added does not come to that. -/
theorem diffs_change (o : RegistryOverlay) (c : SlotChange) :
    (o.change c).diffs = o.diffs.updatePruned c.staker.slot (·.record c) := by
  cases c with
  | putValidator s =>
      have hkept : ¬ ((o.diffs.recorded s.slot).record (.putValidator s)).isEmpty = true := nofun
      unfold SlotDiffs.updatePruned
      dsimp only [SlotChange.staker]
      rw [if_neg hkept]
      rfl
  | deleteValidator s => rfl
  | putDelegator s => exact o.diffs_putDelegator s
  | deleteDelegator s => rfl

/-! ## Indexes of sets that differ in one staker -/

section OneStaker

variable {o : RegistryOverlay} {came came' went went' : Set Staker} {s : Staker}
  (hadded : o.added.Indexes Staker.key came) (hdeleted : o.deleted.Indexes Staker.txId went)
  (hcame : ∀ t, t ≠ s → (t ∈ came' ↔ t ∈ came)) (hwent : ∀ t, t ≠ s → (t ∈ went' ↔ t ∈ went))

include hadded hdeleted hcame hwent

/-- A validator in a free slot is added, and nobody is taken away. -/
theorem putValidator_indexes (hreplaced : (o.diffs.recorded s.slot).replaced? = none)
    (hfresh : ∀ t ∈ came, t.key = s.key → t = s) (hnew : s ∈ came') (hgone : s ∈ went' ↔ s ∈ went) :
    (o.putValidator s).added.Indexes Staker.key came' ∧
      (o.putValidator s).deleted.Indexes Staker.txId went' := by
  rw [putValidator, hreplaced]
  exact ⟨hadded.insert_member hfresh hnew hcame, hdeleted.congr_member hgone hwent⟩

/-- A delegator that was there before is taken back, and any other one is added. -/
theorem putDelegator_indexes {was : Prop}
    (hrestores : (o.diffs.recorded s.slot).restoresDelegator s = true ↔ was)
    (hfresh : ∀ t ∈ came, t.key = s.key → t = s) (habsent : s ∉ came) (hhidden : was → s ∈ went)
    (hnew : s ∈ came' ↔ ¬ was) (hgone : s ∈ went' ↔ s ∈ went ∧ ¬ was) :
    (o.putDelegator s).added.Indexes Staker.key came' ∧
      (o.putDelegator s).deleted.Indexes Staker.txId went' := by
  unfold putDelegator
  dsimp only
  split
  next hrestored =>
    have hwas := hrestores.mp hrestored
    exact ⟨hadded.congr_member (iff_of_false (fun hin => hnew.mp hin hwas) habsent) hcame,
      hdeleted.erase_member (hhidden hwas) (fun hin => (hgone.mp hin).2 hwas) hwent⟩
  next hother =>
    have hwas := mt hrestores.mpr hother
    exact ⟨hadded.insert_member hfresh (hnew.mpr hwas) hcame,
      hdeleted.congr_member (hgone.trans (and_iff_left hwas)) hwent⟩

/-- A staker that is dropped is taken away unless it was added. -/
theorem forget_indexes (hcontains : o.added.contains s.key = true ↔ s ∈ came)
    (hfresh : ∀ t ∈ went, t.txId = s.txId → t = s) (hnot : s ∉ came')
    (hgone : s ∈ went' ↔ s ∈ went ∨ s ∉ came) :
    (o.forget s).added.Indexes Staker.key came' ∧
      (o.forget s).deleted.Indexes Staker.txId went' := by
  unfold forget
  split
  next hwas =>
    have hmem := hcontains.mp hwas
    refine ⟨hadded.erase_member hmem hnot hcame, hdeleted.congr_member ?_ hwent⟩
    rw [hgone]
    exact or_iff_left fun hnew => hnew hmem
  next hkept =>
    have hnew := mt hcontains.mpr hkept
    exact ⟨hadded.congr_member (iff_of_false hnot hnew) hcame,
      hdeleted.insert_member hfresh (hgone.mpr (Or.inr hnew)) hwent⟩

end OneStaker

namespace Accounts

variable {o : RegistryOverlay} {records : Set Staker} {before now : Slot → SlotContent}
  {c : SlotChange} {s t : Staker}

theorem refl (now : Slot → SlotContent) : Accounts {} now now where
  nets slot := SlotDiff.Nets.refl _ _
  telling _ _ hget := by cases hget
  added := OrderedMap.Indexes.empty.congr fun s => by
    simp [SlotDiffs.additions, SlotDiffs.recorded, SlotDiff.Adds, OrderedMap.mem_values_iff]
  deleted := OrderedMap.Indexes.empty.congr fun s => by
    simp [SlotDiffs.removals, SlotDiffs.recorded, SlotDiff.Removes, OrderedMap.mem_values_iff]

theorem has_of_mem_additions (h : o.Accounts before now) (ht : t ∈ o.diffs.additions) :
    (now t.slot).Has t :=
  (h.nets t.slot).has_of_adds ht

theorem has_of_mem_removals (h : o.Accounts before now) (ht : t ∈ o.diffs.removals) :
    (before t.slot).Has t :=
  (h.nets t.slot).has_of_removes ht

/-! ## One more call -/

theorem telling_change (h : o.Accounts before now) (c : SlotChange) :
    ∀ slot d, (o.change c).diffs.get? slot = some d → d.isEmpty = false := by
  intro slot d hget
  rw [diffs_change] at hget
  exact SlotDiffs.forall_updatePruned h.telling id hget

section OneSlot

variable (hslot : ((o.diffs.recorded c.staker.slot).record c).NetsContent (before c.staker.slot)
  ((now c.staker.slot).change c))

include hslot

/-- A change alters the record of its own slot alone. -/
theorem recorded_change (slot : Slot) :
    (o.change c).diffs.recorded slot =
      if slot = c.staker.slot then (o.diffs.recorded c.staker.slot).record c
      else o.diffs.recorded slot := by
  rw [diffs_change]
  exact SlotDiffs.recorded_updatePruned _ _ _
    (fun hempty => (hslot.eq_default_of_isEmpty hempty).1) slot

/-- What a change leaves as it was in its own slot it leaves in every slot. -/
theorem recorded_change_iff (tells : SlotDiff → Prop)
    (hsame : tells ((o.diffs.recorded c.staker.slot).record c) ↔
      tells (o.diffs.recorded c.staker.slot)) (slot : Slot) :
    tells ((o.change c).diffs.recorded slot) ↔ tells (o.diffs.recorded slot) := by
  rw [recorded_change hslot]
  split
  next heq =>
    rw [heq]
    exact hsame
  next => exact Iff.rfl

/-- Nobody but the staker of a change comes into the additions or leaves them. -/
theorem mem_additions_change (h : o.Accounts before now)
    (hadmits : (now c.staker.slot).Admits records c) (hne : t ≠ c.staker) :
    t ∈ (o.change c).diffs.additions ↔ t ∈ o.diffs.additions :=
  recorded_change_iff hslot (·.Adds t) ((h.nets _).adds_record_of_ne hslot hadmits hne) t.slot

theorem mem_removals_change (h : o.Accounts before now)
    (hadmits : (now c.staker.slot).Admits records c) (hne : t ≠ c.staker) :
    t ∈ (o.change c).diffs.removals ↔ t ∈ o.diffs.removals :=
  recorded_change_iff hslot (·.Removes t) ((h.nets _).removes_record_of_ne hslot hadmits hne) t.slot

/-- Of the staker of a change its own slot decides. -/
theorem staker_mem_additions :
    c.staker ∈ (o.change c).diffs.additions ↔
      ((o.diffs.recorded c.staker.slot).record c).Adds c.staker := by
  change ((o.change c).diffs.recorded c.staker.slot).Adds c.staker ↔ _
  rw [recorded_change hslot, if_pos rfl]

theorem staker_mem_removals :
    c.staker ∈ (o.change c).diffs.removals ↔
      ((o.diffs.recorded c.staker.slot).record c).Removes c.staker := by
  change ((o.change c).diffs.recorded c.staker.slot).Removes c.staker ↔ _
  rw [recorded_change hslot, if_pos rfl]

end OneSlot

/-- A slot without a validator has none that a put would replace. -/
theorem replaced?_eq_none (h : o.Accounts before now) {slot : Slot}
    (hfree : (now slot).validator = none) : (o.diffs.recorded slot).replaced? = none := by
  refine if_neg fun hstatus => ?_
  have hsome := ((h.nets slot).added hstatus).2.1
  rw [hfree] at hsome
  cases hsome

section Contract

variable (h : o.Accounts before now) (hrecords : records.InjOn Staker.txId)
  (hbefore : ∀ slot, (before slot).Proper records slot)
  (hnow : ∀ slot, (now slot).Proper records slot)
  (hadmits : (now c.staker.slot).Admits records c)

include h hrecords hbefore hnow hadmits

/-- The record of the slot after a change that keeps to the contract. -/
theorem nets_record :
    ((o.diffs.recorded c.staker.slot).record c).NetsContent (before c.staker.slot)
      ((now c.staker.slot).change c) :=
  (h.nets c.staker.slot).record hrecords (fun s hs => (hbefore _).recorded s (Or.inr hs))
    (fun s hs => (hnow _).recorded s (Or.inr hs)) hadmits.allows

/-- The flat indexes after a change that keeps to the contract. -/
theorem indexes_change :
    (o.change c).added.Indexes Staker.key (o.change c).diffs.additions ∧
      (o.change c).deleted.Indexes Staker.txId (o.change c).diffs.removals := by
  have hslot := h.nets_record hrecords hbefore hnow hadmits
  have hcame := fun t => h.mem_additions_change (t := t) hslot hadmits
  have hwent := fun t => h.mem_removals_change (t := t) hslot hadmits
  have hadds := staker_mem_additions hslot
  have hremoves := staker_mem_removals hslot
  have hstaker := hadmits.staker_mem (hnow _)
  have hfreshAdded : ∀ t ∈ o.diffs.additions, t.key = c.staker.key → t = c.staker := by
    intro t ht hkey
    have hmem := (hnow _).recorded t (h.has_of_mem_additions ht)
    exact hrecords hmem hstaker (Staker.txId_of_key_eq hkey)
  have hfreshDeleted : ∀ t ∈ o.diffs.removals, t.txId = c.staker.txId → t = c.staker := by
    intro t ht htx
    exact hrecords ((hbefore _).recorded t (h.has_of_mem_removals ht)) hstaker htx
  have hcontains : o.added.contains c.staker.key = true ↔ c.staker ∈ o.diffs.additions := by
    rw [h.added.contains_iff]
    constructor
    · rintro ⟨t, ht, hkey⟩
      exact hfreshAdded t ht hkey ▸ ht
    · exact fun hmem => ⟨_, hmem, rfl⟩
  -- Each call changes what comes and goes by its staker alone; the index that has to follow depends
  -- on whether the parent had that staker.
  cases c with
  | putValidator s =>
      refine putValidator_indexes h.added h.deleted hcame hwent ?_ hfreshAdded ?_ ?_
      · exact h.replaced?_eq_none hadmits.2.2
      · exact hadds.mpr (Or.inl ⟨rfl, rfl⟩)
      · exact hremoves.trans ((h.nets _).removes_putValidator hslot hadmits.2.2)
  | deleteValidator s =>
      refine forget_indexes h.added h.deleted hcame hwent hcontains hfreshDeleted ?_ ?_
      · exact mt hadds.mp (SlotDiff.NetsContent.not_adds_deleteValidator hslot hadmits (hnow _))
      · exact hremoves.trans ((h.nets _).removes_deleteValidator hslot hadmits (hnow _))
  | putDelegator s =>
      have hnobody : s ∉ (now s.slot).delegators := fun hmem => hadmits.2 (Or.inr hmem)
      have hrestores := (h.nets s.slot).restoresDelegator_iff
        (fun t ht htx => hrecords ((hbefore _).recorded t (Or.inr ht)) hstaker htx) hnobody
      refine putDelegator_indexes h.added h.deleted hcame hwent hrestores hfreshAdded ?_ ?_ ?_ ?_
      · exact fun hmem => hadmits.2 (h.has_of_mem_additions hmem)
      · exact fun hwas => (h.nets s.slot).removes_iff.mpr (Or.inr ⟨hwas, hnobody⟩)
      · exact hadds.trans (SlotDiff.NetsContent.adds_putDelegator hslot hadmits.2)
      · exact hremoves.trans ((h.nets _).removes_putDelegator hslot (hbefore _))
  | deleteDelegator s =>
      refine forget_indexes h.added h.deleted hcame hwent hcontains hfreshDeleted ?_ ?_
      · exact mt hadds.mp (SlotDiff.NetsContent.not_adds_deleteDelegator hslot hadmits (hnow _))
      · exact hremoves.trans ((h.nets _).removes_deleteDelegator hslot hadmits (hnow _))

theorem change : (o.change c).Accounts before (changed now c) := by
  have hslot := h.nets_record hrecords hbefore hnow hadmits
  obtain ⟨hadded, hdeleted⟩ := h.indexes_change hrecords hbefore hnow hadmits
  refine ⟨fun slot => ?_, h.telling_change c, hadded, hdeleted⟩
  rw [recorded_change hslot, changed]
  split
  next hsame =>
    rw [hsame]
    exact hslot
  next => exact h.nets slot

end Contract

/-! ## What the accounts come to -/

/-- Who is moved in some slot is moved in its own. -/
theorem exists_get?_iff {P : SlotDiff → Staker → Prop} (hfresh : ¬ P {} t)
    (hplace : ∀ slot, P (o.diffs.recorded slot) t → t.slot = slot) :
    P (o.diffs.recorded t.slot) t ↔ ∃ slot d, o.diffs.get? slot = some d ∧ P d t := by
  constructor
  · intro hmoves
    cases hget : o.diffs.get? t.slot with
    | none =>
        rw [SlotDiffs.recorded, hget] at hmoves
        exact absurd hmoves hfresh
    | some d =>
        rw [SlotDiffs.recorded, hget] at hmoves
        exact ⟨_, d, hget, hmoves⟩
  · rintro ⟨slot, d, hget, hmoves⟩
    have hrecorded : o.diffs.recorded slot = d := by rw [SlotDiffs.recorded, hget, Option.getD_some]
    rw [← hrecorded] at hmoves
    rwa [hplace slot hmoves]

theorem mem_additions_iff (h : o.Accounts before now)
    (hnow : ∀ slot, (now slot).Proper records slot) :
    t ∈ o.diffs.additions ↔ ∃ slot d, o.diffs.get? slot = some d ∧ d.Adds t :=
  exists_get?_iff (by simp [SlotDiff.Adds, OrderedMap.mem_values_iff])
    fun slot hadds => (hnow slot).slot t ((h.nets slot).has_of_adds hadds)

theorem mem_removals_iff (h : o.Accounts before now)
    (hbefore : ∀ slot, (before slot).Proper records slot) :
    t ∈ o.diffs.removals ↔ ∃ slot d, o.diffs.get? slot = some d ∧ d.Removes t :=
  exists_get?_iff (by simp [SlotDiff.Removes, OrderedMap.mem_values_iff])
    fun slot hremoves => (hbefore slot).slot t ((h.nets slot).has_of_removes hremoves)

/-- No slot has a record just if both indexes are empty. -/
theorem isEmpty_iff (h : o.Accounts before now)
    (hbefore : ∀ slot, (before slot).Proper records slot)
    (hnow : ∀ slot, (now slot).Proper records slot) :
    o.isEmpty = true ↔ o.added.isEmpty = true ∧ o.deleted.isEmpty = true := by
  rw [RegistryOverlay.isEmpty, OrderedMap.isEmpty_iff_forall, h.added.isEmpty_iff,
    h.deleted.isEmpty_iff]
  constructor
  · intro hnone
    refine ⟨fun t ht => ?_, fun t ht => ?_⟩
    · obtain ⟨slot, d, hget, _⟩ := (h.mem_additions_iff hnow).mp ht
      rw [hnone] at hget
      cases hget
    · obtain ⟨slot, d, hget, _⟩ := (h.mem_removals_iff hbefore).mp ht
      rw [hnone] at hget
      cases hget
  · rintro ⟨hadded, hdeleted⟩ slot
    cases hget : o.diffs.get? slot with
    | none => rfl
    | some d =>
        have hnets := h.nets slot
        rw [SlotDiffs.recorded, hget, Option.getD_some] at hnets
        have hempty : d.isEmpty = true := hnets.isEmpty_iff.mpr fun t =>
          ⟨fun hadds => hadded t ((h.mem_additions_iff hnow).mpr ⟨slot, d, hget, hadds⟩),
            fun hremoves => hdeleted t ((h.mem_removals_iff hbefore).mpr ⟨slot, d, hget, hremoves⟩)⟩
        rw [h.telling slot d hget] at hempty
        cases hempty

end Accounts

end RegistryOverlay

/-! ## The combined view -/

/-- What is read of a set of stakers, slot by slot. -/
structure SlotReads where
  validator? : Slot → Option Staker
  delegators : Slot → StakerSeq

namespace SlotReads

/-- Who is in a slot as it is read. -/
def content (reads : SlotReads) (slot : Slot) : SlotContent :=
  ⟨reads.validator? slot, {s | s ∈ (reads.delegators slot).toList}⟩

instance (reads : SlotReads) (slot : Slot) (s : Staker) : Decidable ((reads.content slot).Has s) :=
  inferInstanceAs (Decidable (reads.validator? slot = some s ∨ s ∈ (reads.delegators slot).toList))

/-- Whether a call keeps to the contract can be read off. -/
instance (reads : SlotReads) (slot : Slot) (records : Set Staker) [DecidablePred (· ∈ records)] :
    (c : SlotChange) → Decidable ((reads.content slot).Admits records c)
  | .putValidator s => inferInstanceAs (Decidable
      (s ∈ records ∧ ¬ (reads.content slot).Has s ∧ reads.validator? slot = none))
  | .deleteValidator s => inferInstanceAs (Decidable (reads.validator? slot = some s))
  | .putDelegator s => inferInstanceAs (Decidable (s ∈ records ∧ ¬ (reads.content slot).Has s))
  | .deleteDelegator s => inferInstanceAs (Decidable (s ∈ (reads.delegators slot).toList))

/-- The staker is in the set, in the slot that is its own. -/
def Has (reads : SlotReads) (s : Staker) : Prop := (reads.content s.slot).Has s

/-- Every staker that is read is on record, in its own slot and in one role. -/
def Proper (reads : SlotReads) (records : Set Staker) : Prop :=
  ∀ slot, (reads.content slot).Proper records slot

end SlotReads

/-- The reads of a committed registry. -/
def Registry.reads (r : Registry) : SlotReads := ⟨r.validator?, r.delegators⟩

/-- A committed registry whose indexes agree can be the parent of a layer. -/
theorem Registry.Represents.proper_reads {r : Registry} {members records : Set Staker}
    (h : r.Represents members) (hsub : members ⊆ records) : r.reads.Proper records := by
  intro slot
  have hvalidator : ∀ s, (r.reads.content slot).validator = some s ↔
      s ∈ members ∧ s.isValidator = true ∧ s.slot = slot := fun s => by
    rw [← occupant_eq_some_iff h.slots, ← h.holds.validator]
    exact Iff.rfl
  have hdelegator : ∀ s, s ∈ (r.reads.content slot).delegators ↔
      s ∈ members ∧ s.isValidator = false ∧ s.slot = slot :=
    (h.holds.enumerates_delegators slot).mem_iff
  refine ⟨fun s hs => ?_, fun s hs => ?_, fun s hv hd => ?_⟩
  · rcases hs with hs | hs
    · exact hsub ((hvalidator s).mp hs).1
    · exact hsub ((hdelegator s).mp hs).1
  · rcases hs with hs | hs
    · exact ((hvalidator s).mp hs).2.2
    · exact ((hdelegator s).mp hs).2.2
  · have hboth := ((hvalidator s).mp hv).2.1
    rw [((hdelegator s).mp hd).2.1] at hboth
    cases hboth

namespace TieredOverlay

/-- The reads of a layer over those of its parent. -/
def readsOver (t : TieredOverlay) (parent : SlotReads) : SlotReads where
  validator? slot := (t.validator? slot).getD (parent.validator? slot)
  delegators slot := t.delegators (parent.delegators slot) slot

variable {t : TieredOverlay} {parent : SlotReads} {records : Set Staker}

/-- The combined view shows what the accounts say. -/
theorem content_readsOver {now : Slot → SlotContent} (h : t.flat.Accounts parent.content now)
    (hrecords : records.InjOn Staker.txId) (hparent : parent.Proper records) (slot : Slot) :
    (t.readsOver parent).content slot = now slot := by
  have hnets := h.nets slot
  have hvalidator : (t.readsOver parent).validator? slot = (now slot).validator := by
    change (t.validator? slot).getD (parent.validator? slot) = _
    rw [t.validator?_eq]
    exact RegistryOverlay.validator?_getD_of_nets hnets
  have hdelegators : {s | s ∈ ((t.readsOver parent).delegators slot).toList} =
      (now slot).delegators := by
    refine Set.ext fun s => ?_
    change s ∈ (t.delegators (parent.delegators slot) slot).toList ↔ _
    rw [t.delegators_eq]
    exact RegistryOverlay.mem_delegators_of_nets hnets
      (hrecords.mono fun s hs => (hparent slot).recorded s (Or.inr hs)) (fun s => Iff.rfl) s
  change SlotContent.mk _ _ = ⟨(now slot).validator, (now slot).delegators⟩
  rw [hvalidator, hdelegators]

/-- A registry as it arises in a fresh layer from calls that keep to the contract of the combined
view. -/
inductive Arises (records : Set Staker) (parent : SlotReads) : TieredOverlay → Prop
  | fresh : Arises records parent {}
  | call {t : TieredOverlay} {c : SlotChange} (h : Arises records parent t)
      (hadmits : ((t.readsOver parent).content c.staker.slot).Admits records c) :
      Arises records parent (t.change c)

theorem Arises.tidy (h : t.Arises records parent) : t.diffs.Tidy := by
  induction h with
  | fresh => exact .empty
  | call _ _ ih => exact tidy_change ih _

/-- However the registry arose, it accounts for the way from the parent's contents to those of the
combined view, which can be the parent of a further layer. -/
theorem Arises.accounts (h : t.Arises records parent) (hrecords : records.InjOn Staker.txId)
    (hparent : parent.Proper records) :
    (t.readsOver parent).Proper records ∧
      t.flat.Accounts parent.content (t.readsOver parent).content := by
  -- A call touches one slot, and the contents of the others are as they were.
  induction h with
  | fresh =>
      have hsame : (readsOver {} parent).content = parent.content :=
        funext (content_readsOver (.refl _) hrecords hparent)
      rw [SlotReads.Proper, hsame]
      exact ⟨hparent, .refl _⟩
  | @call t c h hadmits ih =>
      obtain ⟨hproper, haccounts⟩ := ih
      have hchange := haccounts.change hrecords hparent hproper hadmits
      rw [← flat_change] at hchange
      have hcontent := funext (content_readsOver hchange hrecords hparent)
      rw [SlotReads.Proper, hcontent]
      refine ⟨fun slot => ?_, hchange⟩
      unfold RegistryOverlay.changed
      split
      next hsame =>
        subst hsame
        exact (hproper _).change hadmits
      next => exact hproper slot

/-- The walk over the whole set, which the flat indexes decide, meets whom the slots show. -/
theorem Arises.mem_all (h : t.Arises records parent) (hrecords : records.InjOn Staker.txId)
    (hparent : parent.Proper records) {walk : StakerSeq}
    (hwalk : ∀ s, s ∈ walk.toList ↔ parent.Has s) (s : Staker) :
    s ∈ (t.all walk).toList ↔ (t.readsOver parent).Has s := by
  obtain ⟨_, haccounts⟩ := h.accounts hrecords hparent
  have hhidden : parent.Has s → ((!t.deleted.contains s.txId) = true ↔
      s ∉ t.flat.diffs.removals) := by
    intro hs
    rw [Bool.not_eq_true', ← Bool.not_eq_true, not_iff_not]
    refine haccounts.deleted.contains_iff.trans ⟨?_, fun hmem => ⟨s, hmem, rfl⟩⟩
    rintro ⟨u, hu, htx⟩
    have hrecorded := (hparent _).recorded u (haccounts.has_of_mem_removals hu)
    exact hrecords hrecorded ((hparent _).recorded s hs) htx ▸ hu
  have hadded : s ∈ t.added.values ↔ s ∈ t.flat.diffs.additions := haccounts.added.mem_values
  rw [all, StakerSeq.toList_merge, (StakerSeq.mergeLists_perm _ _).mem_iff, List.mem_append,
    StakerSeq.toList_mask, List.mem_filter, hwalk, StakerSeq.toList_ofTree, hadded,
    and_congr_right hhidden]
  exact ((haccounts.nets s.slot).has_iff (hparent s.slot)).symm

/-- The flat indexes of a layer hold what its slot diffs say, and nothing is kept that says
nothing. -/
structure IndexesAgree (t : TieredOverlay) (parent : SlotReads) : Prop where
  /-- The additions are the validators of slots marked as added and the added delegators, each under
  its own key. -/
  added : ∀ k s, t.added.get? k = some s ↔
    s.key = k ∧ ∃ slot d, t.diffs.at? slot = some d ∧ d.Adds s
  /-- The deletions are the validators that are deleted or superseded and the deleted delegators,
  each under its transaction. -/
  deleted : ∀ id s, t.deleted.get? id = some s ↔
    s.txId = id ∧ ∃ slot d, t.diffs.at? slot = some d ∧ d.Removes s
  /-- What is deleted is the parent's record of that transaction, the only one. -/
  ofParent : ∀ id s, t.deleted.get? id = some s →
    parent.Has s ∧ ∀ u, parent.Has u → u.txId = id → u = s
  /-- No record is kept that says nothing. -/
  telling : ∀ slot d, t.diffs.at? slot = some d → d.isEmpty = false
  /-- No supernet is kept without a record. -/
  tidy : t.diffs.Tidy
  /-- The layer changed nothing just if both indexes are empty. -/
  isEmpty_iff : t.isEmpty = true ↔ t.added.isEmpty = true ∧ t.deleted.isEmpty = true

/-- The flat indexes of a layer agree with its slot diffs, over whatever parent and after whatever
calls: absent stakers are put, validators into free slots, present ones are deleted, and no two
records share a transaction. -/
theorem flat_indexes_agree (hrecords : records.InjOn Staker.txId)
    (hparent : parent.Proper records) (h : t.Arises records parent) : t.IndexesAgree parent := by
  obtain ⟨hproper, haccounts⟩ := h.accounts hrecords hparent
  have hget : ∀ slot, t.flat.diffs.get? slot = t.diffs.at? slot := t.diffs.get?_flat
  refine ⟨fun k s => ?_, fun id s => ?_, fun id s hs => ?_, fun slot d hd => ?_, h.tidy, ?_⟩
  · simp only [← hget]
    rw [← haccounts.mem_additions_iff hproper, and_comm]
    exact haccounts.added k s
  · simp only [← hget]
    rw [← haccounts.mem_removals_iff hparent, and_comm]
    exact haccounts.deleted id s
  · obtain ⟨hmem, rfl⟩ := (haccounts.deleted id s).mp hs
    have hhas : parent.Has s := haccounts.has_of_mem_removals hmem
    exact ⟨hhas, fun u hu htx =>
      hrecords ((hparent _).recorded u hu) ((hparent _).recorded s hhas) htx⟩
  · exact haccounts.telling slot d ((hget slot).trans hd)
  · rw [isEmpty_eq h.tidy]
    exact haccounts.isEmpty_iff hparent hproper

/-- Another delegator, of a transaction of its own. -/
def soloRival : Staker := { soloDelegator with txId := .ofWord 9 }

def soloRecords : List Staker := [currentStaker soloTx 1, soloDelegator, soloSuccessor, soloRival]

/-- Over the set of a genesis with a delegator, a layer deletes both, puts another validator in the
place, and puts and deletes another delegator before it restores the first one. -/
theorem flat_indexes_agree_solo :
    let parent := ((State.solo.registries.get .current).putDelegator soloDelegator).reads
    let t := ([.deleteDelegator soloDelegator, .deleteValidator (currentStaker soloTx 1),
      .putValidator soloSuccessor, .putDelegator soloRival, .deleteDelegator soloRival,
      .putDelegator soloDelegator] : List SlotChange).foldl change {}
    t.IndexesAgree parent ∧ t.added.values = [soloSuccessor] ∧
      t.deleted.values = [currentStaker soloTx 1] := by
  intro parent t
  have hrecords : Set.InjOn Staker.txId {s | s ∈ soloRecords} := by
    have hdistinct : ∀ s ∈ soloRecords, ∀ u ∈ soloRecords, s.txId = u.txId → s = u := by
      decide +kernel
    exact fun s hs u hu => hdistinct s hs u hu
  have hload : State.load State.solo.store = .ok State.solo := by decide +kernel
  obtain ⟨_, hroot⟩ := Registry.Represents.exists_of_load hload .current
  obtain ⟨members, hjoined⟩ := hroot.putDelegator (s := soloDelegator) rfl (by decide +kernel)
  have hparent : parent.Proper {s | s ∈ soloRecords} := hjoined.proper_reads fun s hs => by
    have hall : ∀ s ∈ ((State.solo.registries.get .current).putDelegator soloDelegator).all.toList,
        s ∈ soloRecords := by decide +kernel
    exact hall s (hjoined.mem_all.mpr hs)
  have harises : t.Arises {s | s ∈ soloRecords} parent :=
    ((((((Arises.fresh.call (c := .deleteDelegator soloDelegator) (by decide +kernel)).call
      (c := .deleteValidator (currentStaker soloTx 1)) (by decide +kernel)).call
      (c := .putValidator soloSuccessor) (by decide +kernel)).call
      (c := .putDelegator soloRival) (by decide +kernel)).call
      (c := .deleteDelegator soloRival) (by decide +kernel)).call
      (c := .putDelegator soloDelegator) (by decide +kernel))
  exact ⟨flat_indexes_agree hrecords hparent harises, by decide +kernel, by decide +kernel⟩

end TieredOverlay

end StakingLedger
