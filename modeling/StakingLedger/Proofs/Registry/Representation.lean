import StakingLedger.Proofs.Registry.Tiered
import StakingLedger.Proofs.State.Genesis

/-! # What the indexes of a registry agree on

A registry finds a staker in three ways: by key, as the validator or a delegator of a slot, and by
what changed in a slot. Whatever is put, deleted and flushed, and whatever store a root loads
from, the three agree, nothing empty is kept, and the walk over the set is in the order of keys.
-/

namespace StakingLedger

namespace Registry

/-! ## Records that say something -/

/-- No slot's record is kept that says nothing. -/
def Telling (r : Registry) : Prop :=
  ∀ slot d, r.diffs.get? slot = some d → d.isEmpty = false

namespace Telling

variable {r : Registry}

theorem empty : Telling {} := by
  intro slot d hget
  cases hget

theorem putValidator (h : r.Telling) (s : Staker) : (r.putValidator s).Telling :=
  fun _ _ hget => SlotDiffs.forall_update h rfl hget

theorem deleteValidator (h : r.Telling) (s : Staker) : (r.deleteValidator s).Telling :=
  fun _ _ hget => SlotDiffs.forall_updatePruned h id hget

theorem putDelegator (h : r.Telling) (s : Staker) : (r.putDelegator s).Telling :=
  fun _ _ hget => SlotDiffs.forall_updatePruned h id hget

theorem deleteDelegator (h : r.Telling) (s : Staker) : (r.deleteDelegator s).Telling :=
  fun _ _ hget => SlotDiffs.forall_updatePruned h id hget

end Telling

/-! ## Registries that hold a set -/

/-- The indexes agree with one set of stakers, in which no two validators share a slot, and nothing
empty is kept. -/
structure Represents (r : Registry) (members : Set Staker) : Prop where
  holds : r.Holds members
  slots : OneValidatorPerSlot members
  tidy : r.Tidy
  telling : r.Telling

namespace Represents

variable {r : Registry} {members : Set Staker} {s : Staker}

theorem empty : Represents {} ∅ :=
  ⟨.empty, fun _ hs => absurd hs (Set.notMem_empty _), .empty, .empty⟩

theorem mem_all (h : r.Represents members) : s ∈ r.all.toList ↔ s ∈ members :=
  h.holds.enumerates_all.mem_iff s

/-- Stakers with one key share a slot, if those of other slots are of other transactions. -/
theorem slot_eq_of_key_eq (h : r.Represents members)
    (hother : ∀ u ∈ r.all.toList, u.slot ≠ s.slot → u.txId ≠ s.txId) :
    ∀ u ∈ members, u.key = s.key → u.slot = s.slot := by
  intro u hu hkey
  by_contra hslot
  exact hother u (h.mem_all.mpr hu) hslot (Staker.txId_of_key_eq hkey)

theorem putValidator (h : r.Represents members) (hv : s.isValidator = true)
    (hother : ∀ u ∈ r.all.toList, u.slot ≠ s.slot → u.txId ≠ s.txId) :
    ∃ members', (r.putValidator s).Represents members' := by
  have hplace := h.slot_eq_of_key_eq hother
  cases hheld : occupant members s.slot with
  | none =>
      exact ⟨_, h.holds.putValidator_free h.slots hv hheld hplace, h.slots.insert_validator hheld,
        h.tidy.putValidator s, h.telling.putValidator s⟩
  | some old =>
      obtain ⟨hold, holdv, hslot⟩ := (occupant_eq_some_iff h.slots).mp hheld
      have hfree : occupant (members \ {old}) s.slot = none := by
        rw [occupant_diff_validator h.slots hold holdv, if_pos hslot.symm]
      exact ⟨_, h.holds.putValidator_over h.slots hv hheld hplace,
        (h.slots.subset fun _ ht => ht.1).insert_validator hfree, h.tidy.putValidator s,
        h.telling.putValidator s⟩

theorem putDelegator (h : r.Represents members) (hd : s.isValidator = false)
    (hother : ∀ u ∈ r.all.toList, u.slot ≠ s.slot → u.txId ≠ s.txId) :
    ∃ members', (r.putDelegator s).Represents members' :=
  ⟨_, h.holds.putDelegator_over h.slots hd (h.slot_eq_of_key_eq hother),
    (h.slots.subset fun _ ht => ht.1).insert_delegator hd, h.tidy.putDelegator s,
    h.telling.putDelegator s⟩

theorem deleteValidator (h : r.Represents members) (hv : s.isValidator = true)
    (hs : s ∈ r.all.toList) : ∃ members', (r.deleteValidator s).Represents members' :=
  ⟨_, h.holds.deleteValidator h.slots hv (h.mem_all.mp hs), h.slots.subset fun _ ht => ht.1,
    h.tidy.deleteValidator s, h.telling.deleteValidator s⟩

theorem deleteDelegator (h : r.Represents members) (hd : s.isValidator = false)
    (hs : s ∈ r.all.toList) : ∃ members', (r.deleteDelegator s).Represents members' :=
  ⟨_, h.holds.deleteDelegator h.slots hd (h.mem_all.mp hs), h.slots.subset fun _ ht => ht.1,
    h.tidy.deleteDelegator s, h.telling.deleteDelegator s⟩

theorem clearDiffs (h : r.Represents members) : r.clearDiffs.Represents members :=
  ⟨h.holds.clearDiffs, h.slots, h.tidy.clearDiffs, fun _ _ hget => by cases hget⟩

/-- A root that loads has registries of that kind, whatever its store holds. -/
theorem exists_of_load {store : Store} {root : State} (h : State.load store = .ok root)
    (phase : Phase) : ∃ members, (root.registries.get phase).Represents members := by
  have hloaded := (State.load_eq_ok_iff.mp h).registries phase
  obtain ⟨members, hholds, hone, _⟩ := State.holds_of_loadRegistry hloaded
  obtain ⟨htidy, hdiffs⟩ := State.tidy_of_loadRegistry hloaded
  refine ⟨members, hholds, hone, htidy, fun slot d hget => ?_⟩
  rw [hdiffs] at hget
  cases hget

end Represents

/-! ## What the indexes agree on -/

/-- The three ways to a staker agree. -/
structure IndexesAgree (r : Registry) : Prop where
  /-- The whole set holds the validators and the delegators of the slots and nobody else, each
  under its own key. -/
  indexed : ∀ k s, r.stakers.get? k = some s ↔ s.key = k ∧
    ∃ slot, r.validator? slot = some s ∨ (r.slotStakers slot).delegators.get? k = some s
  /-- The validator of a slot is the one that the walk meets. -/
  validator : ∀ slot s, r.validator? slot = some s ↔
    s ∈ r.all.toList ∧ s.isValidator = true ∧ s.slot = slot
  /-- The delegators of a slot are those that the walk meets, in the same order. -/
  delegators : ∀ slot, (r.delegators slot).toList =
    r.all.toList.filter fun s => !s.isValidator && decide (s.slot = slot)
  /-- The walk goes up in the order of keys: next time, priority, transaction. -/
  ordered : r.all.toList.Pairwise fun a b => compare a.key b.key = .lt
  /-- The size counts whom the walk meets. -/
  size : r.size = r.all.toList.length
  /-- No slot is kept for nobody. -/
  tidy : r.Tidy
  /-- No slot's record is kept that says nothing. -/
  telling : r.Telling

theorem Represents.indexesAgree {r : Registry} {members : Set Staker} (h : r.Represents members) :
    r.IndexesAgree where
  indexed k s := by
    rw [h.holds.stakers k s]
    constructor
    · rintro ⟨hs, rfl⟩
      refine ⟨rfl, s.slot, ?_⟩
      cases hv : s.isValidator with
      | true =>
          left
          rw [h.holds.validator, occupant_eq_some_iff h.slots]
          exact ⟨hs, hv, rfl⟩
      | false => exact Or.inr ((h.holds.delegators s.slot _ s).mpr ⟨⟨hs, hv, rfl⟩, rfl⟩)
    · rintro ⟨rfl, slot, hvalidator | hdelegator⟩
      · rw [h.holds.validator] at hvalidator
        exact ⟨mem_of_occupant hvalidator, rfl⟩
      · exact ⟨((h.holds.delegators slot _ s).mp hdelegator).1.1, rfl⟩
  validator slot s := by
    rw [h.holds.validator, occupant_eq_some_iff h.slots, h.mem_all]
  delegators slot := by
    refine (h.holds.enumerates_delegators slot).unique
      ((h.holds.enumerates_all.filter _).congr fun s => ?_)
    rw [Set.mem_ofPred_eq, Bool.and_eq_true, Bool.not_eq_true', decide_eq_true_eq]
    exact Iff.rfl
  ordered := h.holds.enumerates_all.sorted
  size := by
    rw [all, StakerSeq.toList_ofTree]
    exact (List.length_map _).symm
  tidy := h.tidy
  telling := h.telling

end Registry

/-! ## Runs of a registry -/

/-- A registry as it arises from calls and loads: once as it is kept in memory, by supernet and
node, and once with a single map of slots. Stakers of other slots have other transactions; a put
staker has the priority its place asks for, and a deleted one is there. -/
inductive TieredRegistry.Arises : TieredRegistry → Registry → Prop
  | empty : Arises {} {}
  /-- A root that loads loads each of its sets. -/
  | loaded {store : Store} {root : State} {phase : Phase} {t : TieredRegistry}
      (hroot : State.load store = .ok root) (ht : load store (.staker phase) = .ok t) :
      Arises t (root.registries.get phase)
  /-- A validator is put, perhaps in the place of another. -/
  | putValidator {t : TieredRegistry} {r : Registry} {s : Staker} (h : Arises t r)
      (hv : s.isValidator = true)
      (hother : ∀ u ∈ r.all.toList, u.slot ≠ s.slot → u.txId ≠ s.txId) :
      Arises (t.putValidator s) (r.putValidator s)
  | putDelegator {t : TieredRegistry} {r : Registry} {s : Staker} (h : Arises t r)
      (hd : s.isValidator = false)
      (hother : ∀ u ∈ r.all.toList, u.slot ≠ s.slot → u.txId ≠ s.txId) :
      Arises (t.putDelegator s) (r.putDelegator s)
  | deleteValidator {t : TieredRegistry} {r : Registry} {s : Staker} (h : Arises t r)
      (hv : s.isValidator = true) (hs : s ∈ r.all.toList) :
      Arises (t.deleteValidator s) (r.deleteValidator s)
  | deleteDelegator {t : TieredRegistry} {r : Registry} {s : Staker} (h : Arises t r)
      (hd : s.isValidator = false) (hs : s ∈ r.all.toList) :
      Arises (t.deleteDelegator s) (r.deleteDelegator s)
  /-- The changes are flushed. -/
  | clearDiffs {t : TieredRegistry} {r : Registry} (h : Arises t r) :
      Arises t.clearDiffs r.clearDiffs

namespace TieredRegistry.Arises

variable {t : TieredRegistry} {r : Registry}

/-- What is kept by supernet and node is at every time what the single map keeps. -/
theorem flat_eq (h : t.Arises r) : t.flat = r := by
  induction h with
  | empty => rfl
  | @loaded store root phase t hroot ht =>
      have hloaded := (State.load_eq_ok_iff.mp hroot).registries phase
      rw [← flat_load, ht] at hloaded
      exact Except.ok.inj hloaded
  | putValidator _ _ _ ih => rw [flat_putValidator, ih]
  | putDelegator _ _ _ ih => rw [flat_putDelegator, ih]
  | deleteValidator _ _ _ ih => rw [flat_deleteValidator, ih]
  | deleteDelegator _ _ _ ih => rw [flat_deleteDelegator, ih]
  | clearDiffs _ ih => rw [flat_clearDiffs, ih]

theorem tidy (h : t.Arises r) : t.Tidy := by
  induction h with
  | empty => exact .empty
  | loaded _ ht => exact tidy_of_load ht
  | putValidator _ _ _ ih => exact ih.putValidator _
  | putDelegator _ _ _ ih => exact ih.putDelegator _
  | deleteValidator _ _ _ ih => exact ih.deleteValidator _
  | deleteDelegator _ _ _ ih => exact ih.deleteDelegator _
  | clearDiffs _ ih => exact ih.clearDiffs

theorem represents (h : t.Arises r) : ∃ members, r.Represents members := by
  induction h with
  | empty => exact ⟨∅, .empty⟩
  | @loaded _ _ phase _ hroot _ => exact Registry.Represents.exists_of_load hroot phase
  | putValidator _ hv hother ih => exact ih.elim fun _ h => h.putValidator hv hother
  | putDelegator _ hd hother ih => exact ih.elim fun _ h => h.putDelegator hd hother
  | deleteValidator _ hv hs ih => exact ih.elim fun _ h => h.deleteValidator hv hs
  | deleteDelegator _ hd hs ih => exact ih.elim fun _ h => h.deleteDelegator hd hs
  | clearDiffs _ ih => exact ih.elim fun _ h => ⟨_, h.clearDiffs⟩

/-- Every registry of a root that loads arises. -/
theorem exists_of_load {store : Store} {root : State} (h : State.load store = .ok root)
    (phase : Phase) : ∃ t, Arises t (root.registries.get phase) := by
  have hloaded := (State.load_eq_ok_iff.mp h).registries phase
  rw [← flat_load] at hloaded
  obtain ⟨t, ht, _⟩ := map_eq_ok_iff.mp hloaded
  exact ⟨t, .loaded h ht⟩

end TieredRegistry.Arises

/-- However a registry arises by puts, replacements, deletions and flushes, its indexes agree on
whom it holds, the reads on two levels are those of the single map, and it keeps no empty slot, no
empty map of a supernet and no empty record. The registries of a root that loads are among those
that arise, whatever store they come from. -/
theorem TieredRegistry.indexes_agree :
    (∀ {t : TieredRegistry} {r : Registry}, t.Arises r → r.IndexesAgree ∧ t.Tidy ∧ t.flat = r ∧
      ∀ slot, t.validator? slot = r.validator? slot ∧ t.delegators slot = r.delegators slot) ∧
    ∀ {store : Store} {root : State}, State.load store = .ok root →
      ∀ phase, ∃ t, Arises t (root.registries.get phase) := by
  refine ⟨fun {t r} h => ?_, fun h phase => Arises.exists_of_load h phase⟩
  obtain ⟨members, hmembers⟩ := h.represents
  obtain rfl := h.flat_eq
  exact ⟨hmembers.indexesAgree, h.tidy, rfl,
    fun slot => ⟨t.validator?_eq slot, t.delegators_eq slot⟩⟩

/-- A validator of another transaction in the place of the one of the genesis. -/
def soloSuccessor : Staker := { currentStaker soloTx 1 with txId := .ofWord 3 }

/-- The current set that loads from a genesis: a delegator joins, the validator is replaced, the
delegator leaves again, and the changes are flushed. -/
theorem TieredRegistry.indexes_agree_solo : ∃ r : Registry, r.all.toList = [soloSuccessor] ∧
    r.IndexesAgree ∧ ∃ t : TieredRegistry, t.Tidy ∧ t.flat = r := by
  have hload : State.load State.solo.store = .ok State.solo := by decide +kernel
  obtain ⟨t, ht⟩ := indexes_agree.2 hload .current
  have hjoined := ht.putDelegator (s := soloDelegator) rfl (by decide +kernel)
  have hreplaced := hjoined.putValidator (s := soloSuccessor) rfl (by decide +kernel)
  have hleft := hreplaced.deleteDelegator (s := soloDelegator) rfl (by decide +kernel)
  obtain ⟨hagree, htidy, hflat, _⟩ := indexes_agree.1 hleft.clearDiffs
  exact ⟨_, by decide +kernel, hagree, _, htidy, hflat⟩

end StakingLedger
