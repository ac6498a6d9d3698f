import Mathlib.Data.List.Basic
import StakingLedger.Ledger.Changes
import StakingLedger.Proofs.Ledger.Contents
import StakingLedger.Proofs.Registry.Layering

/-! # Replaying the staker changes of a layer

A fold deletes what the layer deleted and then puts what it added, slot by slot
with the validator first. On the stakers of the parent every one of these
writes keeps to the contract, and together they make the stakers of the layer.
-/

namespace StakingLedger

/-! ## Series of staker writes -/

namespace Contents

variable {book : Book} {c : Contents} {phase : Phase} {s : Staker} {stakers : List Staker}

theorem updateStakers_updateStakers (c : Contents) (phase : Phase)
    (f g : Set Staker → Set Staker) :
    (c.updateStakers phase f).updateStakers phase g = c.updateStakers phase (g ∘ f) := by
  simp [updateStakers, Function.update_idem]

theorem updateStakers_eq_self {f : Set Staker → Set Staker}
    (h : f (c.stakers phase) = c.stakers phase) : c.updateStakers phase f = c := by
  rw [updateStakers, h, Function.update_eq_self]

theorem updateStakers_congr {f g : Set Staker → Set Staker}
    (h : f (c.stakers phase) = g (c.stakers phase)) :
    c.updateStakers phase f = c.updateStakers phase g := by
  rw [updateStakers, updateStakers, h]

theorem write_put (c : Contents) (phase : Phase) (s : Staker) :
    c.write (Write.put phase s) = c.updateStakers phase (insert s) := by
  unfold Write.put
  split <;> rfl

theorem write_delete (c : Contents) (phase : Phase) (s : Staker) :
    c.write (Write.delete phase s) = c.updateStakers phase (· \ {s}) := by
  unfold Write.delete
  split <;> rfl

theorem allows_put (hs : s ∈ book.records phase)
    (habsent : ∀ t ∈ c.stakers phase, t.txId ≠ s.txId)
    (hfree : s.isValidator = true → occupant (c.stakers phase) s.slot = none) :
    c.Allows book (Write.put phase s) := by
  unfold Write.put
  split
  next hv => exact ⟨hs, hv, habsent, hfree hv⟩
  next hd => exact ⟨hs, by simpa using hd, habsent⟩

theorem allows_delete (hs : s ∈ c.stakers phase) : c.Allows book (Write.delete phase s) := by
  unfold Write.delete
  split
  next hv => exact ⟨hv, hs⟩
  next hd => exact ⟨by simpa using hd, hs⟩

/-- A recorded staker may be put that is absent, towards a set with one validator in a slot. -/
theorem allows_put_towards {members : Set Staker} (hslots : OneValidatorPerSlot members)
    (hrecorded : members ⊆ book.records phase) (hwithin : c.stakers phase ⊆ members)
    (hs : s ∈ members) (habsent : s ∉ c.stakers phase) : c.Allows book (Write.put phase s) := by
  refine allows_put (hrecorded hs) (fun t ht htx => ?_) fun hv => ?_
  · exact habsent (book.injOn phase (hrecorded (hwithin ht)) (hrecorded hs) htx ▸ ht)
  · refine occupant_eq_none_iff.mpr fun t ht htv hslot => ?_
    exact habsent (hslots t (hwithin ht) s hs htv hv hslot ▸ ht)

/-- Deleting stakers that are present, each of them once. -/
theorem writeAll_delete (book : Book) (hnodup : stakers.Nodup)
    (hpresent : ∀ s ∈ stakers, s ∈ c.stakers phase) :
    c.Accepts (Allows book) (stakers.map (Write.delete phase)) ∧
      c.writeAll (stakers.map (Write.delete phase)) =
        c.updateStakers phase (· \ {s | s ∈ stakers}) := by
  induction stakers generalizing c with
  | nil => exact ⟨trivial, (updateStakers_eq_self (by simp)).symm⟩
  | cons s rest ih =>
      obtain ⟨hfirst, hrest⟩ := List.nodup_cons.mp hnodup
      have hwrite := write_delete c phase s
      have hleft : ∀ t ∈ rest, t ∈ (c.write (Write.delete phase s)).stakers phase := by
        intro t ht
        rw [hwrite, updateStakers_self]
        exact ⟨hpresent t (List.mem_cons_of_mem _ ht), fun heq => hfirst (heq ▸ ht)⟩
      obtain ⟨haccepts, hresult⟩ := ih hrest hleft
      refine ⟨⟨allows_delete (hpresent s List.mem_cons_self), haccepts⟩, ?_⟩
      change (c.write _).writeAll _ = _
      rw [hresult, hwrite, updateStakers_updateStakers]
      refine updateStakers_congr (Set.ext fun t => ?_)
      simp only [Function.comp_apply, Set.mem_sdiff, Set.mem_singleton_iff, Set.mem_ofPred_eq,
        List.mem_cons, not_or, and_assoc]

/-- Putting stakers that are absent, each of them once, towards a set with one validator in a
slot. -/
theorem writeAll_put {members : Set Staker} (hslots : OneValidatorPerSlot members)
    (hrecorded : members ⊆ book.records phase) (hwithin : c.stakers phase ⊆ members)
    (hnodup : stakers.Nodup) (hnew : ∀ s ∈ stakers, s ∈ members ∧ s ∉ c.stakers phase) :
    c.Accepts (Allows book) (stakers.map (Write.put phase)) ∧
      c.writeAll (stakers.map (Write.put phase)) =
        c.updateStakers phase (· ∪ {s | s ∈ stakers}) := by
  -- Each put stays within `members`, where a slot has one validator, so the next one is allowed
  -- too.
  induction stakers generalizing c with
  | nil => exact ⟨trivial, (updateStakers_eq_self (by simp)).symm⟩
  | cons s rest ih =>
      obtain ⟨hfirst, hrest⟩ := List.nodup_cons.mp hnodup
      obtain ⟨hs, habsent⟩ := hnew s List.mem_cons_self
      have hallowed := allows_put_towards hslots hrecorded hwithin hs habsent
      have hwrite := write_put c phase s
      have hthere : (c.write (Write.put phase s)).stakers phase = insert s (c.stakers phase) := by
        rw [hwrite, updateStakers_self]
      have hleft : ∀ t ∈ rest, t ∈ members ∧
          t ∉ (c.write (Write.put phase s)).stakers phase := by
        intro t ht
        obtain ⟨htm, htc⟩ := hnew t (List.mem_cons_of_mem _ ht)
        rw [hthere]
        refine ⟨htm, ?_⟩
        rintro (rfl | hmem)
        · exact hfirst ht
        · exact htc hmem
      have hinside : (c.write (Write.put phase s)).stakers phase ⊆ members := by
        rw [hthere]
        exact Set.insert_subset hs hwithin
      obtain ⟨haccepts, hresult⟩ := ih hinside hrest hleft
      refine ⟨⟨hallowed, haccepts⟩, ?_⟩
      change (c.write _).writeAll _ = _
      rw [hresult, hwrite, updateStakers_updateStakers]
      refine updateStakers_congr (Set.ext fun t => ?_)
      simp only [Function.comp_apply, Set.mem_union, Set.mem_insert_iff, Set.mem_ofPred_eq,
        List.mem_cons]
      tauto

end Contents

/-! ## The additions of a slot -/

theorem SlotDiffs.recorded_of_mem {diffs : SlotDiffs} {e : Slot × SlotDiff}
    (he : e ∈ diffs.entries) : diffs.recorded e.1 = e.2 := by
  rw [SlotDiffs.recorded, OrderedMap.get?_eq_some_iff.mpr he, Option.getD_some]

/-- The stakers that a slot diff adds: the validator, then the delegators in their order. -/
def SlotDiff.arrivals (d : SlotDiff) : List Staker :=
  (if d.status = .added then d.validator.toList else []) ++ d.addedDelegators.values

namespace SlotDiffs.Net

variable {diffs : SlotDiffs} {were are : Set Staker} {s : Staker} {slot : Slot}

theorem mem_arrivals (h : diffs.Net were are) (hone : OneValidatorPerSlot are) :
    s ∈ (diffs.recorded slot).arrivals ↔ s ∈ diffs.incoming were are ∧ s.slot = slot := by
  have hnets := h.nets slot
  have hdelegators : s ∈ (diffs.recorded slot).addedDelegators.values ↔
      s ∈ delegatorsIn are slot \ delegatorsIn were slot := hnets.addedDelegators.mem_values
  have hvalidator : s ∈ (if (diffs.recorded slot).status = .added
        then (diffs.recorded slot).validator.toList else []) ↔
      (diffs.recorded slot).status = .added ∧ s ∈ are ∧ s.isValidator = true ∧ s.slot = slot := by
    split
    next hadded =>
      rw [(hnets.added hadded).1, Option.mem_toList, occupant_eq_some_iff hone]
      simp [hadded]
    next hother => simp [hother]
  rw [SlotDiff.arrivals, List.mem_append, hvalidator, hdelegators]
  simp only [SlotDiffs.incoming, Set.mem_ofPred_eq, Set.mem_sdiff, delegatorsIn]
  by_cases hv : s.isValidator = true
  · simp only [hv, if_true]
    constructor
    · rintro (⟨hadded, hs, _, rfl⟩ | ⟨⟨_, hd, _⟩, _⟩)
      · exact ⟨⟨hs, hadded⟩, rfl⟩
      · cases hd
    · rintro ⟨⟨hs, hadded⟩, rfl⟩
      exact Or.inl ⟨hadded, hs, trivial, rfl⟩
  · have hd : s.isValidator = false := by simpa using hv
    simp only [hd]
    constructor
    · rintro (⟨_, _, hfalse, _⟩ | ⟨⟨hs, _, rfl⟩, hnot⟩)
      · cases hfalse
      · exact ⟨⟨hs, by simpa using fun hwas => hnot ⟨hwas, trivial, rfl⟩⟩, rfl⟩
    · rintro ⟨⟨hs, hnot⟩, rfl⟩
      exact Or.inr ⟨⟨hs, trivial, rfl⟩, fun hwas => absurd hwas.1 (by simpa using hnot)⟩

theorem nodup_arrivals (h : diffs.Net were are) (hone : OneValidatorPerSlot are) :
    (diffs.recorded slot).arrivals.Nodup := by
  have hnets := h.nets slot
  refine List.nodup_append.mpr ⟨?_, hnets.addedDelegators.enumerates.nodup, ?_⟩
  · split
    · cases (diffs.recorded slot).validator <;> simp
    · exact List.nodup_nil
  · intro v hv t ht heq
    subst heq
    split at hv
    next hadded =>
      rw [(hnets.added hadded).1, Option.mem_toList, occupant_eq_some_iff hone] at hv
      have hd := (hnets.addedDelegators.mem_values.mp ht).1.2.1
      rw [hv.2.1] at hd
      cases hd
    next => cases hv

/-- The additions put exactly the arrivals, each in the place its priority asks for. -/
theorem additions_eq (h : diffs.Net were are) (hone : OneValidatorPerSlot are) (phase : Phase) :
    (diffs.recorded slot).additions phase =
      (diffs.recorded slot).arrivals.map (Write.put phase) := by
  have hnets := h.nets slot
  unfold SlotDiff.additions SlotDiff.arrivals
  dsimp only
  rw [List.map_append]
  congr 1
  · cases hstatus : (diffs.recorded slot).status with
    | unmodified => rfl
    | deleted => rfl
    | added =>
        cases hheld : (diffs.recorded slot).validator with
        | none => rfl
        | some v =>
            have hoccupant := (hnets.added hstatus).1
            rw [hheld] at hoccupant
            have hv := ((occupant_eq_some_iff hone).mp hoccupant.symm).2.1
            simp [Write.put, hv]
  · refine List.map_congr_left fun t ht => ?_
    have hd := (hnets.addedDelegators.mem_values.mp ht).1.2.1
    simp [Write.put, hd]

end SlotDiffs.Net

/-! ## The whole registry -/

namespace RegistryOverlay

/-- The stakers that an overlay adds, in the order in which a fold puts them. -/
def arrivals (o : RegistryOverlay) : List Staker := o.diffs.values.flatMap SlotDiff.arrivals

namespace Nets

variable {o : RegistryOverlay} {book : Book} {were are : Set Staker} {s : Staker} {phase : Phase}

theorem mem_arrivals (h : o.Nets were are) (hone : OneValidatorPerSlot are) :
    s ∈ o.arrivals ↔ s ∈ o.diffs.incoming were are := by
  simp only [arrivals, OrderedMap.values, List.flatMap_map, List.mem_flatMap]
  constructor
  · rintro ⟨e, he, hs⟩
    rw [← SlotDiffs.recorded_of_mem he] at hs
    exact ((h.diffs.mem_arrivals hone).mp hs).1
  · intro hs
    have hin := (h.diffs.mem_arrivals hone).mpr ⟨hs, rfl⟩
    cases hget : o.diffs.get? s.slot with
    | none =>
        rw [SlotDiffs.recorded, hget] at hin
        cases hin
    | some d =>
        refine ⟨(s.slot, d), OrderedMap.get?_eq_some_iff.mp hget, ?_⟩
        rwa [SlotDiffs.recorded, hget] at hin

theorem nodup_arrivals (h : o.Nets were are) (hone : OneValidatorPerSlot are) :
    o.arrivals.Nodup := by
  rw [arrivals, OrderedMap.values, List.flatMap_map, List.nodup_iff_pairwise_ne,
    List.pairwise_flatMap]
  refine ⟨fun e he => ?_, o.diffs.sorted.imp_of_mem fun {e e'} he he' hlt s hs t ht heq => ?_⟩
  · rw [← SlotDiffs.recorded_of_mem he]
    exact h.diffs.nodup_arrivals hone
  · rw [← SlotDiffs.recorded_of_mem he] at hs
    rw [← SlotDiffs.recorded_of_mem he'] at ht
    have hslot := ((h.diffs.mem_arrivals hone).mp hs).2
    have hslot' := ((h.diffs.mem_arrivals hone).mp ht).2
    exact OrderedMap.ne_of_compare_lt hlt (by rw [← hslot, ← hslot', heq])

theorem writes_eq (h : o.Nets were are) (hone : OneValidatorPerSlot are) (phase : Phase) :
    o.writes phase =
      o.deleted.values.map (Write.delete phase) ++ o.arrivals.map (Write.put phase) := by
  rw [RegistryOverlay.writes, arrivals, List.map_flatMap]
  congr 1
  simp only [OrderedMap.values, List.flatMap_map]
  refine List.flatMap_congr fun e he => ?_
  rw [← SlotDiffs.recorded_of_mem he]
  exact h.diffs.additions_eq hone phase

/-- The writes of an overlay keep to the contract on the stakers below and make those above. -/
theorem replay {c : Contents} (h : o.Nets (c.stakers phase) are) (hproper : c.Proper book)
    (hone : OneValidatorPerSlot are) (hrecorded : are ⊆ book.records phase) :
    c.Accepts (Contents.Allows book) (o.writes phase) ∧
      c.writeAll (o.writes phase) = c.updateStakers phase fun _ => are := by
  have hmem := h.mem_iff hone (hproper.slots phase)
  have hdeleted : ∀ s, s ∈ o.deleted.values ↔ s ∈ o.diffs.outgoing (c.stakers phase) are :=
    fun s => h.deleted.mem_values
  have hsome : ∀ s ∈ o.deleted.values, s ∈ c.stakers phase := fun s hs => ((hdeleted s).mp hs).1
  obtain ⟨hacceptDeletes, hdeletes⟩ := Contents.writeAll_delete book
    h.deleted.enumerates.nodup hsome
  have hkept : (c.updateStakers phase (· \ {s | s ∈ o.deleted.values})).stakers phase =
      {s | s ∈ c.stakers phase ∧ s ∉ o.diffs.outgoing (c.stakers phase) are} := by
    rw [Contents.updateStakers_self]
    ext s
    simp [hdeleted]
  have hwithin : (c.updateStakers phase (· \ {s | s ∈ o.deleted.values})).stakers phase ⊆ are := by
    rw [hkept]
    exact fun s hs => (hmem s).mpr (Or.inl hs)
  have hnew : ∀ s ∈ o.arrivals, s ∈ are ∧
      s ∉ (c.updateStakers phase (· \ {s | s ∈ o.deleted.values})).stakers phase := by
    intro s hs
    have hin := (h.mem_arrivals hone).mp hs
    rw [hkept]
    refine ⟨hin.1, fun hstays => hstays.2 ⟨hstays.1, ?_⟩⟩
    have hmark := hin.2
    split at hmark
    next hv => rw [if_pos hv, hmark]; decide
    next hd => exact absurd hstays.1 hmark
  obtain ⟨hacceptPuts, hputs⟩ := Contents.writeAll_put hone hrecorded hwithin
    (h.nodup_arrivals hone) hnew
  rw [h.writes_eq hone]
  refine ⟨Contents.accepts_append.mpr ⟨hacceptDeletes, hdeletes ▸ hacceptPuts⟩, ?_⟩
  rw [Contents.writeAll_append, hdeletes, hputs, Contents.updateStakers_updateStakers]
  refine Contents.updateStakers_congr (Set.ext fun s => ?_)
  rw [hmem s]
  simp [hdeleted, h.mem_arrivals hone]

end Nets

end RegistryOverlay

end StakingLedger
