import StakingLedger.Proofs.Codec.Laws
import StakingLedger.Proofs.Registry.NetChange
import StakingLedger.Proofs.Store.Batch
import StakingLedger.State.Flush

/-! # Stored stakers

The store keeps a set of stakers when it has the record of each member under
its transaction, and no other record of that kind. Writing a net change turns a
store that keeps the earlier set into one that keeps the later set.
-/

namespace StakingLedger

open OrderedMap

/-- The store has the records of the members, none stale and none missing. -/
def Store.KeepsStakers (store : Store) (space : KeySpace) (members : Set Staker) : Prop :=
  ∀ id value, store.get? (space.idKey id) = some value ↔
    ∃ s ∈ members, s.txId = id ∧ value = toCanonical s

namespace SlotDiff

/-- The stakers that a slot adds to the store, unchanged ones put again among them. -/
def Adds (d : SlotDiff) (s : Staker) : Prop :=
  d.status = .added ∧ d.validator = some s ∨ s ∈ d.addedDelegators.values

theorem mem_puts_iff {d : SlotDiff} {space : KeySpace} {e : Bytes × Bytes} :
    e ∈ (d.stakerWrites space).puts ↔ ∃ s, d.Adds s ∧ e = (space.idKey s.txId, toCanonical s) := by
  have hsplit : (d.stakerWrites space).puts =
      (if d.status = .added then d.validator.toList else []).map
        (fun v => (space.idKey v.txId, toCanonical v)) ++
      d.addedDelegators.values.map fun s => (space.idKey s.txId, toCanonical s) := by
    unfold stakerWrites
    cases d.status <;> cases d.validator <;> rfl
  rw [hsplit, List.mem_append, List.mem_map, List.mem_map]
  unfold Adds
  constructor
  · rintro (⟨v, hv, rfl⟩ | ⟨s, hs, rfl⟩)
    · split at hv
      next hstatus => exact ⟨v, Or.inl ⟨hstatus, Option.mem_toList.mp hv⟩, rfl⟩
      next => exact absurd hv List.not_mem_nil
    · exact ⟨s, Or.inr hs, rfl⟩
  · rintro ⟨s, ⟨hstatus, hv⟩ | hs, rfl⟩
    · rw [if_pos hstatus, hv]
      exact Or.inl ⟨s, List.mem_cons_self, rfl⟩
    · exact Or.inr ⟨s, hs, rfl⟩

theorem mem_deletes_iff {d : SlotDiff} {space : KeySpace} {key : Bytes} :
    key ∈ (d.stakerWrites space).deletes ↔
      (d.status = .added ∧ d.validator.isSome = true ∧
        ∃ s, d.superseded = some s ∧ key = space.idKey s.txId) ∨
      (d.status = .deleted ∧ ∃ s, d.validator = some s ∧ key = space.idKey s.txId) ∨
      ∃ id ∈ d.deletedDelegators.keys, key = space.idKey id := by
  have hsplit : (d.stakerWrites space).deletes =
      (if d.status = .added ∧ d.validator.isSome then d.superseded.toList
        else if d.status = .deleted then d.validator.toList else []).map
        (fun s => space.idKey s.txId) ++ d.deletedDelegators.keys.map space.idKey := by
    unfold stakerWrites
    cases d.status <;> cases d.validator <;> cases d.superseded <;> rfl
  rw [hsplit, List.mem_append, List.mem_map, List.mem_map]
  cases d.status <;> cases d.validator <;> cases d.superseded <;> simp [eq_comm]

variable {d : SlotDiff} {before after : Option Staker} {were are : Set Staker} {s : Staker}

theorem fits_of_encodable (h : d.encodable = true) (hs : d.Adds s) : Codec.fits s = true := by
  obtain ⟨hvalidator, hdelegators⟩ := Bool.and_eq_true_iff.mp h
  rcases hs with ⟨hstatus, hv⟩ | hs
  · rw [hstatus, hv] at hvalidator
    exact hvalidator
  · exact List.all_eq_true.mp hdelegators s hs

end SlotDiff

namespace SlotDiffs

variable {diffs : SlotDiffs} {space : KeySpace} {were are : Set Staker} {s : Staker}

/-- Batches are put one after the other. -/
theorem foldl_stakerWrites (l : List SlotDiff) (batch : WriteBatch) :
    l.foldl (fun batch d => batch ++ d.stakerWrites space) batch =
      ⟨batch.puts ++ l.flatMap fun d => (d.stakerWrites space).puts,
        batch.deletes ++ l.flatMap fun d => (d.stakerWrites space).deletes⟩ := by
  induction l generalizing batch with
  | nil => simp
  | cons d rest ih =>
      rw [List.foldl_cons, ih, List.flatMap_cons, List.flatMap_cons, ← List.append_assoc,
        ← List.append_assoc]
      rfl

theorem stakerWrites_eq (diffs : SlotDiffs) (space : KeySpace) :
    diffs.stakerWrites space =
      ⟨diffs.values.flatMap fun d => (d.stakerWrites space).puts,
        diffs.values.flatMap fun d => (d.stakerWrites space).deletes⟩ :=
  foldl_stakerWrites diffs.values {}

theorem mem_puts_iff {e : Bytes × Bytes} :
    e ∈ (diffs.stakerWrites space).puts ↔
      ∃ slot d s, diffs.get? slot = some d ∧ d.Adds s ∧
        e = (space.idKey s.txId, toCanonical s) := by
  rw [stakerWrites_eq]
  simp only [List.mem_flatMap, SlotDiff.mem_puts_iff, OrderedMap.mem_values_iff]
  constructor
  · rintro ⟨d, ⟨slot, hget⟩, s, hs, rfl⟩
    exact ⟨slot, d, s, hget, hs, rfl⟩
  · rintro ⟨slot, d, s, hget, hs, rfl⟩
    exact ⟨d, ⟨slot, hget⟩, s, hs, rfl⟩

theorem names_puts (hwidth : space.width = 32) :
    space.NamesAll (diffs.stakerWrites space).puts := by
  intro e he
  obtain ⟨_, _, s, _, _, rfl⟩ := mem_puts_iff.mp he
  exact KeySpace.Names.idKey hwidth s.txId

theorem mem_deletes_iff {key : Bytes} :
    key ∈ (diffs.stakerWrites space).deletes ↔
      ∃ slot d, diffs.get? slot = some d ∧ key ∈ (d.stakerWrites space).deletes := by
  rw [stakerWrites_eq]
  simp only [List.mem_flatMap, OrderedMap.mem_values_iff]
  constructor
  · rintro ⟨d, ⟨slot, hget⟩, hkey⟩
    exact ⟨slot, d, hget, hkey⟩
  · rintro ⟨slot, d, hget, hkey⟩
    exact ⟨d, ⟨slot, hget⟩, hkey⟩

theorem names_deletes (hwidth : space.width = 32) {key : Bytes}
    (h : key ∈ (diffs.stakerWrites space).deletes) : space.Names key := by
  obtain ⟨_, d, _, hkey⟩ := mem_deletes_iff.mp h
  rcases SlotDiff.mem_deletes_iff.mp hkey with
    ⟨_, _, s, _, rfl⟩ | ⟨_, s, _, rfl⟩ | ⟨id, _, rfl⟩ <;> exact KeySpace.Names.idKey hwidth _

namespace Net

theorem nets_of_get? (h : diffs.Net were are) {slot : Slot} {d : SlotDiff}
    (hget : diffs.get? slot = some d) :
    d.Nets (occupant were slot) (occupant are slot) (delegatorsIn were slot)
      (delegatorsIn are slot) := by
  have hnets := h.nets slot
  rwa [recorded, hget] at hnets

/-- What is added is there afterwards. -/
theorem mem_of_adds (h : diffs.Net were are) {slot : Slot} {d : SlotDiff}
    (hget : diffs.get? slot = some d) (hs : d.Adds s) : s ∈ are := by
  have hnets := h.nets_of_get? hget
  rcases hs with ⟨hstatus, hv⟩ | hs
  · exact mem_of_occupant ((hnets.added hstatus).1.symm.trans hv)
  · exact (hnets.addedDelegators.mem_values.mp hs).1.1

theorem get?_of_recorded {slot : Slot} (h : diffs.recorded slot ≠ {}) :
    diffs.get? slot = some (diffs.recorded slot) := by
  unfold recorded at h ⊢
  cases hget : diffs.get? slot with
  | none =>
      rw [hget] at h
      exact absurd rfl h
  | some d => rfl

/-- What is new is added. -/
theorem adds_of_new (h : diffs.Net were are) (hone : OneValidatorPerSlot are) (hs : s ∈ are)
    (hnew : s ∉ were) : ∃ d, diffs.get? s.slot = some d ∧ d.Adds s := by
  have hnets := h.nets s.slot
  have hadds : (diffs.recorded s.slot).Adds s := by
    cases hv : s.isValidator with
    | true =>
        have hafter := (occupant_eq_some_iff hone).mpr ⟨hs, hv, rfl⟩
        rw [hafter] at hnets
        cases hstatus : (diffs.recorded s.slot).status with
        | unmodified => exact absurd (mem_of_occupant (hnets.unmodified hstatus).2.2.symm) hnew
        | added => exact Or.inl ⟨hstatus, (hnets.added hstatus).1⟩
        | deleted => cases (hnets.deleted hstatus).2.2.2
    | false =>
        refine Or.inr (hnets.addedDelegators.mem_values.mpr ⟨⟨hs, hv, rfl⟩, ?_⟩)
        exact fun hwas => hnew hwas.1
  refine ⟨_, get?_of_recorded fun hempty => ?_, hadds⟩
  rw [hempty] at hadds
  rcases hadds with ⟨hstatus, _⟩ | hmem
  · cases hstatus
  · cases hmem

/-- What is gone is deleted. -/
theorem deletes_of_gone (h : diffs.Net were are) (hone : OneValidatorPerSlot were)
    (hs : s ∈ were) (hgone : s ∉ are) :
    space.idKey s.txId ∈ (diffs.stakerWrites space).deletes := by
  have hnets := h.nets s.slot
  have hdeletes : space.idKey s.txId ∈ ((diffs.recorded s.slot).stakerWrites space).deletes := by
    rw [SlotDiff.mem_deletes_iff]
    cases hv : s.isValidator with
    | true =>
        have hbefore := (occupant_eq_some_iff hone).mpr ⟨hs, hv, rfl⟩
        rw [hbefore] at hnets
        cases hstatus : (diffs.recorded s.slot).status with
        | unmodified => exact absurd (mem_of_occupant (hnets.unmodified hstatus).2.2) hgone
        | added =>
            obtain ⟨hvalidator, hafter, hsuperseded⟩ := hnets.added hstatus
            exact Or.inl ⟨rfl, hvalidator ▸ hafter, s, hsuperseded, rfl⟩
        | deleted => exact Or.inr (Or.inl ⟨rfl, s, (hnets.deleted hstatus).1, rfl⟩)
    | false =>
        have hmem : s ∈ delegatorsIn were s.slot \ delegatorsIn are s.slot :=
          ⟨⟨hs, hv, rfl⟩, fun hare => hgone hare.1⟩
        have hget := hnets.deletedDelegators.get?_key hmem
        exact Or.inr (Or.inr ⟨s.txId, OrderedMap.mem_keys_iff.mpr ⟨s, hget⟩, rfl⟩)
  refine mem_deletes_iff.mpr ⟨s.slot, _, get?_of_recorded fun hempty => ?_, hdeletes⟩
  rw [hempty] at hdeletes
  cases hdeletes

/-- What is deleted was there before, and is gone unless it is put again. -/
theorem gone_or_adds_of_deletes (h : diffs.Net were are) (hone : OneValidatorPerSlot are)
    {key : Bytes} (hkey : key ∈ (diffs.stakerWrites space).deletes) :
    ∃ s ∈ were, key = space.idKey s.txId ∧
      (s ∈ are → ∃ slot d, diffs.get? slot = some d ∧ d.Adds s) := by
  obtain ⟨slot, d, hget, hkey⟩ := mem_deletes_iff.mp hkey
  have hnets := h.nets_of_get? hget
  rcases SlotDiff.mem_deletes_iff.mp hkey with
    ⟨hstatus, _, s, hold, rfl⟩ | ⟨hstatus, s, hold, rfl⟩ | ⟨id, hid, rfl⟩
  · obtain ⟨hvalidator, hafter, hsuperseded⟩ := hnets.added hstatus
    have hbefore : occupant were slot = some s := hsuperseded.symm.trans hold
    refine ⟨s, mem_of_occupant hbefore, rfl, fun hs => ⟨slot, d, hget, Or.inl ⟨hstatus, ?_⟩⟩⟩
    obtain ⟨v, hv⟩ := Option.isSome_iff_exists.mp hafter
    obtain ⟨hmem, hisValidator, hslot⟩ := (occupant_eq_some_iff hone).mp hv
    obtain ⟨_, hisValidator', hslot'⟩ := spec_of_occupant hbefore
    rw [hvalidator, hv, hone v hmem s hs hisValidator hisValidator' (hslot.trans hslot'.symm)]
  · obtain ⟨hvalidator, _, _, hafter⟩ := hnets.deleted hstatus
    have hbefore : occupant were slot = some s := hvalidator.symm.trans hold
    obtain ⟨_, hisValidator, hslot⟩ := spec_of_occupant hbefore
    refine ⟨s, mem_of_occupant hbefore, rfl, fun hs => ?_⟩
    exact absurd hslot (occupant_eq_none_iff.mp hafter s hs hisValidator)
  · obtain ⟨s, hs⟩ := OrderedMap.mem_keys_iff.mp hid
    obtain ⟨⟨hwas, hnot⟩, rfl⟩ := (hnets.deletedDelegators id s).mp hs
    exact ⟨s, hwas.1, rfl, fun hare => absurd ⟨hare, hwas.2⟩ hnot⟩

theorem fits (h : diffs.Net were are) (hone : OneValidatorPerSlot are)
    (hencodable : diffs.encodable = true) (hwere : ∀ t ∈ were, Codec.fits t = true) :
    ∀ t ∈ are, Codec.fits t = true := by
  intro t ht
  by_cases hwas : t ∈ were
  · exact hwere t hwas
  · obtain ⟨d, hget, hadds⟩ := h.adds_of_new hone ht hwas
    exact SlotDiff.fits_of_encodable
      (List.all_eq_true.mp hencodable d (OrderedMap.mem_values_iff.mpr ⟨_, hget⟩)) hadds

/-- Writing a net change makes the store keep the later set. -/
theorem keepsStakers (h : diffs.Net were are) (hwere : OneValidatorPerSlot were)
    (hare : OneValidatorPerSlot are) (htx : were.InjOn Staker.txId) (htx' : are.InjOn Staker.txId)
    {store store' : Store} (hstore : store.KeepsStakers space were)
    (hget : ∀ id, store'.get? (space.idKey id) =
      (lastValue? (diffs.stakerWrites space).puts (space.idKey id)).or
        (if space.idKey id ∈ (diffs.stakerWrites space).deletes then none
          else store.get? (space.idKey id))) : store'.KeepsStakers space are := by
  intro id value
  rw [hget]
  -- The last put under a key wins, else a delete, else what the store had.
  cases hlast : lastValue? (diffs.stakerWrites space).puts (space.idKey id) with
  | some v =>
      obtain ⟨slot, d, s, hslot, hadds, heq⟩ := mem_puts_iff.mp (mem_of_lastValue?_eq_some hlast)
      obtain ⟨hkey, rfl⟩ := Prod.ext_iff.mp heq
      have hs := h.mem_of_adds hslot hadds
      rw [Option.some_or, Option.some.injEq]
      constructor
      · rintro rfl
        exact ⟨s, hs, (KeySpace.idKey_inj.mp hkey).symm, rfl⟩
      · rintro ⟨t, ht, rfl, rfl⟩
        rw [htx' hs ht (KeySpace.idKey_inj.mp hkey).symm]
  | none =>
      have hnotPut := lastValue?_eq_none_iff.mp hlast
      rw [Option.none_or]
      constructor
      · intro hkept
        split at hkept
        · cases hkept
        next hnotDeleted =>
        obtain ⟨s, hs, rfl, rfl⟩ := (hstore id value).mp hkept
        refine ⟨s, ?_, rfl, rfl⟩
        by_contra hgone
        exact hnotDeleted (h.deletes_of_gone hwere hs hgone)
      · rintro ⟨s, hs, rfl, rfl⟩
        have hnotAdded : ∀ slot d, diffs.get? slot = some d → ¬ d.Adds s :=
          fun slot d hslot hadds =>
            hnotPut _ (mem_puts_iff.mpr ⟨slot, d, s, hslot, hadds, rfl⟩)
        have hwas : s ∈ were := by
          by_contra hnew
          obtain ⟨d, hslot, hadds⟩ := h.adds_of_new hare hs hnew
          exact hnotAdded _ d hslot hadds
        rw [if_neg]
        · exact (hstore _ _).mpr ⟨s, hwas, rfl, rfl⟩
        · intro hdeleted
          obtain ⟨t, ht, hkey, hagain⟩ := h.gone_or_adds_of_deletes hare hdeleted
          cases htx hwas ht (KeySpace.idKey_inj.mp hkey)
          obtain ⟨slot, d, hslot, hadds⟩ := hagain hs
          exact hnotAdded slot d hslot hadds

end Net

end SlotDiffs

end StakingLedger
