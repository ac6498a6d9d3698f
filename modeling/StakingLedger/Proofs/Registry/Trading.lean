import StakingLedger.Operator
import StakingLedger.Proofs.Ledger.StakerReplay
import StakingLedger.Proofs.Registry.WholeSet

/-! # Folding a layer under any writes

A layer trades stakers: it deletes some that were there and puts some that were
not. Whatever the slots hold, the fold of the layer then deletes just the former
and puts none but the latter, so that the whole sets below come out accordingly.
-/

namespace StakingLedger

/-! ## One slot -/

/-- The diff puts none but the arrived, and marks none as deleted but the gone. -/
structure SlotDiff.Trades (d : SlotDiff) (gone arrived : Set Staker) : Prop where
  arrivals : ∀ x ∈ d.arrivals, x ∈ arrived
  deletions : ∀ id, d.deletedDelegators.contains id = true → ∃ x ∈ gone, x.txId = id

namespace SlotDiff.Trades

variable {d : SlotDiff} {gone arrived : Set Staker} {x : Staker}

theorem empty : SlotDiff.Trades {} gone arrived where
  arrivals _ hx := absurd hx List.not_mem_nil
  deletions _ hid := by cases hid

theorem mono (h : d.Trades gone arrived) (x : Staker) : d.Trades (insert x gone) arrived where
  arrivals := h.arrivals
  deletions id hid := by
    obtain ⟨y, hy, heq⟩ := h.deletions id hid
    exact ⟨y, Or.inr hy, heq⟩

theorem of_delegators (h : d.Trades gone arrived) {d' : SlotDiff} (hstatus : d'.status ≠ .added)
    (hadded : d'.addedDelegators = d.addedDelegators)
    (hdeleted : d'.deletedDelegators = d.deletedDelegators) : d'.Trades gone arrived where
  arrivals y hy := by
    rw [SlotDiff.arrivals, if_neg hstatus, hadded] at hy
    exact h.arrivals y (List.mem_append_right _ hy)
  deletions := hdeleted ▸ h.deletions

theorem putValidator (h : d.Trades gone arrived) (hx : x ∈ arrived) :
    (d.putValidator x).Trades gone arrived where
  arrivals y hy := by
    rcases List.mem_append.mp hy with hy | hy
    · rw [List.mem_singleton.mp hy]
      exact hx
    · exact h.arrivals y (List.mem_append_right _ hy)
  deletions := h.deletions

theorem deleteValidator (h : d.Trades gone arrived) : (d.deleteValidator x).Trades gone arrived := by
  unfold SlotDiff.deleteValidator
  split
  · split
    · exact h.of_delegators nofun rfl rfl
    · exact h.of_delegators nofun rfl rfl
  · exact h.of_delegators nofun rfl rfl

theorem putDelegator (h : d.Trades gone arrived) (hx : x ∈ arrived)
    (hnew : ∀ y ∈ gone, y.txId ≠ x.txId) : (d.putDelegator x).Trades gone arrived := by
  unfold SlotDiff.putDelegator
  split
  next hrestores =>
    obtain ⟨y, hy, heq⟩ := h.deletions _ hrestores
    exact absurd heq (hnew y hy)
  next =>
    refine ⟨fun y hy => ?_, h.deletions⟩
    rcases List.mem_append.mp hy with hy | hy
    · exact h.arrivals y (List.mem_append_left _ hy)
    · obtain ⟨k, hget⟩ := OrderedMap.mem_values_iff.mp hy
      dsimp only at hget
      rw [OrderedMap.get?_insert] at hget
      split at hget
      · cases hget
        exact hx
      · exact h.arrivals y (List.mem_append_right _ (OrderedMap.mem_values_iff.mpr ⟨k, hget⟩))

theorem deleteDelegator (h : d.Trades gone arrived) :
    (d.deleteDelegator x).Trades (insert x gone) arrived := by
  unfold SlotDiff.deleteDelegator
  split
  next =>
    refine ⟨fun y hy => ?_, (h.mono x).deletions⟩
    rcases List.mem_append.mp hy with hy | hy
    · exact h.arrivals y (List.mem_append_left _ hy)
    · obtain ⟨k, hget⟩ := OrderedMap.mem_values_iff.mp hy
      dsimp only at hget
      rw [OrderedMap.get?_erase] at hget
      split at hget
      · cases hget
      · exact h.arrivals y (List.mem_append_right _ (OrderedMap.mem_values_iff.mpr ⟨k, hget⟩))
  next =>
    refine ⟨h.arrivals, fun id hid => ?_⟩
    obtain ⟨y, hget⟩ := OrderedMap.contains_eq_true_iff.mp hid
    dsimp only at hget
    rw [OrderedMap.get?_insert] at hget
    split at hget
    next heq => exact ⟨x, Or.inl rfl, (Std.LawfulEqCmp.eq_of_compare heq).symm⟩
    next => exact (h.mono x).deletions id (OrderedMap.contains_eq_true_iff.mpr ⟨y, hget⟩)

end SlotDiff.Trades

namespace SlotDiffs

variable {diffs : SlotDiffs} {P : SlotDiff → Prop}

theorem recorded_of_forall (h : ∀ slot d, diffs.get? slot = some d → P d) (hempty : P {})
    (slot : Slot) : P (diffs.recorded slot) := by
  unfold recorded
  cases hget : diffs.get? slot with
  | none => exact hempty
  | some d => exact h slot d hget

end SlotDiffs

/-! ## The registry of a layer -/

/-- The overlay deletes just the gone and puts none but the arrived. -/
structure RegistryOverlay.Trades (o : RegistryOverlay) (gone arrived : Set Staker) : Prop where
  deleted : o.deleted.Indexes Staker.txId gone
  added : ∀ k, o.added.contains k = true → ∃ x ∈ arrived, x.key = k
  diffs : ∀ slot d, o.diffs.get? slot = some d → d.Trades gone arrived

namespace RegistryOverlay.Trades

variable {o : RegistryOverlay} {gone arrived : Set Staker} {x : Staker} {phase : Phase}

theorem empty : RegistryOverlay.Trades {} ∅ arrived where
  deleted := OrderedMap.Indexes.empty
  added _ hk := by cases hk
  diffs _ _ hget := by cases hget

theorem recorded (h : o.Trades gone arrived) (slot : Slot) :
    (o.diffs.recorded slot).Trades gone arrived :=
  SlotDiffs.recorded_of_forall h.diffs .empty slot

/-- Adding to the flat index of additions, and erasing from it, brings in no one else. -/
theorem exists_of_contains_insert {tree : StakerTree}
    (htree : ∀ k, tree.contains k = true → ∃ x ∈ arrived, x.key = k) (hx : x ∈ arrived)
    {k : StakerKey} (hk : (tree.insert x.key x).contains k = true) : ∃ x ∈ arrived, x.key = k := by
  rw [OrderedMap.contains, OrderedMap.get?_insert] at hk
  split at hk
  next heq => exact ⟨x, hx, (Std.LawfulEqCmp.eq_of_compare heq).symm⟩
  next => exact htree k hk

theorem exists_of_contains_erase {tree : StakerTree}
    (htree : ∀ k, tree.contains k = true → ∃ x ∈ arrived, x.key = k) {gap k : StakerKey}
    (hk : (tree.erase gap).contains k = true) : ∃ x ∈ arrived, x.key = k := by
  rw [OrderedMap.contains, OrderedMap.get?_erase] at hk
  split at hk
  · cases hk
  · exact htree k hk

theorem putValidator (h : o.Trades gone arrived) (hx : x ∈ arrived) :
    (o.putValidator x).Trades gone arrived where
  deleted := h.deleted
  added k hk := by
    unfold RegistryOverlay.putValidator at hk
    dsimp only at hk
    split at hk
    · exact exists_of_contains_insert (fun k hk => exists_of_contains_erase h.added hk) hx hk
    · exact exists_of_contains_insert h.added hx hk
  diffs slot d hget := SlotDiffs.forall_update h.diffs ((h.recorded x.slot).putValidator hx) hget

theorem putDelegator (h : o.Trades gone arrived) (hx : x ∈ arrived)
    (hnew : ∀ y ∈ gone, y.txId ≠ x.txId) : (o.putDelegator x).Trades gone arrived := by
  have hdiffs : ∀ slot d, (o.diffs.updatePruned x.slot (·.putDelegator x)).get? slot = some d →
      d.Trades gone arrived := fun slot d hget =>
    SlotDiffs.forall_updatePruned h.diffs (fun _ => (h.recorded x.slot).putDelegator hx hnew) hget
  unfold RegistryOverlay.putDelegator
  dsimp only
  split
  next hrestores =>
    obtain ⟨y, hy, heq⟩ := (h.recorded x.slot).deletions _ hrestores
    exact absurd heq (hnew y hy)
  next => exact ⟨h.deleted, fun k hk => exists_of_contains_insert h.added hx hk, hdiffs⟩

/-- Whoever was not put by the layer is marked as deleted. -/
theorem forget (h : o.Trades gone arrived) (hnew : ∀ y ∈ gone, y.txId = x.txId → y = x)
    (hbelow : ∀ y ∈ arrived, y.txId ≠ x.txId) :
    (o.forget x).deleted.Indexes Staker.txId (insert x gone) ∧ (o.forget x).added = o.added := by
  unfold RegistryOverlay.forget
  split
  next hadded =>
    obtain ⟨y, hy, hkey⟩ := h.added _ hadded
    exact absurd (Staker.txId_of_key_eq hkey) (hbelow y hy)
  next => exact ⟨h.deleted.insert hnew, rfl⟩

theorem deleteValidator (h : o.Trades gone arrived) (hnew : ∀ y ∈ gone, y.txId = x.txId → y = x)
    (hbelow : ∀ y ∈ arrived, y.txId ≠ x.txId) :
    (o.deleteValidator x).Trades (insert x gone) arrived where
  deleted := (h.forget hnew hbelow).1
  added k hk := h.added k ((h.forget hnew hbelow).2 ▸ hk)
  diffs _ _ hget := SlotDiffs.forall_updatePruned
    (fun slot d hget => (h.diffs slot d hget).mono x)
    (fun _ => (h.recorded x.slot).deleteValidator.mono x) hget

theorem deleteDelegator (h : o.Trades gone arrived) (hnew : ∀ y ∈ gone, y.txId = x.txId → y = x)
    (hbelow : ∀ y ∈ arrived, y.txId ≠ x.txId) :
    (o.deleteDelegator x).Trades (insert x gone) arrived where
  deleted := (h.forget hnew hbelow).1
  added k hk := h.added k ((h.forget hnew hbelow).2 ▸ hk)
  diffs _ _ hget := SlotDiffs.forall_updatePruned
    (fun slot d hget => (h.diffs slot d hget).mono x)
    (fun _ => (h.recorded x.slot).deleteDelegator) hget

/-- The fold deletes whoever is gone. -/
theorem delete_mem_writes (h : o.Trades gone arrived) (hx : x ∈ gone) :
    .delete phase x ∈ o.writes phase :=
  List.mem_append_left _ (List.mem_map_of_mem (h.deleted.mem_values.mpr hx))

/-- The fold puts none but the arrived. -/
theorem mem_of_puts (h : o.Trades gone arrived) {w : Write} (hw : w ∈ o.writes phase)
    (hputs : w.Puts phase x) : x ∈ arrived := by
  rcases List.mem_append.mp hw with hw | hw
  · obtain ⟨y, _, rfl⟩ := List.mem_map.mp hw
    exact absurd hputs (Write.not_puts_delete phase y)
  · obtain ⟨d, hd, hw⟩ := List.mem_flatMap.mp hw
    obtain ⟨slot, hget⟩ := OrderedMap.mem_values_iff.mp hd
    have harrivals := (h.diffs slot d hget).arrivals
    unfold SlotDiff.arrivals at harrivals
    rcases List.mem_append.mp hw with hw | hw
    · split at hw
      next v hstatus hheld =>
        rw [List.mem_singleton.mp hw] at hputs
        rw [if_pos hstatus, hheld] at harrivals
        obtain rfl : v = x := hputs.unique (Or.inl rfl)
        exact harrivals v (List.mem_append_left _ List.mem_cons_self)
      next => cases hw
    · obtain ⟨y, hy, rfl⟩ := List.mem_map.mp hw
      obtain rfl : y = x := hputs.unique (Or.inr rfl)
      exact harrivals y (List.mem_append_right _ hy)

end RegistryOverlay.Trades

section Layer

variable {c : Changes} {w : Write} {writes : List Write} {phase : Phase}
  {gone arrived members : Set Staker}

/-- A write of a layer adds whom it deletes to those who are gone. -/
theorem Changes.trades_write (h : (c.registries.get phase).Trades gone arrived)
    (hputs : ∀ x, w.Puts phase x → x ∈ arrived ∧ ∀ y ∈ gone, y.txId ≠ x.txId)
    (hdeletes : ∀ x, w.Deletes phase x →
      (∀ y ∈ gone, y.txId = x.txId → y = x) ∧ ∀ y ∈ arrived, y.txId ≠ x.txId) :
    ((c.write w).registries.get phase).Trades {x | x ∈ gone ∨ w.Deletes phase x} arrived := by
  -- A write puts one staker of the phase, deletes one, or spares the phase.
  rcases w.puts_or_deletes_or_spares phase with ⟨x, hx⟩ | ⟨x, hx⟩ | hspares
  · have hsame : {y | y ∈ gone ∨ w.Deletes phase y} = gone := by
      ext y
      exact or_iff_left hx.not_deletes
    obtain ⟨hmem, hnew⟩ := hputs x hx
    rw [hsame]
    rcases hx with rfl | rfl
    · change ((c.registries.update phase _).get phase).Trades gone arrived
      rw [ByPhase.get_update_self]
      exact h.putValidator hmem
    · change ((c.registries.update phase _).get phase).Trades gone arrived
      rw [ByPhase.get_update_self]
      exact h.putDelegator hmem hnew
  · have hmore : {y | y ∈ gone ∨ w.Deletes phase y} = insert x gone := by
      ext y
      constructor
      · rintro (hy | hy)
        · exact Or.inr hy
        · exact Or.inl (hx.unique hy)
      · rintro (rfl | hy)
        · exact Or.inr hx
        · exact Or.inl hy
    obtain ⟨hnew, hbelow⟩ := hdeletes x hx
    rw [hmore]
    rcases hx with rfl | rfl
    · change ((c.registries.update phase _).get phase).Trades _ arrived
      rw [ByPhase.get_update_self]
      exact h.deleteValidator hnew hbelow
    · change ((c.registries.update phase _).get phase).Trades _ arrived
      rw [ByPhase.get_update_self]
      exact h.deleteDelegator hnew hbelow
  · have hsame : {y | y ∈ gone ∨ w.Deletes phase y} = gone := by
      ext y
      exact or_iff_left (hspares y).2
    rw [hsame, Changes.registry_write_of_spares hspares]
    exact h

/-- Writes that put some stakers and delete others make the layer trade them. -/
theorem Changes.trades_writeAll (h : (c.registries.get phase).Trades gone arrived)
    (hgone : gone ⊆ members)
    (hputs : ∀ w ∈ writes, ∀ x, w.Puts phase x → x ∈ arrived)
    (hdeletes : ∀ w ∈ writes, ∀ x, w.Deletes phase x → x ∈ members)
    (hinj : members.InjOn Staker.txId)
    (happart : ∀ x ∈ members, ∀ y ∈ arrived, y.txId ≠ x.txId) :
    ((writes.foldl Changes.write c).registries.get phase).Trades
      {x | x ∈ gone ∨ ∃ w ∈ writes, w.Deletes phase x} arrived := by
  -- Those gone so far are members, so nobody who arrives is of a transaction of theirs.
  induction writes generalizing c gone with
  | nil =>
      have hsame : {x | x ∈ gone ∨ ∃ w ∈ ([] : List Write), w.Deletes phase x} = gone := by
        ext x
        simp
      rw [hsame]
      exact h
  | cons w rest ih =>
      have hfirst := hdeletes w List.mem_cons_self
      have hwrite := Changes.trades_write h
        (fun x hx => ⟨hputs w List.mem_cons_self x hx, fun y hy heq =>
          happart y (hgone hy) x (hputs w List.mem_cons_self x hx) heq.symm⟩)
        (fun x hx => ⟨fun y hy heq => hinj (hgone hy) (hfirst x hx) heq,
          happart x (hfirst x hx)⟩)
      have hsub : {x | x ∈ gone ∨ w.Deletes phase x} ⊆ members := by
        intro x hx
        exact hx.elim (fun hx => hgone hx) (hfirst x)
      have hrest := ih hwrite hsub (fun w' hw' => hputs w' (List.mem_cons_of_mem _ hw'))
        fun w' hw' => hdeletes w' (List.mem_cons_of_mem _ hw')
      have hsame : {x | x ∈ {x | x ∈ gone ∨ w.Deletes phase x} ∨ ∃ w ∈ rest, w.Deletes phase x} =
          {x | x ∈ gone ∨ ∃ w' ∈ w :: rest, w'.Deletes phase x} := by
        ext x
        simp only [Set.mem_ofPred_eq, List.exists_mem_cons_iff, or_assoc]
      rw [← hsame]
      exact hrest

end Layer

/-! ## Folding a layer -/

section Fold

variable {s : State} {c : Changes} {o : RegistryOverlay} {e : RecordEdits} {w : Write}
  {writes : List Write} {phase : Phase} {arrived members : Set Staker} {x : Staker}

theorem RegistryOverlay.touches_of_mem_writes (hw : w ∈ o.writes phase) :
    ∃ x, w.Puts phase x ∨ w.Deletes phase x := by
  rcases List.mem_append.mp hw with hw | hw
  · obtain ⟨x, _, rfl⟩ := List.mem_map.mp hw
    exact ⟨x, Or.inr (Write.deletes_delete phase x)⟩
  · obtain ⟨d, _, hw⟩ := List.mem_flatMap.mp hw
    rcases List.mem_append.mp hw with hw | hw
    · split at hw
      next v _ _ => exact ⟨v, Or.inl (Or.inl (List.mem_singleton.mp hw))⟩
      next => cases hw
    · obtain ⟨x, _, rfl⟩ := List.mem_map.mp hw
      exact ⟨x, Or.inl (Or.inr rfl)⟩

theorem Write.IsRecord.leavesStakers (h : w.IsRecord) : w.LeavesStakers := by
  cases w <;> first | exact h.elim | trivial

theorem RecordEdits.isRecord_of_mem_replay (hw : w ∈ e.replay) : w.IsRecord := by
  unfold RecordEdits.replay at hw
  simp only [List.mem_append, List.mem_map, List.mem_flatMap] at hw
  rcases hw with ((((⟨⟨id, utxo?⟩, _, rfl⟩ | ⟨_, _, _, _, rfl⟩) | ⟨_, _, rfl⟩) | ⟨_, _, rfl⟩) |
    ⟨_, _, _, _, rfl⟩) | ⟨_, _, rfl⟩
  · cases utxo? <;> trivial
  all_goals trivial

/-- The writes of a layer are those of its two registries and others that leave the stakers alone. -/
theorem Changes.leaves_or_mem_writes (hw : w ∈ c.writes) :
    w.LeavesStakers ∨ ∃ phase, w ∈ (c.registries.get phase).writes phase := by
  unfold Changes.writes at hw
  simp only [List.mem_append, List.mem_cons, List.not_mem_nil, or_false, List.mem_map] at hw
  rcases hw with (((((rfl | rfl) | ⟨_, _, rfl⟩) | ⟨_, _, rfl⟩) | hw) | hw) | hw
  iterate 4 exact Or.inl trivial
  · exact Or.inr ⟨.current, hw⟩
  · exact Or.inr ⟨.pending, hw⟩
  · exact Or.inl (RecordEdits.isRecord_of_mem_replay hw).leavesStakers

/-- A fold sets no other time than that of the layer. -/
theorem Changes.time_of_mem_writes {time : UInt64} (hw : .setTimestamp time ∈ c.writes) :
    time = c.timestamp := by
  unfold Changes.writes at hw
  simp only [List.mem_append, List.mem_cons, List.not_mem_nil, or_false, List.mem_map] at hw
  rcases hw with (((((hw | hw) | ⟨_, _, hw⟩) | ⟨_, _, hw⟩) | hw) | hw) | hw
  · exact Write.setTimestamp.inj hw
  iterate 3 cases hw
  iterate 2
    obtain ⟨x, (h | h) | (h | h)⟩ := RegistryOverlay.touches_of_mem_writes hw <;> cases h
  · exact (RecordEdits.isRecord_of_mem_replay hw).elim

theorem Changes.mem_registry_writes (hw : w ∈ c.writes)
    (hx : w.Puts phase x ∨ w.Deletes phase x) : w ∈ (c.registries.get phase).writes phase := by
  rcases Changes.leaves_or_mem_writes hw with hleaves | ⟨phase', hw⟩
  · obtain ⟨hputs, hdeletes⟩ := hleaves.spares phase x
    exact (hx.elim hputs hdeletes).elim
  · obtain ⟨y, hy⟩ := RegistryOverlay.touches_of_mem_writes hw
    obtain rfl := Write.phase_eq hy hx
    exact hw

theorem Changes.mem_writes_of_registry (hw : w ∈ (c.registries.get phase).writes phase) :
    w ∈ c.writes := by
  unfold Changes.writes
  cases phase with
  | current => exact List.mem_append_left _ (List.mem_append_left _ (List.mem_append_right _ hw))
  | pending => exact List.mem_append_left _ (List.mem_append_right _ hw)

/-- A layer over the root that puts new stakers and deletes old ones is folded: whoever it deleted
is gone, and whoever is new was put. -/
theorem State.lists_fold (h : (s.registries.get phase).Lists members)
    (hputs : ∀ w ∈ writes, ∀ x, w.Puts phase x → x ∈ arrived)
    (hdeletes : ∀ w ∈ writes, ∀ x, w.Deletes phase x → x ∈ members)
    (hmembers : members.InjOn Staker.txId) (harrived : arrived.InjOn Staker.txId)
    (happart : ∀ x ∈ members, ∀ y ∈ arrived, y.txId ≠ x.txId) (timestamp feePool : UInt64) :
    ∃ members', ((s.fold (writes.foldl Changes.write
        (.untouched timestamp feePool))).registries.get phase).Lists members' ∧
      members' ⊆ {x | x ∈ members ∧ ∀ w ∈ writes, ¬ w.Deletes phase x} ∪ arrived := by
  have hempty : ((Changes.untouched timestamp feePool).registries.get phase).Trades ∅ arrived := by
    cases phase <;> exact .empty
  have htrades := Changes.trades_writeAll hempty (Set.empty_subset _) hputs hdeletes hmembers happart
  have hunion := injOn_txId_union hmembers harrived happart
  obtain ⟨members', hlists, hsub⟩ := State.lists_writeAll h
    (fun w hw x hx => htrades.mem_of_puts (Changes.mem_registry_writes hw (Or.inl hx)) hx) hunion
  refine ⟨members', hlists, fun x hx => ?_⟩
  rcases hsub hx with ⟨hmember, hkept⟩ | harrived
  · refine Or.inl ⟨hmember, fun w hw hdeleted => ?_⟩
    have hreplayed : Write.delete phase x ∈ _ := htrades.delete_mem_writes (Or.inr ⟨w, hw, hdeleted⟩)
    exact hkept _ (Changes.mem_writes_of_registry hreplayed) (Write.deletes_delete phase x)
  · exact Or.inr harrived

end Fold

end StakingLedger
