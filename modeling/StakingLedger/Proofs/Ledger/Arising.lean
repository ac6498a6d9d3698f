import StakingLedger.Proofs.Registry.WholeSet
import StakingLedger.Proofs.State.History

/-! # The ledgers that can come about

Every ledger goes back to a root that was loaded or founded. Nothing is asked of
the writes here, so a staker may be put twice or in the wrong place. Yet each
delegator stands under its own key in its own slot, and each record that waits
under its own identifier: the delegators of a slot are met in order, and deleting
one of them takes it out of the walk.
-/

namespace StakingLedger

/-- Every staker stands under its own key, and all of them belong here. -/
def StakerTree.Files (tree : StakerTree) (belongs : Staker → Prop) : Prop :=
  ∀ k s, tree.get? k = some s → s.key = k ∧ belongs s

namespace StakerTree.Files

variable {tree : StakerTree} {belongs : Staker → Prop} {s : Staker}

theorem empty (belongs : Staker → Prop) : StakerTree.Files .empty belongs :=
  fun _ _ h => by cases h

theorem insert (h : tree.Files belongs) (hs : belongs s) :
    StakerTree.Files (OrderedMap.insert tree s.key s) belongs := by
  intro k t hget
  by_cases hk : k = s.key
  · rw [hk, OrderedMap.get?_insert_self, Option.some.injEq] at hget
    exact hget ▸ ⟨hk.symm, hs⟩
  · rw [OrderedMap.get?_insert_ne _ _ hk] at hget
    exact h k t hget

theorem erase (h : tree.Files belongs) (k : StakerKey) :
    StakerTree.Files (OrderedMap.erase tree k) belongs := by
  intro k' t hget
  by_cases hk : k' = k
  · rw [hk, OrderedMap.get?_erase_self] at hget
    cases hget
  · rw [OrderedMap.get?_erase_ne _ hk] at hget
    exact h k' t hget

theorem of_indexes {members : Set Staker} (h : tree.Indexes Staker.key members)
    (hbelongs : ∀ s ∈ members, belongs s) : tree.Files belongs := by
  intro k s hget
  obtain ⟨hs, hkey⟩ := (h k s).mp hget
  exact ⟨hkey, hbelongs s hs⟩

/-- Such a tree indexes its stakers. -/
theorem indexes (h : tree.Files belongs) : tree.Indexes Staker.key {s | s ∈ tree.values} := by
  intro k s
  change _ ↔ s ∈ tree.values ∧ _
  rw [OrderedMap.mem_values_iff]
  constructor
  · exact fun hget => ⟨⟨k, hget⟩, (h k s hget).1⟩
  · rintro ⟨⟨k', hget⟩, rfl⟩
    rwa [(h k' s hget).1]

theorem belongs_of_mem (h : tree.Files belongs) (hs : s ∈ tree.values) : belongs s := by
  obtain ⟨k, hget⟩ := OrderedMap.mem_values_iff.mp hs
  exact (h k s hget).2

theorem sorted (h : tree.Files belongs) : tree.values.Pairwise fun a b => a.notAfter b = true :=
  h.indexes.enumerates.sorted.imp Staker.notAfter_of_lt

theorem mem_of_contains (h : tree.Files belongs) {k : StakerKey} (hk : tree.contains k = true) :
    ∃ s ∈ tree.values, s.key = k := by
  obtain ⟨s, hget⟩ := OrderedMap.contains_eq_true_iff.mp hk
  exact ⟨s, OrderedMap.mem_values_iff.mpr ⟨k, hget⟩, (h k s hget).1⟩

/-- Erasing a key leaves the stakers of the other keys. -/
theorem values_erase (h : tree.Files belongs) (k : StakerKey) :
    (OrderedMap.erase tree k).values = tree.values.filter fun s => s.key ≠ k :=
  (h.indexes.eraseKey k).enumerates.unique
    ((h.indexes.enumerates.filter _).congr fun s => by simp)

end StakerTree.Files

/-! ## What is recorded of the delegators of a slot -/

namespace SlotDiffs

/-- A record that is dropped says nothing of delegators. -/
theorem delegators_updatePruned (diffs : SlotDiffs) (slot : Slot) (f : SlotDiff → SlotDiff)
    (slot' : Slot) :
    ((diffs.updatePruned slot f).recorded slot').addedDelegators =
        (if slot' = slot then f (diffs.recorded slot) else diffs.recorded slot').addedDelegators ∧
      ((diffs.updatePruned slot f).recorded slot').deletedDelegators =
        (if slot' = slot then f (diffs.recorded slot)
          else diffs.recorded slot').deletedDelegators := by
  unfold updatePruned
  dsimp only
  by_cases hslot : slot' = slot
  · rw [if_pos hslot]
    split
    next hempty =>
      simp only [SlotDiff.isEmpty, Bool.and_eq_true] at hempty
      rw [recorded, hslot, OrderedMap.get?_erase_self, Option.getD_none,
        OrderedMap.eq_empty_of_isEmpty hempty.1.2, OrderedMap.eq_empty_of_isEmpty hempty.2]
      exact ⟨rfl, rfl⟩
    next =>
      rw [recorded, hslot, OrderedMap.get?_insert_self, Option.getD_some]
      exact ⟨rfl, rfl⟩
  · rw [if_neg hslot]
    split
    next => rw [recorded, OrderedMap.get?_erase_ne _ hslot, recorded]; exact ⟨rfl, rfl⟩
    next => rw [recorded, OrderedMap.get?_insert_ne _ _ hslot, recorded]; exact ⟨rfl, rfl⟩

/-- Every added delegator stands under its own key in its own slot. -/
def Files (diffs : SlotDiffs) : Prop :=
  ∀ slot, (diffs.recorded slot).addedDelegators.Files (·.slot = slot)

variable {diffs : SlotDiffs} {s : Staker}

theorem Files.update (h : diffs.Files) {slot : Slot} {f : SlotDiff → SlotDiff}
    (hf : ∀ d, (f d).addedDelegators = d.addedDelegators) : (diffs.update slot f).Files := by
  intro slot'
  rw [recorded_update]
  split
  next hslot => rw [hf, hslot]; exact h slot
  next => exact h slot'

theorem Files.updatePruned (h : diffs.Files) {slot : Slot} {f : SlotDiff → SlotDiff}
    (hf : (f (diffs.recorded slot)).addedDelegators.Files (·.slot = slot)) :
    (diffs.updatePruned slot f).Files := by
  intro slot'
  rw [(diffs.delegators_updatePruned slot f slot').1]
  split
  next hslot => rw [hslot]; exact hf
  next => exact h slot'

theorem Files.deleteValidator (h : diffs.Files) (s : Staker) :
    (diffs.updatePruned s.slot (·.deleteValidator s)).Files := by
  refine h.updatePruned ?_
  have hsame : ((diffs.recorded s.slot).deleteValidator s).addedDelegators =
      (diffs.recorded s.slot).addedDelegators := by
    unfold SlotDiff.deleteValidator
    split
    · split <;> rfl
    · rfl
  rw [hsame]
  exact h s.slot

theorem Files.putDelegator (h : diffs.Files) (s : Staker) :
    (diffs.updatePruned s.slot (·.putDelegator s)).Files := by
  refine h.updatePruned ?_
  unfold SlotDiff.putDelegator
  split
  · exact h s.slot
  · exact (h s.slot).insert rfl

theorem Files.deleteDelegator (h : diffs.Files) (s : Staker) :
    (diffs.updatePruned s.slot (·.deleteDelegator s)).Files := by
  refine h.updatePruned ?_
  unfold SlotDiff.deleteDelegator
  split
  · exact (h s.slot).erase s.key
  · exact h s.slot

end SlotDiffs

/-! ## Filed ledgers -/

/-- Every staker of a registry stands under its own key, and every delegator in its own slot. -/
structure Registry.Files (r : Registry) : Prop where
  all : r.stakers.Files fun _ => True
  delegators : ∀ slot, (r.slotStakers slot).delegators.Files (·.slot = slot)

namespace Registry.Files

variable {r : Registry} {s : Staker}

theorem of_holds {members : Set Staker} (h : r.Holds members) : r.Files where
  all := .of_indexes h.stakers fun _ _ => trivial
  delegators slot := .of_indexes (h.delegators slot) fun _ hs => hs.2.2

theorem clearDiffs (h : r.Files) : r.clearDiffs.Files := ⟨h.all, h.delegators⟩

theorem putValidator (h : r.Files) (s : Staker) : (r.putValidator s).Files where
  all := by
    unfold Registry.putValidator
    dsimp only
    split
    next replaced _ => exact (h.all.erase replaced.key).insert trivial
    next => exact h.all.insert trivial
  delegators slot := by
    rw [Registry.putValidator, slotStakers_insert]
    split
    next hslot => exact hslot ▸ h.delegators s.slot
    next => exact h.delegators slot

theorem deleteValidator (h : r.Files) (s : Staker) : (r.deleteValidator s).Files where
  all := h.all.erase s.key
  delegators slot := by
    rw [Registry.deleteValidator, slotStakers_updateSlot _ _ _ _ rfl]
    split
    next hslot => exact hslot ▸ h.delegators s.slot
    next => exact h.delegators slot

theorem putDelegator (h : r.Files) (s : Staker) : (r.putDelegator s).Files where
  all := h.all.insert trivial
  delegators slot := by
    rw [Registry.putDelegator, slotStakers_insert]
    split
    next hslot => exact hslot ▸ (h.delegators s.slot).insert rfl
    next => exact h.delegators slot

theorem deleteDelegator (h : r.Files) (s : Staker) : (r.deleteDelegator s).Files where
  all := h.all.erase s.key
  delegators slot := by
    rw [Registry.deleteDelegator, slotStakers_updateSlot _ _ _ _ rfl]
    split
    next hslot => exact hslot ▸ (h.delegators s.slot).erase s.key
    next => exact h.delegators slot

end Registry.Files

namespace RegistryOverlay

/-- Every staker that a layer adds stands under its own key, and every delegator in its own
slot. -/
structure Files (o : RegistryOverlay) : Prop where
  added : o.added.Files fun _ => True
  delegators : o.diffs.Files

namespace Files

variable {o : RegistryOverlay}

theorem empty : Files {} := ⟨.empty _, fun _ => .empty _⟩

theorem putValidator (h : o.Files) (s : Staker) : (o.putValidator s).Files where
  added := by
    unfold RegistryOverlay.putValidator
    dsimp only
    split
    next replaced _ => exact (h.added.erase replaced.key).insert trivial
    next => exact h.added.insert trivial
  delegators := h.delegators.update fun _ => rfl

theorem added_forget (h : o.Files) (s : Staker) : (o.forget s).added.Files fun _ => True := by
  unfold forget
  split
  · exact h.added.erase s.key
  · exact h.added

theorem deleteValidator (h : o.Files) (s : Staker) : (o.deleteValidator s).Files :=
  ⟨h.added_forget s, h.delegators.deleteValidator s⟩

theorem putDelegator (h : o.Files) (s : Staker) : (o.putDelegator s).Files where
  added := by
    unfold RegistryOverlay.putDelegator
    dsimp only
    split
    · exact h.added
    · exact h.added.insert trivial
  delegators := by
    rw [diffs_putDelegator]
    exact h.delegators.putDelegator s

theorem deleteDelegator (h : o.Files) (s : Staker) : (o.deleteDelegator s).Files :=
  ⟨h.added_forget s, h.delegators.deleteDelegator s⟩

end Files

end RegistryOverlay

/-- What a root keeps stands where it belongs. -/
structure State.Filed (s : State) : Prop where
  edits : s.unflushed.edits.Filed
  registries : ∀ phase, (s.registries.get phase).Files

/-- What a layer keeps stands where it belongs. -/
structure Changes.Filed (c : Changes) : Prop where
  edits : c.edits.Filed
  registries : ∀ phase, (c.registries.get phase).Files

/-- A property of the values of both phases is kept when that of one phase changes. -/
theorem ByPhase.forall_get_update {α : Type} (holds : α → Prop) {values : ByPhase α}
    (h : ∀ phase, holds (values.get phase)) {phase : Phase} {f : α → α}
    (hphase : holds (f (values.get phase))) (phase' : Phase) :
    holds ((values.update phase f).get phase') := by
  by_cases heq : phase' = phase
  · rw [heq, get_update_self]
    exact hphase
  · rw [get_update_ne _ _ heq]
    exact h phase'

theorem State.Filed.write {s : State} (h : s.Filed) (w : Write) : (s.write w).Filed where
  edits := by
    rw [s.edits_write]
    exact h.edits.record w
  registries := by
    cases w with
    | putValidator phase x =>
        exact ByPhase.forall_get_update _ h.registries ((h.registries phase).putValidator x)
    | deleteValidator phase x =>
        exact ByPhase.forall_get_update _ h.registries ((h.registries phase).deleteValidator x)
    | putDelegator phase x =>
        exact ByPhase.forall_get_update _ h.registries ((h.registries phase).putDelegator x)
    | deleteDelegator phase x =>
        exact ByPhase.forall_get_update _ h.registries ((h.registries phase).deleteDelegator x)
    | _ => exact h.registries

theorem State.Filed.fresh (store : Store) : ({ store := store } : State).Filed :=
  ⟨.empty, fun phase => by cases phase <;> exact Registry.Files.of_holds Registry.Holds.empty⟩

theorem State.Filed.writeAll {s : State} (h : s.Filed) (writes : List Write) :
    (s.writeAll writes).Filed := by
  induction writes generalizing s with
  | nil => exact h
  | cons w rest ih => exact ih (h.write w)

theorem State.Filed.flush {s s' : State} {height : UInt64} (h : s.Filed)
    (hflush : s.flush height = .ok s') : s'.Filed := by
  obtain ⟨hregistries, hunflushed⟩ := State.registries_of_flush hflush
  refine ⟨?_, fun phase => ?_⟩
  · rw [hunflushed]
    exact .empty
  · rw [hregistries]
    exact (h.registries phase).clearDiffs

theorem Changes.Filed.write {c : Changes} (h : c.Filed) (w : Write) : (c.write w).Filed where
  edits := by
    rw [c.edits_write]
    exact h.edits.record w
  registries := by
    cases w with
    | putValidator phase x =>
        exact ByPhase.forall_get_update _ h.registries ((h.registries phase).putValidator x)
    | deleteValidator phase x =>
        exact ByPhase.forall_get_update _ h.registries ((h.registries phase).deleteValidator x)
    | putDelegator phase x =>
        exact ByPhase.forall_get_update _ h.registries ((h.registries phase).putDelegator x)
    | deleteDelegator phase x =>
        exact ByPhase.forall_get_update _ h.registries ((h.registries phase).deleteDelegator x)
    | _ => exact h.registries

namespace Ledger

/-- What a ledger keeps stands where it belongs, and so does what its parents keep. -/
def Filed : Ledger → Prop
  | root s => s.Filed
  | layer parent _ _ c => parent.Filed ∧ c.Filed

/-- The ledgers that there can be. Writes are not restricted. -/
inductive Arises : Ledger → Prop
  | loaded {store : Store} {s : State} (h : State.load store = .ok s) : Arises (root s)
  | founded {store : Store} {g : Genesis} {config : StakingConfig} {s : State}
    (h : State.fromGenesis store g config = .ok s) : Arises (root s)
  | committed {s s' : State} {height : UInt64} (h : Arises (root s))
    (hcommit : s.commit height = .ok s') : Arises (root s')
  | opened {parent : Ledger} (id : EntityId) (h : Arises parent) :
    Arises (layer parent id true (.untouched parent.timestamp parent.feePool))
  /-- The parent is looked up at every read: by then it may be another ledger or out of reach. -/
  | reparented {parent parent' : Ledger} {id : EntityId} {reachable : Bool} {c : Changes}
    (reachable' : Bool) (h : Arises (layer parent id reachable c)) (hparent : Arises parent') :
    Arises (layer parent' id reachable' c)
  | written {l : Ledger} (w : Write) (h : Arises l) : Arises (l.write w)

variable {l : Ledger} {w : Write}

theorem Filed.write (h : l.Filed) (w : Write) : (l.write w).Filed := by
  cases l with
  | root s => exact State.Filed.write h w
  | layer parent id reachable c => exact ⟨h.1, h.2.write w⟩

theorem Arises.filed (h : l.Arises) : l.Filed := by
  induction h with
  | loaded hload =>
      obtain ⟨hregistries, hedits⟩ := State.registries_of_load hload
      refine ⟨hedits ▸ .empty, fun phase => ?_⟩
      obtain ⟨members, hholds, _⟩ := hregistries phase
      exact .of_holds hholds
  | founded hfounded =>
      obtain ⟨record⟩ := State.genesisRecord_of_fromGenesis hfounded
      exact (State.Filed.fresh _).writeAll _ |>.flush record.flushed
  | committed _ hcommit ih => exact State.Filed.flush ih (State.flush_of_commit hcommit).1
  | opened id _ ih => exact ⟨ih, .empty, fun phase => by cases phase <;> exact .empty⟩
  | reparented _ _ _ ih ih' => exact ⟨ih', ih.2⟩
  | written w _ ih => exact ih.write w

/-! ## The walk over the delegators of a slot -/

section Walks

variable {phase : Phase} {slot : Slot} {walk : StakerSeq} {s : Staker}

/-- Delegators are met unless a parent is out of reach. -/
theorem delegators_eq_error {e : LedgerError} (h : l.delegators phase slot = .error e) :
    ∃ id, e = .missingParent id := by
  induction l with
  | root s => cases h
  | layer parent id reachable c ih =>
      cases reachable with
      | false =>
          cases h
          exact ⟨id, rfl⟩
      | true =>
          refine ih ?_
          change (parent.delegators phase slot >>= fun below =>
            .ok ((c.registries.get phase).delegators below slot)) = _ at h
          cases hbelow : parent.delegators phase slot with
          | error e' =>
              rw [hbelow] at h
              exact h
          | ok below =>
              rw [hbelow] at h
              cases h

theorem delegators_layer {parent : Ledger} {id : EntityId} {reachable : Bool} {c : Changes}
    (h : (layer parent id reachable c).delegators phase slot = .ok walk) :
    reachable = true ∧ ∃ below, parent.delegators phase slot = .ok below ∧
      walk = (c.registries.get phase).delegators below slot := by
  obtain ⟨below, hbelow, hwalk⟩ := bind_eq_ok_iff.mp h
  cases reachable with
  | false => cases hbelow
  | true => exact ⟨rfl, below, hbelow, (Except.ok.inj hwalk).symm⟩

end Walks

end Ledger

/-- The delegators of the parent that the layer does not hide, merged with those that it adds. -/
theorem RegistryOverlay.toList_delegators (o : RegistryOverlay) (below : StakerSeq) (slot : Slot) :
    (o.delegators below slot).toList =
      StakerSeq.mergeLists
        (below.toList.filter fun s => !(o.diffs.recorded slot).deletedDelegators.contains s.txId)
        (o.diffs.recorded slot).addedDelegators.values := by
  unfold delegators SlotDiffs.recorded
  cases o.diffs.get? slot with
  | some d =>
      dsimp only
      rw [StakerSeq.toList_merge, StakerSeq.toList_mask, StakerSeq.toList_ofTree, Option.getD_some]
  | none =>
      have hall : below.toList.filter (fun s =>
          !(OrderedMap.empty : DeletedStakers).contains s.txId) = below.toList :=
        List.filter_eq_self.mpr fun _ _ => rfl
      rw [Option.getD_none, hall]
      exact (StakerSeq.mergeLists_nil _).symm

namespace Ledger.Filed

variable {l : Ledger} {phase : Phase} {slot : Slot} {walk : StakerSeq} {s : Staker}

/-- The delegators of a slot are met in their order. -/
theorem delegators_sorted (h : l.Filed) (hread : l.delegators phase slot = .ok walk) :
    walk.toList.Pairwise (fun a b => a.notAfter b = true) ∧ ∀ s ∈ walk.toList, s.slot = slot := by
  induction l generalizing walk with
  | root s =>
      cases hread
      have hfiles := (h.registries phase).delegators slot
      rw [Registry.delegators, StakerSeq.toList_ofTree]
      exact ⟨hfiles.sorted, fun s hs => hfiles.belongs_of_mem hs⟩
  | layer parent id reachable c ih =>
      obtain ⟨_, below, hbelow, rfl⟩ := delegators_layer hread
      obtain ⟨hsorted, hslot⟩ := ih h.1 hbelow
      have hfiles := (h.2.registries phase).delegators slot
      rw [RegistryOverlay.toList_delegators]
      refine ⟨StakerSeq.sorted_mergeLists (hsorted.filter _) hfiles.sorted, fun s hs => ?_⟩
      rcases List.mem_append.mp ((StakerSeq.mergeLists_perm _ _).mem_iff.mp hs) with hs | hs
      · exact hslot s (List.mem_of_mem_filter hs)
      · exact hfiles.belongs_of_mem hs

/-- In a walk without two delegators of one transaction, hiding a transaction or the key of its
delegator is the same. -/
theorem filter_key_eq {met : List Staker} (hunique : (met.map Staker.txId).Nodup) (hs : s ∈ met) :
    (met.filter fun t => t.key ≠ s.key) = met.filter fun t => t.txId ≠ s.txId := by
  refine List.filter_congr fun t ht => ?_
  rw [decide_eq_decide, not_iff_not]
  exact ⟨Staker.txId_of_key_eq, fun htx => by rw [List.inj_on_of_nodup_map hunique ht hs htx]⟩

theorem eq_of_perm {met met' : List Staker} (hperm : met.Perm met')
    (hsorted : met.Pairwise fun a b => a.notAfter b = true)
    (hsorted' : met'.Pairwise fun a b => a.notAfter b = true)
    (hunique : (met'.map Staker.txId).Nodup) : met = met' := by
  refine hperm.eq_of_pairwise (fun a b ha hb hab hba => ?_) hsorted hsorted'
  exact List.inj_on_of_nodup_map hunique (hperm.mem_iff.mp ha) hb
    (Staker.txId_of_key_eq (Staker.key_eq_of_notAfter hab hba))

/-- Deleting a delegator that is met takes it out of what is hidden or added of its slot. -/
theorem append_deleteDelegator {d : SlotDiff} {below : List Staker} {slot : Slot}
    (hfiles : d.addedDelegators.Files (·.slot = slot))
    (hunique : (((below.filter fun t => !d.deletedDelegators.contains t.txId) ++
      d.addedDelegators.values).map Staker.txId).Nodup)
    (hs : s ∈ (below.filter fun t => !d.deletedDelegators.contains t.txId) ++
      d.addedDelegators.values) :
    (below.filter fun t => !(d.deleteDelegator s).deletedDelegators.contains t.txId) ++
        (d.deleteDelegator s).addedDelegators.values =
      ((below.filter fun t => !d.deletedDelegators.contains t.txId) ++
        d.addedDelegators.values).filter fun t => t.txId ≠ s.txId := by
  have hinj := fun t ht => List.inj_on_of_nodup_map hunique (x := t) ht hs
  rw [List.map_append, List.nodup_append] at hunique
  obtain ⟨_, hadded, hapart⟩ := hunique
  rw [List.filter_append]
  unfold SlotDiff.deleteDelegator SlotDiff.cancelsDelegator
  split
  next hcancels =>
    -- The layer had added it, so nobody below is of its transaction.
    obtain ⟨t, ht, hkey⟩ := hfiles.mem_of_contains hcancels
    have htx := Staker.txId_of_key_eq hkey
    obtain rfl := hinj t (List.mem_append_right _ ht) htx
    have hbelow : (below.filter fun t => !d.deletedDelegators.contains t.txId).filter
        (fun u => u.txId ≠ t.txId) = below.filter fun t => !d.deletedDelegators.contains t.txId := by
      refine List.filter_eq_self.mpr fun u hu => decide_eq_true fun heq => ?_
      exact hapart _ (List.mem_map_of_mem hu) _ (List.mem_map_of_mem ht) heq
    rw [hbelow, ← filter_key_eq hadded ht, ← hfiles.values_erase]
  next hkept =>
    -- It is one of those below, so nobody that the layer added is of its transaction.
    have hs : s ∈ below.filter fun t => !d.deletedDelegators.contains t.txId := by
      refine (List.mem_append.mp hs).resolve_right fun hmem => hkept ?_
      exact hfiles.indexes.contains_iff.mpr ⟨s, hmem, rfl⟩
    have hsame : d.addedDelegators.values.filter (fun t => t.txId ≠ s.txId) =
        d.addedDelegators.values := by
      refine List.filter_eq_self.mpr fun u hu => decide_eq_true fun heq => ?_
      exact hapart _ (List.mem_map_of_mem hs) _ (List.mem_map_of_mem hu) heq.symm
    rw [hsame, List.filter_filter]
    refine congrArg (· ++ _) (List.filter_congr fun t _ => ?_)
    by_cases htx : t.txId = s.txId
    · simp [OrderedMap.contains, htx, OrderedMap.get?_insert_self]
    · simp [OrderedMap.contains, htx, OrderedMap.get?_insert_ne _ _ htx]

/-- A delegator that is met and deleted is not met any more; the others are. -/
theorem delegators_delete (h : l.Filed) (hread : l.delegators phase slot = .ok walk)
    (hunique : (walk.toList.map Staker.txId).Nodup) (hs : s ∈ walk.toList) :
    ∃ walk', (l.write (.deleteDelegator phase s)).delegators phase slot = .ok walk' ∧
      walk'.toList = walk.toList.filter fun t => t.txId ≠ s.txId := by
  obtain ⟨hsorted, hslot⟩ := h.delegators_sorted hread
  obtain rfl := hslot s hs
  cases l with
  | root state =>
      cases hread
      rw [Registry.delegators, StakerSeq.toList_ofTree] at hunique hs ⊢
      refine ⟨_, rfl, ?_⟩
      change (((state.registries.update phase _).get phase).delegators s.slot).toList = _
      rw [ByPhase.get_update_self, Registry.delegators, StakerSeq.toList_ofTree,
        Registry.deleteDelegator, Registry.slotStakers_updateSlot _ _ _ _ rfl, if_pos rfl,
        ((h.registries phase).delegators s.slot).values_erase, filter_key_eq hunique hs]
  | layer parent id reachable c =>
      obtain ⟨rfl, below, hbelow, rfl⟩ := delegators_layer hread
      have hwritten : ((layer parent id true c).write (.deleteDelegator phase s)).delegators phase
          s.slot = .ok (((c.registries.get phase).deleteDelegator s).delegators below s.slot) := by
        refine bind_eq_ok_iff.mpr ⟨below, hbelow, congrArg Except.ok ?_⟩
        change RegistryOverlay.delegators ((c.registries.update phase _).get phase) below _ = _
        rw [ByPhase.get_update_self]
      refine ⟨_, hwritten, ?_⟩
      have hperm := StakerSeq.mergeLists_perm
        (below.toList.filter fun t =>
          !((c.registries.get phase).diffs.recorded s.slot).deletedDelegators.contains t.txId)
        ((c.registries.get phase).diffs.recorded s.slot).addedDelegators.values
      refine eq_of_perm ?_ ((h.write _).delegators_sorted hwritten).1 (hsorted.filter _)
        (hunique.sublist (List.filter_sublist.map _))
      rw [RegistryOverlay.toList_delegators] at hunique hs ⊢
      rw [RegistryOverlay.toList_delegators, RegistryOverlay.diffs_deleteDelegator,
        (SlotDiffs.delegators_updatePruned _ _ _ _).1, (SlotDiffs.delegators_updatePruned _ _ _ _).2,
        if_pos rfl]
      refine (StakerSeq.mergeLists_perm _ _).trans (.trans (.of_eq ?_) (hperm.filter _).symm)
      exact append_deleteDelegator ((h.2.registries phase).delegators s.slot)
        ((hperm.map _).nodup_iff.mp hunique) (hperm.mem_iff.mp hs)

theorem delegators_write_ne {phase' : Phase} (hne : phase ≠ phase') (l : Ledger) (s : Staker)
    (slot : Slot) :
    (l.write (.deleteDelegator phase' s)).delegators phase slot = l.delegators phase slot := by
  cases l with
  | root state =>
      change Except.ok (Registry.delegators ((state.registries.update phase' _).get phase) slot) = _
      rw [ByPhase.get_update_ne _ _ hne]
      rfl
  | layer parent id reachable c =>
      change (throughParent id reachable (parent.delegators phase slot) >>= fun below =>
        .ok (RegistryOverlay.delegators ((c.registries.update phase' _).get phase) below slot)) = _
      rw [ByPhase.get_update_ne _ _ hne]
      rfl

theorem writeAll (h : l.Filed) (writes : List Write) : (l.writeAll writes).Filed := by
  induction writes generalizing l with
  | nil => exact h
  | cons w rest ih => exact ih (h.write w)

theorem delegators_writeAll_ne {phase' : Phase} (hne : phase ≠ phase') (l : Ledger)
    (gone : List Staker) (slot : Slot) :
    (l.writeAll (gone.map (.deleteDelegator phase'))).delegators phase slot =
      l.delegators phase slot := by
  induction gone generalizing l with
  | nil => rfl
  | cons s rest ih => exact (ih _).trans (delegators_write_ne hne l s slot)

/-- Deleting some of the delegators that are met leaves the others. -/
theorem delegators_deleteAll (h : l.Filed) (hread : l.delegators phase slot = .ok walk)
    (hunique : (walk.toList.map Staker.txId).Nodup) {gone : List Staker} (hnodup : gone.Nodup)
    (hgone : gone ⊆ walk.toList) :
    ∃ walk', (l.writeAll (gone.map (.deleteDelegator phase))).delegators phase slot = .ok walk' ∧
      walk'.toList = walk.toList.filter fun t => t ∉ gone := by
  -- Deleting one leaves a walk in which the others are still met, each once.
  induction gone generalizing l walk with
  | nil => exact ⟨walk, hread, (List.filter_eq_self.mpr fun t _ => by simp).symm⟩
  | cons s rest ih =>
      obtain ⟨hnew, hnodup⟩ := List.nodup_cons.mp hnodup
      obtain ⟨hs, hrest⟩ := List.cons_subset.mp hgone
      obtain ⟨left, hleft, hlist⟩ := h.delegators_delete hread hunique hs
      have hother : ∀ t ∈ walk.toList, t.txId ≠ s.txId ↔ t ≠ s := fun t ht => not_iff_not.mpr
        ⟨fun htx => List.inj_on_of_nodup_map hunique ht hs htx, fun heq => heq ▸ rfl⟩
      have hless : left.toList = walk.toList.filter fun t => t ≠ s := hlist.trans
        (List.filter_congr fun t ht => decide_eq_decide.mpr (hother t ht))
      obtain ⟨walk', hread', hlist'⟩ := ih (h.write _) hleft
        (hunique.sublist (hlist ▸ List.filter_sublist.map _)) hnodup fun t ht => by
          rw [hless, List.mem_filter]
          exact ⟨hrest ht, decide_eq_true fun heq => hnew (heq ▸ ht)⟩
      refine ⟨walk', hread', ?_⟩
      rw [hlist', hless, List.filter_filter]
      refine List.filter_congr fun t _ => ?_
      rw [← Bool.decide_and, decide_eq_decide, List.mem_cons, not_or, and_comm]

end Ledger.Filed

end StakingLedger
