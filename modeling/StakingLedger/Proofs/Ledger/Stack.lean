import StakingLedger.Proofs.Answer
import StakingLedger.Proofs.Ledger.Layer

/-! # What a stack of layers contains

A stack of layers contains what its changes make, one after the other, of the
contents of the root, and its view shows just that. What the root has to
satisfy is a parameter here, and so is what it asks of its writes beyond the
contract.
-/

namespace StakingLedger

/-- A reading of the root: its view shows the contents, and allowed writes change them. -/
structure Grounding (book : Book) (asks : Contents → Write → Prop)
    (reading : State → Contents → Prop) : Prop where
  shows : ∀ s c, reading s c → (Ledger.root s).view.Shows c
  write : ∀ s c w, reading s c → c.Proper book → c.Allows book w → asks c w →
    reading (s.write w) (c.write w)

/-! ## Reading the stakers of a layer -/

namespace RegistryOverlay.Nets

variable {ch : Changes} {phase : Phase} {slot : Slot} {were are : Set Staker} {parent : Ledger}

/-- A layer reads its own stakers wherever its parent reads those below. -/
theorem reads_validator (h : (ch.registries.get phase).Nets were are) (id : EntityId)
    (hread : parent.view.validator phase slot = .ok (occupant were slot)) :
    (Ledger.layer parent id true ch).view.validator phase slot = .ok (occupant are slot) := by
  rw [← h.validator?_getD slot]
  change (Ledger.layer parent id true ch).validator phase slot = _
  unfold Ledger.validator
  cases (ch.registries.get phase).validator? slot with
  | some held => rfl
  | none => exact hread

theorem reads_delegators (h : (ch.registries.get phase).Nets were are) (id : EntityId)
    (htx : (were ∪ are).InjOn Staker.txId)
    (hread : ∃ held, parent.view.delegators phase slot = .ok held ∧
      Enumerates held Staker.key (delegatorsIn were slot)) :
    ∃ held, (Ledger.layer parent id true ch).view.delegators phase slot = .ok held ∧
      Enumerates held Staker.key (delegatorsIn are slot) := by
  obtain ⟨held, hread, hheld⟩ := hread
  obtain ⟨walk, hwalk, rfl⟩ := map_eq_ok_iff.mp hread
  rw [walk.walkAll_eq_toList] at hheld
  refine ⟨((ch.registries.get phase).delegators walk slot).walkAll, ?_, ?_⟩
  · refine map_eq_ok_iff.mpr ⟨_, bind_eq_ok_iff.mpr ⟨walk, ?_, rfl⟩, rfl⟩
    rwa [Ledger.throughParent, if_pos rfl]
  · rw [StakerSeq.walkAll_eq_toList]
    exact h.enumerates_delegators htx hheld

theorem reads_stakers (h : (ch.registries.get phase).Nets were are) (id : EntityId)
    (hare : OneValidatorPerSlot are) (hwere : OneValidatorPerSlot were)
    (htx : (were ∪ are).InjOn Staker.txId)
    (hread : ∃ held, parent.view.stakers phase = .ok held ∧ Enumerates held Staker.key were) :
    ∃ held, (Ledger.layer parent id true ch).view.stakers phase = .ok held ∧
      Enumerates held Staker.key are := by
  obtain ⟨held, hread, hheld⟩ := hread
  obtain ⟨walk, hwalk, rfl⟩ := map_eq_ok_iff.mp hread
  rw [walk.walkAll_eq_toList] at hheld
  refine ⟨((ch.registries.get phase).all walk).walkAll, ?_, ?_⟩
  · refine map_eq_ok_iff.mpr ⟨_, bind_eq_ok_iff.mpr ⟨walk, ?_, rfl⟩, rfl⟩
    rwa [Ledger.throughParent, if_pos rfl]
  · rw [StakerSeq.walkAll_eq_toList]
    exact h.enumerates_all hare hwere htx hheld

end RegistryOverlay.Nets

/-! ## Reading the records of a layer -/

/-- A layer tells what its edits make of the records that its parent tells, if the chains that it
adds are new below. -/
theorem View.Tells.layer {parent : Ledger} {id : EntityId} {ch : Changes} {below above : Records}
    (hparent : parent.view.Tells below) (hedits : ch.edits.Carries below above)
    (hfiled : ch.edits.Filed)
    (hkeyed : ∀ supernet held, below.chains supernet = .ok held →
      ∀ id chain, held.get? id = some chain → chain.id = id)
    (hnew : ∀ supernet held, below.chains supernet = .ok held →
      ∀ id, (ch.edits.heldChains supernet).contains id = true → held.get? id = none) :
    (Ledger.layer parent id true ch).view.Tells above where
  utxo := by
    funext id'
    rw [hedits.utxo, ← congrFun hparent.utxo id']
    change Ledger.utxo (.layer parent id true ch) id' = _
    unfold Ledger.utxo
    cases ch.edits.utxos.get? id' <;> rfl
  rewardUtxos := by
    funext stakerTx
    rw [hedits.rewardUtxos, ← congrFun hparent.rewardUtxos stakerTx]
    change Ledger.rewardUtxos (.layer parent id true ch) stakerTx = _
    unfold Ledger.rewardUtxos
    rfl
  supernet := by
    funext id'
    rw [hedits.supernet, ← congrFun hparent.supernet id']
    change Ledger.supernet (.layer parent id true ch) id' = _
    unfold Ledger.supernet
    cases ch.edits.supernets.get? id' <;> rfl
  transformation := by
    funext id'
    rw [hedits.transformation, ← congrFun hparent.transformation id']
    change Ledger.transformation (.layer parent id true ch) id' = _
    unfold Ledger.transformation
    cases ch.edits.transformations.get? id' <;> rfl
  chains supernet := by
    have hread : parent.chains supernet = _ := hparent.chains supernet
    rw [hedits.chains]
    change Ledger.chains (.layer parent id true ch) supernet = _
    unfold Ledger.chains
    rw [Ledger.throughParent, if_pos rfl, hread]
    -- A layer sorts the chains below together with its own, as one map of all of them does.
    cases hbelow : below.chains supernet with
    | error e => rfl
    | ok held =>
        have hown := fun id chain hget => (hfiled.chains supernet id chain hget).1
        have hmerged := Ledger.foldl_insertChain_eq_values (hkeyed supernet held hbelow) hown
          (hnew supernet held hbelow)
        unfold RecordEdits.heldChains at hmerged ⊢
        cases hheld : ch.edits.chains.get? supernet with
        | none => rfl
        | some own =>
            rw [hheld] at hmerged
            exact congrArg Except.ok hmerged
  tx := by
    funext id'
    rw [hedits.tx, ← congrFun hparent.tx id']
    change Ledger.tx (.layer parent id true ch) id' = _
    unfold Ledger.tx
    cases ch.edits.txs.get? id' <;> rfl

/-! ## Stacks -/

namespace Ledger

/-- What a ledger contains, where `reading` tells what its root contains. -/
def Contains (book : Book) (reading : State → Contents → Prop) : Ledger → Contents → Prop
  | .root s, c => c.Proper book ∧ reading s c
  | .layer parent _ reachable ch, c =>
    c.Proper book ∧ reachable = true ∧ ∃ below, parent.Contains book reading below ∧
      ch.Carries below c

namespace Contains

variable {book : Book} {asks : Contents → Write → Prop} {reading : State → Contents → Prop}
  {l : Ledger} {c : Contents} {w : Write}

theorem proper (h : l.Contains book reading c) : c.Proper book := by
  cases l with
  | root s => exact h.1
  | layer parent id reachable ch => exact h.1

/-- More records may be told apart than stand in a ledger. -/
theorem mono {book' : Book} (h : l.Contains book reading c)
    (hsub : ∀ phase, book.records phase ⊆ book'.records phase) : l.Contains book' reading c := by
  induction l generalizing c with
  | root s => exact ⟨h.1.mono hsub, h.2⟩
  | layer parent id reachable ch ih =>
      obtain ⟨habove, hreachable, below, hparent, hch⟩ := h
      exact ⟨habove.mono hsub, hreachable, below, ih hparent, hch⟩

theorem one_record {below above : Contents} (habove : above.Proper book)
    (hbelow : below.Proper book) (phase : Phase) :
    (below.stakers phase ∪ above.stakers phase).InjOn Staker.txId :=
  (book.injOn phase).mono (Set.union_subset (hbelow.recorded phase) (habove.recorded phase))

/-- A layer shows what its changes make of the view of its parent. -/
theorem shows_layer {parent : Ledger} {id : EntityId} {ch : Changes} {below : Contents}
    (hparent : parent.view.Shows below) (hbelow : below.Proper book) (habove : c.Proper book)
    (hch : ch.Carries below c) : (layer parent id true ch).view.Shows c where
  __ := hparent.tells.layer hch.edits hch.filed hbelow.chains hch.newChains
  timestamp := hch.timestamp.symm
  feePool := hch.feePool.symm
  supply := by
    funext supernet
    rw [hch.supply, ← congrFun hparent.supply supernet]
    change supply (layer parent id true ch) supernet = _
    unfold supply
    cases ch.supplies.get? supernet <;> rfl
  rewardPool := by
    funext supernet
    rw [hch.rewardPool, ← congrFun hparent.rewardPool supernet]
    change rewardPool (layer parent id true ch) supernet = _
    unfold rewardPool
    cases ch.rewardPools.get? supernet <;> rfl
  validator phase slot := (hch.registries phase).reads_validator id (hparent.validator phase slot)
  delegators phase slot :=
    (hch.registries phase).reads_delegators id (one_record habove hbelow phase)
      (hparent.delegators phase slot)
  stakers phase :=
    (hch.registries phase).reads_stakers id (habove.slots phase) (hbelow.slots phase)
      (one_record habove hbelow phase) (hparent.stakers phase)

theorem shows (hroot : Grounding book asks reading) (h : l.Contains book reading c) :
    l.view.Shows c := by
  induction l generalizing c with
  | root s => exact hroot.shows s c h.2
  | layer parent id reachable ch ih =>
      obtain ⟨habove, rfl, below, hparent, hch⟩ := h
      exact shows_layer (ih hparent) hparent.proper habove hch

/-- An allowed write on a ledger does to its contents what it says. -/
theorem write (hroot : Grounding book asks reading) (h : l.Contains book reading c)
    (hallowed : c.Allows book w) (hnew : c.RegistersNewChain w) (hasked : asks c w) :
    (l.write w).Contains book reading (c.write w) := by
  have hproper := h.proper.write hallowed
  cases l with
  | root s => exact ⟨hproper, hroot.write s c w h.2 h.1 hallowed hasked⟩
  | layer parent id reachable ch =>
      obtain ⟨habove, hreachable, below, hparent, hch⟩ := h
      exact ⟨hproper, hreachable, below, hparent, hch.write habove hparent.proper hallowed hnew⟩

theorem writeAll (hroot : Grounding book asks reading) {writes : List Write}
    (h : l.Contains book reading c) (hallowed : c.Accepts (Contents.Allows book) writes)
    (hnew : c.Accepts Contents.RegistersNewChain writes) (hasked : c.Accepts asks writes) :
    (l.writeAll writes).Contains book reading (c.writeAll writes) := by
  induction writes generalizing l c with
  | nil => exact h
  | cons w rest ih =>
      exact ih (h.write hroot hallowed.1 hnew.1 hasked.1) hallowed.2 hnew.2 hasked.2

/-- A fresh layer contains what its parent contains. -/
theorem opened (hroot : Grounding book asks reading) (h : l.Contains book reading c)
    (id : EntityId) :
    (layer l id true (.untouched l.timestamp l.feePool)).Contains book reading c := by
  have hview := h.shows hroot
  have htime : l.timestamp = c.timestamp := hview.timestamp
  have hfees : l.feePool = c.feePool := hview.feePool
  rw [htime, hfees]
  exact ⟨h.proper, rfl, c, h, Changes.Carries.untouched c⟩

/-- A fresh layer reads like its parent. -/
theorem view_opened (hroot : Grounding book asks reading) (h : l.Contains book reading c)
    (id : EntityId) : (layer l id true (.untouched l.timestamp l.feePool)).view = l.view :=
  ((h.opened hroot id).shows hroot).unique (h.shows hroot)

end Contains

end Ledger

end StakingLedger
