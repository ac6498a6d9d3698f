import StakingLedger.Proofs.State.Content
import StakingLedger.Proofs.State.StoredStakers

/-! # What the store of a root knows

Between two commits the store of a root has the ledger of the last one. The
relation here says how: the staker diffs lead from the stored stakers to those
in memory, untouched balances are stored as they are in memory, and the stored
reward outputs are numbered without a gap. The contract keeps it, given that
reward outputs are recorded with the next free index.
-/

namespace StakingLedger

/-! ## Families of stored records -/

/-- The outputs are numbered from zero in the order in which they are listed. -/
def Numbered (paid : List Utxo) : Prop :=
  ∀ (i : Nat) (utxo : Utxo), paid[i]? = some utxo → utxo.id.outputIndex.toNat = i

theorem numbered_append_singleton {paid : List Utxo} (h : Numbered paid) {utxo : Utxo}
    (hnext : utxo.id.outputIndex.toNat = paid.length) : Numbered (paid ++ [utxo]) := by
  intro i u hget
  rw [List.getElem?_append] at hget
  split at hget
  · exact h i u hget
  next hlast =>
    rw [List.getElem?_singleton] at hget
    split at hget
    · cases hget
      omega
    · cases hget

/-- The entry of a reward output. -/
def rewardEntry (stakerTx : EntityId) (utxo : Utxo) : Bytes × Bytes :=
  (Key.rewardUtxo stakerTx utxo.id.outputIndex, toCanonical utxo)

namespace Store

/-- The store has the balances of a family, those apart that were touched since. -/
structure KeepsBalances (store : Store) (space : KeySpace) (touched : IdSet)
    (balances : OrderedMap EntityId UInt64) : Prop where
  untouched : ∀ id, touched.contains id = false →
    store.get? (space.idKey id) = (balances.get? id).map wordBytes
  touched : ∀ id, touched.contains id = true → (balances.get? id).isSome = true

/-- The store has the reward outputs of a staking transaction, in this order. -/
def KeepsRewards (store : Store) (stakerTx : EntityId) (paid : List Utxo) : Prop :=
  store.scan (KeySpace.rewardUtxo.idKey stakerTx) = paid.map (rewardEntry stakerTx)

/-- Every stored chain stands under its own supernet and identifier. -/
def FilesChains (store : Store) : Prop :=
  ∀ key value, store.get? key = some value → KeySpace.chain.Names key →
    ∃ chain : ChainRecord, key = Key.chain chain.supernetId chain.id ∧
      value = toCanonical chain ∧ Codec.fits chain = true

variable {store : Store} {space : KeySpace} {touched : IdSet}
  {balances : OrderedMap EntityId UInt64}

theorem KeepsBalances.insert (h : store.KeepsBalances space touched balances) (id : EntityId)
    (amount : UInt64) :
    store.KeepsBalances space (touched.insert id ()) (balances.insert id amount) where
  untouched id' huntouched := by
    have hne : id' ≠ id := by
      rintro rfl
      rw [OrderedMap.contains, OrderedMap.get?_insert_self] at huntouched
      cases huntouched
    rw [OrderedMap.contains, OrderedMap.get?_insert_ne _ _ hne] at huntouched
    rw [OrderedMap.get?_insert_ne _ _ hne]
    exact h.untouched id' huntouched
  touched id' htouched := by
    by_cases heq : id' = id
    · rw [heq, OrderedMap.get?_insert_self]
      rfl
    · rw [OrderedMap.contains, OrderedMap.get?_insert_ne _ _ heq] at htouched
      rw [OrderedMap.get?_insert_ne _ _ heq]
      exact h.touched id' htouched

end Store

/-- A recorded reward output has the next free index of its staking transaction. -/
def Contents.NextOutput (c : Contents) : Write → Prop
  | .addRewardUtxo stakerTx utxo =>
    ∃ paid, c.rewardUtxos stakerTx = .ok paid ∧ utxo.id.outputIndex.toNat = paid.length
  | _ => True

namespace State

/-- The root holds the contents, and its store has the ledger of the last commit, in which the
stakers were `flushed`. -/
structure Durable (book : Book) (flushed : Phase → Set Staker) (s : State) (c : Contents) : Prop
    extends s.Mirrors c where
  filed : s.unflushed.edits.Filed
  keyed : s.store.Keyed
  supplies : s.store.KeepsBalances .supply s.unflushed.supplies s.supplies
  rewardPools : s.store.KeepsBalances .rewardPool s.unflushed.rewardPools s.rewardPools
  rewards : ∀ stakerTx, ∃ paid, s.store.KeepsRewards stakerTx paid ∧
    Numbered (paid ++ s.unflushed.edits.heldRewards stakerTx)
  storedChains : s.store.FilesChains
  diffs : ∀ phase, (s.registries.get phase).diffs.Net (flushed phase) (c.stakers phase)
  stored : ∀ phase, s.store.KeepsStakers (KeySpace.staker phase) (flushed phase)
  recorded : ∀ phase, flushed phase ⊆ book.records phase
  slots : ∀ phase, OneValidatorPerSlot (flushed phase)
  encoded : ∀ phase, ∀ t ∈ flushed phase, Codec.fits t = true

theorem rewardUtxos_of_keepsRewards {s : State} {stakerTx : EntityId} {paid : List Utxo}
    (h : s.store.KeepsRewards stakerTx paid) : s.persisted.rewardUtxos stakerTx = .ok paid := by
  refine mapM_eq_ok_iff.mpr ?_
  rw [h, List.forall₂_map_left_iff, List.forall₂_same]
  exact fun utxo _ => ofCanonical_toCanonical rfl _

variable {s : State} {book : Book} {flushed : Phase → Set Staker} {c : Contents} {w : Write}

/-- Allowed writes change the diffs as they change the stakers. -/
theorem diffs_write (hproper : c.Proper book)
    (hrecorded : ∀ phase, flushed phase ⊆ book.records phase)
    (hdiffs : ∀ phase, (s.registries.get phase).diffs.Net (flushed phase) (c.stakers phase))
    (hallowed : c.Allows book w) (phase : Phase) :
    ((s.write w).registries.get phase).diffs.Net (flushed phase) ((c.write w).stakers phase) := by
  have hrecords : ∀ phase t, t ∈ book.records phase →
      ∀ u ∈ delegatorsIn (flushed phase) t.slot ∪ delegatorsIn (c.stakers phase) t.slot,
        u.txId = t.txId → u = t := by
    intro phase t ht
    apply SlotDiffs.Net.forall_delegators
    rintro u (hu | hu) htx
    · exact book.injOn phase (hrecorded phase hu) ht htx
    · exact book.injOn phase (hproper.recorded phase hu) ht htx
  have hupdate : ∀ {phase' : Phase} {f : Registry → Registry} {g : Set Staker → Set Staker},
      (f (s.registries.get phase')).diffs.Net (flushed phase') (g (c.stakers phase')) →
        ((s.registries.update phase' f).get phase).diffs.Net (flushed phase)
          ((c.updateStakers phase' g).stakers phase) := fun hphase =>
    ByPhase.forall_update (fun phase (r : Registry) members => r.diffs.Net (flushed phase) members)
      hdiffs hphase phase
  cases w with
  | putValidator phase' t =>
      obtain ⟨_, hv, _, hfree⟩ := hallowed
      exact hupdate (g := insert t)
        ((hdiffs phase').putValidator (hproper.slots phase') hv hfree)
  | deleteValidator phase' t =>
      exact hupdate (g := (· \ {t}))
        ((hdiffs phase').deleteValidator (hproper.slots phase') hallowed.1 hallowed.2)
  | putDelegator phase' t =>
      obtain ⟨ht, hd, habsent⟩ := hallowed
      exact hupdate (g := insert t)
        ((hdiffs phase').putDelegator (hproper.slots phase') hd (hrecords phase' t ht)
          fun hmem => habsent t hmem rfl)
  | deleteDelegator phase' t =>
      have ht := hproper.recorded phase' hallowed.2
      exact hupdate (g := (· \ {t}))
        ((hdiffs phase').deleteDelegator (hproper.slots phase') hallowed.1 (hrecords phase' t ht)
          hallowed.2)
  | _ => exact hdiffs phase

namespace Durable


/-- The reward outputs that can be read are numbered. -/
theorem numbered (h : s.Durable book flushed c) (stakerTx : EntityId) :
    ∃ paid, s.store.KeepsRewards stakerTx paid ∧
      c.rewardUtxos stakerTx = .ok (paid ++ s.unflushed.edits.heldRewards stakerTx) ∧
      Numbered (paid ++ s.unflushed.edits.heldRewards stakerTx) := by
  obtain ⟨paid, hpaid, hnumbered⟩ := h.rewards stakerTx
  refine ⟨paid, hpaid, ?_, hnumbered⟩
  rw [h.edits.rewardUtxos, rewardUtxos_of_keepsRewards hpaid]
  rfl

theorem addRewardUtxo (h : s.Durable book flushed c) {stakerTx : EntityId} {utxo : Utxo}
    (hasked : c.NextOutput (.addRewardUtxo stakerTx utxo)) (stakerTx' : EntityId) :
    ∃ paid, s.store.KeepsRewards stakerTx' paid ∧
      Numbered (paid ++ (s.unflushed.edits.addRewardUtxo stakerTx utxo).heldRewards stakerTx') := by
  obtain ⟨paid, hpaid, hread, hnumbered⟩ := h.numbered stakerTx'
  refine ⟨paid, hpaid, ?_⟩
  rw [RecordEdits.heldRewards_addRewardUtxo]
  split
  next heq =>
    subst heq
    obtain ⟨found, hfound, hnext⟩ := hasked
    rw [hread] at hfound
    cases hfound
    rw [← List.append_assoc]
    exact numbered_append_singleton hnumbered hnext
  next => exact hnumbered

/-- Allowed writes that number reward outputs keep the relation. -/
theorem write (h : s.Durable book flushed c) (hproper : c.Proper book)
    (hallowed : c.Allows book w) (hasked : c.NextOutput w) :
    (s.write w).Durable book flushed (c.write w) := by
  have hmirrors := h.toMirrors.write hproper hallowed
  have hdiffs := diffs_write hproper h.recorded h.diffs hallowed
  have hfiled : (s.write w).unflushed.edits.Filed := by
    rw [edits_write]
    exact h.filed.record w
  cases w with
  | setSupply supernet amount =>
      exact { h with toMirrors := hmirrors, supplies := h.supplies.insert supernet amount }
  | setRewardPool supernet amount =>
      exact { h with toMirrors := hmirrors, rewardPools := h.rewardPools.insert supernet amount }
  | addRewardUtxo stakerTx utxo =>
      exact { h with
        toMirrors := hmirrors
        filed := hfiled
        rewards := h.addRewardUtxo hasked }
  | _ => exact { h with toMirrors := hmirrors, diffs := hdiffs, filed := hfiled }

theorem writeAll {writes : List Write} (h : s.Durable book flushed c) (hproper : c.Proper book)
    (hallowed : c.Accepts (Contents.Allows book) writes)
    (hasked : c.Accepts Contents.NextOutput writes) :
    (s.writeAll writes).Durable book flushed (c.writeAll writes) := by
  induction writes generalizing s c with
  | nil => exact h
  | cons w rest ih =>
      exact ih (h.write hproper hallowed.1 hasked.1) (hproper.write hallowed.1) hallowed.2 hasked.2

end Durable

/-- Roots that are durable are a sound ground for layers. -/
theorem durable_grounding (book : Book) : Grounding book Contents.NextOutput
    (fun s c => ∃ flushed, s.Durable book flushed c) where
  shows _ _ := fun ⟨_, h⟩ => h.toMirrors.shows
  write _ _ _ := fun ⟨flushed, h⟩ hproper hallowed hasked =>
    ⟨flushed, h.write hproper hallowed hasked⟩

end State

end StakingLedger
