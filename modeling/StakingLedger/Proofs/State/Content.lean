import StakingLedger.Proofs.Answer
import StakingLedger.Proofs.Ledger.Stack
import StakingLedger.Proofs.Registry.Content

/-! # What the root contains

The root mirrors contents when its balances and registries are those of the
contents and the record writes that wait lead from the stored records to them.
Allowed writes keep this, whatever the store holds.
-/

namespace StakingLedger

namespace State

/-- The records of the store, without the writes that wait. -/
def persisted (s : State) : Records where
  utxo id := s.stored (Key.utxo id) "utxo"
  rewardUtxos stakerTx := s.storedAll (KeySpace.rewardUtxo.idKey stakerTx) "reward utxo"
  supernet id := s.stored (KeySpace.supernet.idKey id) "supernet"
  transformation id := s.stored (KeySpace.transformation.idKey id) "supernet transformation"
  chains supernet :=
    (s.storedAll (KeySpace.chain.idKey supernet) "chain").map fun found =>
      .ofList (found.map fun c => (c.id, c))
  tx id := s.stored (KeySpace.tx.idKey id) "transaction"

theorem store_write (s : State) (w : Write) : (s.write w).store = s.store := by
  cases w <;> rfl

theorem store_writeAll (s : State) (writes : List Write) : (s.writeAll writes).store = s.store := by
  induction writes generalizing s with
  | nil => rfl
  | cons w rest ih => exact (ih (s.write w)).trans (s.store_write w)

theorem height_write (s : State) (w : Write) : (s.write w).height = s.height := by
  cases w <;> rfl

theorem height_writeAll (s : State) (writes : List Write) :
    (s.writeAll writes).height = s.height := by
  induction writes generalizing s with
  | nil => rfl
  | cons w rest ih => exact (ih (s.write w)).trans (s.height_write w)

theorem persisted_write (s : State) (w : Write) : (s.write w).persisted = s.persisted := by
  cases w <;> rfl

theorem edits_write (s : State) (w : Write) :
    (s.write w).unflushed.edits = s.unflushed.edits.record w := by
  cases w <;> rfl

/-- The root holds the contents in memory and in its store. -/
structure Mirrors (s : State) (c : Contents) : Prop where
  timestamp : c.timestamp = s.timestamp
  feePool : c.feePool = s.feePool
  supply : c.supply = s.supply
  rewardPool : c.rewardPool = s.rewardPool
  registries : ∀ phase, (s.registries.get phase).Holds (c.stakers phase)
  edits : s.unflushed.edits.Carries s.persisted c.toRecords

/-- A root tells what its edits make of the records of its store. -/
theorem tells_of_carries {s : State} {r : Records} (h : s.unflushed.edits.Carries s.persisted r) :
    (Ledger.root s).view.Tells r where
  utxo := by
    funext id
    rw [h.utxo]
    change s.utxo id = _
    unfold utxo
    cases s.unflushed.edits.utxos.get? id <;> rfl
  rewardUtxos := by
    funext stakerTx
    rw [h.rewardUtxos]
    rfl
  supernet := by
    funext id
    rw [h.supernet]
    change s.supernet id = _
    unfold supernet
    cases s.unflushed.edits.supernets.get? id <;> rfl
  transformation := by
    funext id
    rw [h.transformation]
    change s.transformation id = _
    unfold transformation
    cases s.unflushed.edits.transformations.get? id <;> rfl
  chains supernet := by
    rw [h.chains]
    change s.chains supernet = _
    unfold chains persisted
    dsimp only
    cases (s.storedAll (KeySpace.chain.idKey supernet) "chain" : Answer (List ChainRecord)) with
    | error e => rfl
    | ok found => rfl
  tx := by
    funext id
    rw [h.tx]
    change s.tx id = _
    unfold tx
    cases s.unflushed.edits.txs.get? id <;> rfl

/-- The stakers that can be read from the root stand in the book. -/
def RecordedIn (book : Book) (s : State) : Prop :=
  ∀ phase held, (Ledger.root s).view.stakers phase = .ok held → ∀ t ∈ held, t ∈ book.records phase

namespace Mirrors

variable {s : State} {book : Book} {c : Contents} {w : Write}

theorem shows (h : s.Mirrors c) : (Ledger.root s).view.Shows c where
  __ := tells_of_carries h.edits
  timestamp := h.timestamp.symm
  feePool := h.feePool.symm
  supply := h.supply.symm
  rewardPool := h.rewardPool.symm
  validator phase slot := congrArg Except.ok ((h.registries phase).validator slot)
  delegators phase slot := by
    refine ⟨_, rfl, ?_⟩
    rw [StakerSeq.walkAll_eq_toList]
    exact (h.registries phase).enumerates_delegators slot
  stakers phase := by
    refine ⟨_, rfl, ?_⟩
    rw [StakerSeq.walkAll_eq_toList]
    exact (h.registries phase).enumerates_all

theorem updateRegistry (h : s.Mirrors c) {phase : Phase} {f : Registry → Registry}
    {g : Set Staker → Set Staker}
    (hholds : (f (s.registries.get phase)).Holds (g (c.stakers phase))) :
    (s.updateRegistry phase f).Mirrors (c.updateStakers phase g) where
  __ := h
  registries := ByPhase.forall_update (fun _ r members => Registry.Holds r members)
    h.registries hholds

theorem setSupply (h : s.Mirrors c) (supernet : EntityId) (amount : UInt64) :
    (s.write (.setSupply supernet amount)).Mirrors (c.write (.setSupply supernet amount)) where
  __ := h
  supply := by
    funext supernet'
    change Function.update c.supply supernet (.ok amount) supernet' =
      orNotFound ((s.supplies.insert supernet amount).get? supernet') (.supply supernet')
    by_cases heq : supernet' = supernet
    · subst heq
      rw [Function.update_self, OrderedMap.get?_insert_self]
      rfl
    · rw [Function.update_of_ne heq, OrderedMap.get?_insert_ne _ _ heq, h.supply]
      rfl

theorem setRewardPool (h : s.Mirrors c) (supernet : EntityId) (amount : UInt64) :
    (s.write (.setRewardPool supernet amount)).Mirrors
      (c.write (.setRewardPool supernet amount)) where
  __ := h
  rewardPool := by
    funext supernet'
    change Function.update c.rewardPool supernet (.ok amount) supernet' =
      orNotFound ((s.rewardPools.insert supernet amount).get? supernet') (.rewardPool supernet')
    by_cases heq : supernet' = supernet
    · subst heq
      rw [Function.update_self, OrderedMap.get?_insert_self]
      rfl
    · rw [Function.update_of_ne heq, OrderedMap.get?_insert_ne _ _ heq, h.rewardPool]
      rfl

theorem write (h : s.Mirrors c) (hproper : c.Proper book) (hallowed : c.Allows book w) :
    (s.write w).Mirrors (c.write w) := by
  have hedits : (s.write w).unflushed.edits.Carries (s.write w).persisted
      (c.write w).toRecords := by
    rw [edits_write, persisted_write]
    exact h.edits.record w
  cases w with
  | setTimestamp time => exact { h with timestamp := rfl }
  | setFeePool amount => exact { h with feePool := rfl }
  | setSupply supernet amount => exact h.setSupply supernet amount
  | setRewardPool supernet amount => exact h.setRewardPool supernet amount
  | putValidator phase staker =>
      obtain ⟨hs, hv, _, hfree⟩ := hallowed
      exact h.updateRegistry (g := insert staker) <|
        (h.registries phase).putValidator (hproper.slots phase) hv hfree (hproper.one_record hs)
  | deleteValidator phase staker =>
      exact h.updateRegistry (g := (· \ {staker})) <|
        (h.registries phase).deleteValidator (hproper.slots phase) hallowed.1 hallowed.2
  | putDelegator phase staker =>
      obtain ⟨hs, hd, _⟩ := hallowed
      exact h.updateRegistry (g := insert staker) <|
        (h.registries phase).putDelegator (hproper.slots phase) hd (hproper.one_record hs)
  | deleteDelegator phase staker =>
      exact h.updateRegistry (g := (· \ {staker})) <|
        (h.registries phase).deleteDelegator (hproper.slots phase) hallowed.1 hallowed.2
  | _ => exact { h with edits := hedits }

theorem writeAll {writes : List Write} (h : s.Mirrors c) (hproper : c.Proper book)
    (hallowed : c.Accepts (Contents.Allows book) writes) :
    (s.writeAll writes).Mirrors (c.writeAll writes) := by
  induction writes generalizing s c with
  | nil => exact h
  | cons w rest ih => exact ih (h.write hproper hallowed.1) (hproper.write hallowed.1) hallowed.2

end Mirrors

/-- What can be read from a recorded root stands in the book. -/
theorem Mirrors.recorded {s : State} {book : Book} {c : Contents} (h : s.Mirrors c)
    (hbook : s.RecordedIn book) (phase : Phase) : c.stakers phase ⊆ book.records phase := by
  intro t ht
  obtain ⟨held, hread, hheld⟩ := h.shows.stakers phase
  exact hbook phase held hread t ((hheld.mem_iff t).mpr ht)

/-- Any root that mirrors its contents is a sound ground for layers. -/
theorem mirrors_grounding (book : Book) : Grounding book (fun _ _ => True) Mirrors where
  shows _ _ h := h.shows
  write _ _ _ h hproper hallowed _ := h.write hproper hallowed

end State

end StakingLedger
