import StakingLedger.Ledger.Basic
import StakingLedger.Proofs.Ledger.Contents
import StakingLedger.Proofs.Staker.Enumeration

/-! # The view of a ledger

The view collects every read of a ledger, with a walk as the list of the
stakers that it meets. A view shows contents when each read answers what the
contents say; contents have one view only.
-/

namespace StakingLedger

/-- The answers of a ledger to every read. -/
@[ext]
structure View where
  timestamp : UInt64
  feePool : UInt64
  supply : EntityId → Answer UInt64
  rewardPool : EntityId → Answer UInt64
  validator : Phase → Slot → Answer (Option Staker)
  /-- The delegators of a slot in the order of a walk. -/
  delegators : Phase → Slot → Answer (List Staker)
  /-- All stakers in the order of a walk. -/
  stakers : Phase → Answer (List Staker)
  utxo : UtxoId → Answer (Option Utxo)
  rewardUtxos : EntityId → Answer (List Utxo)
  supernet : EntityId → Answer (Option SupernetRecord)
  transformation : EntityId → Answer (Option SupernetTransformation)
  chains : EntityId → Answer (List ChainRecord)
  tx : EntityId → Answer (Option (StoredTx × TxStatus))

/-- Everything that can be read from a ledger. -/
def Ledger.view (l : Ledger) : View where
  timestamp := l.timestamp
  feePool := l.feePool
  supply := l.supply
  rewardPool := l.rewardPool
  validator := l.validator
  delegators phase slot := (l.delegators phase slot).map StakerSeq.walkAll
  stakers phase := (l.stakers phase).map StakerSeq.walkAll
  utxo := l.utxo
  rewardUtxos := l.rewardUtxos
  supernet := l.supernet
  transformation := l.transformation
  chains := l.chains
  tx := l.tx

namespace View

/-- The contract of the writes in terms of what the writer can read. A put staker is absent, a
put validator finds its slot free, a deleted staker is present, and a chain is new to its
supernet; validators and delegators go to their own operations. -/
def Allows (book : Book) (v : View) : Write → Prop
  | .putValidator phase s =>
    s ∈ book.records phase ∧ s.isValidator = true ∧
      (∃ held, v.stakers phase = .ok held ∧ ∀ t ∈ held, t.txId ≠ s.txId) ∧
      v.validator phase s.slot = .ok none
  | .putDelegator phase s =>
    s ∈ book.records phase ∧ s.isValidator = false ∧
      ∃ held, v.stakers phase = .ok held ∧ ∀ t ∈ held, t.txId ≠ s.txId
  | .deleteValidator phase s =>
    s.isValidator = true ∧ ∃ held, v.stakers phase = .ok held ∧ s ∈ held
  | .deleteDelegator phase s =>
    s.isValidator = false ∧ ∃ held, v.stakers phase = .ok held ∧ s ∈ held
  | _ => True

/-- An added chain is not yet registered on its supernet. -/
def RegistersNewChain (v : View) : Write → Prop
  | .addChain chain => ∀ held, v.chains chain.supernetId = .ok held → ∀ c ∈ held, c.id ≠ chain.id
  | _ => True

/-- The view answers every read as the contents say. -/
structure Shows (v : View) (c : Contents) : Prop where
  timestamp : v.timestamp = c.timestamp
  feePool : v.feePool = c.feePool
  supply : v.supply = c.supply
  rewardPool : v.rewardPool = c.rewardPool
  validator : ∀ phase slot, v.validator phase slot = .ok (occupant (c.stakers phase) slot)
  delegators : ∀ phase slot, ∃ held, v.delegators phase slot = .ok held ∧
    Enumerates held Staker.key (delegatorsIn (c.stakers phase) slot)
  stakers : ∀ phase, ∃ held, v.stakers phase = .ok held ∧
    Enumerates held Staker.key (c.stakers phase)
  utxo : v.utxo = c.utxo
  rewardUtxos : v.rewardUtxos = c.rewardUtxos
  supernet : v.supernet = c.supernet
  transformation : v.transformation = c.transformation
  chains : ∀ supernet, v.chains supernet = (c.chains supernet).map OrderedMap.values
  tx : v.tx = c.tx

/-- The view answers every read of a record as the records say. -/
structure Tells (v : View) (r : Records) : Prop where
  utxo : v.utxo = r.utxo
  rewardUtxos : v.rewardUtxos = r.rewardUtxos
  supernet : v.supernet = r.supernet
  transformation : v.transformation = r.transformation
  chains : ∀ supernet, v.chains supernet = (r.chains supernet).map OrderedMap.values
  tx : v.tx = r.tx

/-- The walk over a phase, the walks over the delegators of its slots and the lookups of validators
all tell of the same stakers. -/
structure Lists (v : View) (phase : Phase) (members : Set Staker) : Prop where
  stakers : ∃ held, v.stakers phase = .ok held ∧ Enumerates held Staker.key members
  delegators : ∀ slot, ∃ held, v.delegators phase slot = .ok held ∧
    Enumerates held Staker.key {s | s ∈ members ∧ s.isValidator = false ∧ s.slot = slot}
  validator : ∀ slot, ∃ found, v.validator phase slot = .ok found ∧
    ∀ s, found = some s ↔ s ∈ members ∧ s.isValidator = true ∧ s.slot = slot

/-- A chain that is new to what can be read is new to what the records hold. -/
theorem Tells.get?_chain_eq_none {v : View} {r : Records} {chain : ChainRecord}
    {held : OrderedMap EntityId ChainRecord} (h : v.Tells r)
    (hheld : r.chains chain.supernetId = .ok held)
    (hkeyed : ∀ id found, held.get? id = some found → found.id = id)
    (hnew : v.RegistersNewChain (.addChain chain)) : held.get? chain.id = none := by
  have hread : v.chains chain.supernetId = .ok held.values := by
    rw [h.chains, hheld]
    rfl
  cases hget : held.get? chain.id with
  | none => rfl
  | some found =>
      exact absurd (hkeyed _ _ hget)
        (hnew _ hread found (OrderedMap.mem_values_iff.mpr ⟨_, hget⟩))

namespace Shows

variable {book : Book} {v v' : View} {c : Contents} {w : Write}

theorem tells (h : v.Shows c) : v.Tells c.toRecords :=
  ⟨h.utxo, h.rewardUtxos, h.supernet, h.transformation, h.chains, h.tx⟩

/-- The same stakers are read in the same way. -/
theorem same_stakers {c' : Contents} (h : v.Shows c) (h' : v'.Shows c')
    (hsame : c.stakers = c'.stakers) :
    v.validator = v'.validator ∧ v.delegators = v'.delegators ∧ v.stakers = v'.stakers := by
  refine ⟨?_, ?_, ?_⟩
  · funext phase slot
    rw [h.validator, h'.validator, hsame]
  · funext phase slot
    obtain ⟨held, hread, hheld⟩ := h.delegators phase slot
    obtain ⟨held', hread', hheld'⟩ := h'.delegators phase slot
    rw [hsame] at hheld
    rw [hread, hread', hheld.unique hheld']
  · funext phase
    obtain ⟨held, hread, hheld⟩ := h.stakers phase
    obtain ⟨held', hread', hheld'⟩ := h'.stakers phase
    rw [hsame] at hheld
    rw [hread, hread', hheld.unique hheld']

/-- Contents have one view. -/
theorem unique (h : v.Shows c) (h' : v'.Shows c) : v = v' := by
  obtain ⟨hvalidator, hdelegators, hstakers⟩ := h.same_stakers h' rfl
  have hchains : v.chains = v'.chains := by
    funext supernet
    rw [h.chains, h'.chains]
  exact View.ext (h.timestamp.trans h'.timestamp.symm) (h.feePool.trans h'.feePool.symm)
    (h.supply.trans h'.supply.symm) (h.rewardPool.trans h'.rewardPool.symm) hvalidator
    hdelegators hstakers (h.utxo.trans h'.utxo.symm) (h.rewardUtxos.trans h'.rewardUtxos.symm)
    (h.supernet.trans h'.supernet.symm) (h.transformation.trans h'.transformation.symm) hchains
    (h.tx.trans h'.tx.symm)

theorem mem_of_read (h : v.Shows c) {phase : Phase} {held : List Staker}
    (hread : v.stakers phase = .ok held) (s : Staker) : s ∈ held ↔ s ∈ c.stakers phase := by
  obtain ⟨held', hread', hheld⟩ := h.stakers phase
  rw [hread] at hread'
  cases hread'
  exact hheld.mem_iff s

/-- A writer that keeps to the contract by what it reads keeps to it. -/
theorem allows (h : v.Shows c) (hallowed : v.Allows book w) : c.Allows book w := by
  cases w with
  | putValidator phase s =>
      obtain ⟨hs, hv, ⟨held, hread, habsent⟩, hfree⟩ := hallowed
      rw [h.validator] at hfree
      exact ⟨hs, hv, fun t ht => habsent t ((h.mem_of_read hread t).mpr ht), Except.ok.inj hfree⟩
  | putDelegator phase s =>
      obtain ⟨hs, hd, held, hread, habsent⟩ := hallowed
      exact ⟨hs, hd, fun t ht => habsent t ((h.mem_of_read hread t).mpr ht)⟩
  | deleteValidator phase s =>
      obtain ⟨hv, held, hread, hmem⟩ := hallowed
      exact ⟨hv, (h.mem_of_read hread s).mp hmem⟩
  | deleteDelegator phase s =>
      obtain ⟨hd, held, hread, hmem⟩ := hallowed
      exact ⟨hd, (h.mem_of_read hread s).mp hmem⟩
  | _ => trivial

theorem registersNewChain (h : v.Shows c) (hproper : c.Proper book)
    (hnew : v.RegistersNewChain w) : c.RegistersNewChain w := by
  cases w with
  | addChain chain =>
      intro held hheld
      exact h.tells.get?_chain_eq_none hheld (hproper.chains _ _ hheld) hnew
  | _ => trivial

theorem lists {members : Set Staker} {phase : Phase} (h : v.Shows c)
    (hslots : OneValidatorPerSlot (c.stakers phase))
    (hmembers : ∀ s, s ∈ c.stakers phase ↔ s ∈ members) : v.Lists phase members := by
  obtain rfl : c.stakers phase = members := Set.ext hmembers
  exact ⟨h.stakers phase, h.delegators phase,
    fun slot => ⟨_, h.validator phase slot, fun s => occupant_eq_some_iff hslots⟩⟩

end Shows

end View

end StakingLedger
