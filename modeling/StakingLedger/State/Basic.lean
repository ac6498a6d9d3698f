import StakingLedger.Codec.Record
import StakingLedger.Ledger.Write
import StakingLedger.Registry.Basic
import StakingLedger.Store.Basic
import StakingLedger.Store.Key

/-! # The durable root

The root keeps both registries of stakers and the supplies in memory and reads
every other record through from its store. Writes wait in memory for the next
commit.
-/

namespace StakingLedger

/-- What was written to the root since the last flush, the stakers apart. -/
structure Unflushed where
  /-- The time or the fee pool was set. -/
  metadata : Bool := false
  supplies : IdSet := .empty
  rewardPools : IdSet := .empty
  edits : RecordEdits := {}
  deriving DecidableEq

namespace Unflushed

instance : Inhabited Unflushed := ⟨{}⟩

def isEmpty (u : Unflushed) : Bool :=
  !u.metadata && u.supplies.isEmpty && u.rewardPools.isEmpty && u.edits.isEmpty

end Unflushed

/-- The last committed ledger and the writes after it. -/
structure State where
  store : Store
  /-- The height of the last commit. -/
  height : UInt64 := 0
  timestamp : UInt64 := 0
  feePool : UInt64 := 0
  supplies : OrderedMap EntityId UInt64 := .empty
  rewardPools : OrderedMap EntityId UInt64 := .empty
  registries : ByPhase Registry := ⟨{}, {}⟩
  unflushed : Unflushed := {}
  deriving DecidableEq

namespace State

instance : Inhabited State := ⟨⟨{}, 0, 0, 0, .empty, .empty, ⟨{}, {}⟩, {}⟩⟩

/-! ## Reads -/

/-- The circulating supply of a supernet's staking asset. -/
def supply (s : State) (supernet : EntityId) : Answer UInt64 :=
  orNotFound (s.supplies.get? supernet) (.supply supernet)

/-- The balance that pays a supernet's staking rewards. -/
def rewardPool (s : State) (supernet : EntityId) : Answer UInt64 :=
  orNotFound (s.rewardPools.get? supernet) (.rewardPool supernet)

/-- Reads a stored record; `what` names it in the error. -/
def stored {α : Type} [Codec α] (s : State) (key : Bytes) (what : String) : Answer (Option α) :=
  match s.store.get? key with
  | none => .ok none
  | some bytes => do
    let value ← ofCanonical bytes what
    return some value

/-- Reads every stored record under a lead, in key order. -/
def storedAll {α : Type} [Codec α] (s : State) (lead : Bytes) (what : String) :
    Answer (List α) :=
  (s.store.scan lead).mapM fun e => ofCanonical e.2 what

def utxo (s : State) (id : UtxoId) : Answer (Option Utxo) :=
  match s.unflushed.edits.utxos.get? id with
  | some held => .ok held
  | none => s.stored (Key.utxo id) "utxo"

/-- The outputs that paid the reward of a staker: the stored ones, then the new ones. -/
def rewardUtxos (s : State) (stakerTx : EntityId) : Answer (List Utxo) := do
  let persisted ← s.storedAll (KeySpace.rewardUtxo.idKey stakerTx) "reward utxo"
  return persisted ++ (s.unflushed.edits.rewardUtxos.get? stakerTx).getD []

def supernet (s : State) (id : EntityId) : Answer (Option SupernetRecord) :=
  match s.unflushed.edits.supernets.get? id with
  | some held => .ok (some held)
  | none => s.stored (KeySpace.supernet.idKey id) "supernet"

def transformation (s : State) (supernet : EntityId) : Answer (Option SupernetTransformation) :=
  match s.unflushed.edits.transformations.get? supernet with
  | some held => .ok (some held)
  | none => s.stored (KeySpace.transformation.idKey supernet) "supernet transformation"

/-- The chains of a supernet, by identifier; a new record of a chain hides the stored one. -/
def chains (s : State) (supernet : EntityId) : Answer (List ChainRecord) := do
  let persisted : List ChainRecord ← s.storedAll (KeySpace.chain.idKey supernet) "chain"
  let held := ((s.unflushed.edits.chains.get? supernet).getD .empty).entries
  return (OrderedMap.ofList (persisted.map fun c => (c.id, c)) |>.insertMany held).values

def tx (s : State) (id : EntityId) : Answer (Option (StoredTx × TxStatus)) :=
  match s.unflushed.edits.txs.get? id with
  | some held => .ok (some held)
  | none => s.stored (KeySpace.tx.idKey id) "transaction"

/-- Whether there are writes that no commit has flushed. -/
def hasUncommittedChanges (s : State) : Bool :=
  !s.unflushed.isEmpty || s.registries.current.hasChanges || s.registries.pending.hasChanges

/-- A short text for debugging. -/
def debugText (s : State) : String :=
  s!"State \x7b height: {s.height}, timestamp: {s.timestamp}, current_stakers: "
    ++ s!"{s.registries.current.size}, pending_stakers: {s.registries.pending.size}, .. \x7d"

/-! ## Writes -/

/-- Changes the record writes that wait for the next flush. -/
def edit (s : State) (f : RecordEdits → RecordEdits) : State :=
  { s with unflushed := { s.unflushed with edits := f s.unflushed.edits } }

/-- Changes the registry of a phase. -/
def updateRegistry (s : State) (phase : Phase) (f : Registry → Registry) : State :=
  { s with registries := s.registries.update phase f }

def write (s : State) : Write → State
  | .setTimestamp time =>
    { s with timestamp := time, unflushed := { s.unflushed with metadata := true } }
  | .setFeePool amount =>
    { s with feePool := amount, unflushed := { s.unflushed with metadata := true } }
  | .setSupply supernet amount =>
    { s with
      supplies := s.supplies.insert supernet amount
      unflushed := { s.unflushed with supplies := s.unflushed.supplies.insert supernet () } }
  | .setRewardPool supernet amount =>
    { s with
      rewardPools := s.rewardPools.insert supernet amount
      unflushed := { s.unflushed with rewardPools := s.unflushed.rewardPools.insert supernet () } }
  | .putValidator phase staker => s.updateRegistry phase (·.putValidator staker)
  | .deleteValidator phase staker => s.updateRegistry phase (·.deleteValidator staker)
  | .putDelegator phase staker => s.updateRegistry phase (·.putDelegator staker)
  | .deleteDelegator phase staker => s.updateRegistry phase (·.deleteDelegator staker)
  | .addUtxo utxo => s.edit (·.setUtxo utxo.id (some utxo))
  | .deleteUtxo id => s.edit (·.setUtxo id none)
  | .addRewardUtxo stakerTx utxo => s.edit (·.addRewardUtxo stakerTx utxo)
  | .addSupernet supernet => s.edit (·.addSupernet supernet)
  | .addTransformation transformation => s.edit (·.addTransformation transformation)
  | .addChain chain => s.edit (·.addChain chain)
  | .addTx tx status => s.edit (·.addTx tx status)

/-- Applies writes in turn. -/
def writeAll (s : State) (writes : List Write) : State := writes.foldl write s

end State

end StakingLedger
