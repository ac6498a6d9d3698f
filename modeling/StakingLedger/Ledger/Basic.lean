import StakingLedger.Ledger.Changes
import StakingLedger.State.Basic

/-! # Ledgers

A ledger is the durable root or a copy-on-write layer over another ledger. A
layer reads through to its parent wherever it overrides nothing; if the parent
cannot be resolved, such a read fails. Writes stay in the ledger they are made
on.
-/

namespace StakingLedger

/-- The durable root, or a layer on top of the ledger that a block produced. -/
inductive Ledger where
  | root (state : State)
  /-- `reachable` tells whether the parent, produced by block `parentId`, can be resolved. -/
  | layer (parent : Ledger) (parentId : EntityId) (reachable : Bool) (changes : Changes)

namespace Ledger

instance : Inhabited Ledger := ⟨.root default⟩

/-- A read that a layer leaves to its parent. -/
def throughParent {α : Type} (parentId : EntityId) (reachable : Bool) (read : Answer α) :
    Answer α :=
  if reachable then read else .error (.missingParent parentId)

/-! ## Reads -/

/-- The chain time, in Unix seconds. -/
def timestamp : Ledger → UInt64
  | root s => s.timestamp
  | layer _ _ _ c => c.timestamp

/-- The accumulated fees. -/
def feePool : Ledger → UInt64
  | root s => s.feePool
  | layer _ _ _ c => c.feePool

/-- The circulating supply of a supernet's staking asset. -/
def supply (l : Ledger) (supernet : EntityId) : Answer UInt64 :=
  match l with
  | root s => s.supply supernet
  | layer parent id reachable c =>
    match c.supplies.get? supernet with
    | some amount => .ok amount
    | none => throughParent id reachable (parent.supply supernet)

/-- The balance that pays a supernet's staking rewards. -/
def rewardPool (l : Ledger) (supernet : EntityId) : Answer UInt64 :=
  match l with
  | root s => s.rewardPool supernet
  | layer parent id reachable c =>
    match c.rewardPools.get? supernet with
    | some amount => .ok amount
    | none => throughParent id reachable (parent.rewardPool supernet)

/-- The validator of a slot. -/
def validator (l : Ledger) (phase : Phase) (slot : Slot) : Answer (Option Staker) :=
  match l with
  | root s => .ok ((s.registries.get phase).validator? slot)
  | layer parent id reachable c =>
    match (c.registries.get phase).validator? slot with
    | some held => .ok held
    | none => throughParent id reachable (parent.validator phase slot)

/-- The delegators of a slot, in their order. -/
def delegators (l : Ledger) (phase : Phase) (slot : Slot) : Answer StakerSeq :=
  match l with
  | root s => .ok ((s.registries.get phase).delegators slot)
  | layer parent id reachable c => do
    let below ← throughParent id reachable (parent.delegators phase slot)
    return (c.registries.get phase).delegators below slot

/-- Every staker of a phase, in order. -/
def stakers (l : Ledger) (phase : Phase) : Answer StakerSeq :=
  match l with
  | root s => .ok (s.registries.get phase).all
  | layer parent id reachable c => do
    let below ← throughParent id reachable (parent.stakers phase)
    return (c.registries.get phase).all below

/-- An unspent output. -/
def utxo (l : Ledger) (utxoId : UtxoId) : Answer (Option Utxo) :=
  match l with
  | root s => s.utxo utxoId
  | layer parent id reachable c =>
    match c.edits.utxos.get? utxoId with
    | some held => .ok held
    | none => throughParent id reachable (parent.utxo utxoId)

/-- The outputs that paid the reward of a staker: those below first. -/
def rewardUtxos (l : Ledger) (stakerTx : EntityId) : Answer (List Utxo) :=
  match l with
  | root s => s.rewardUtxos stakerTx
  | layer parent id reachable c => do
    let below ← throughParent id reachable (parent.rewardUtxos stakerTx)
    return below ++ (c.edits.rewardUtxos.get? stakerTx).getD []

def supernet (l : Ledger) (supernetId : EntityId) : Answer (Option SupernetRecord) :=
  match l with
  | root s => s.supernet supernetId
  | layer parent id reachable c =>
    match c.edits.supernets.get? supernetId with
    | some held => .ok (some held)
    | none => throughParent id reachable (parent.supernet supernetId)

/-- The transformation that opened a supernet to everybody. -/
def transformation (l : Ledger) (supernetId : EntityId) :
    Answer (Option SupernetTransformation) :=
  match l with
  | root s => s.transformation supernetId
  | layer parent id reachable c =>
    match c.edits.transformations.get? supernetId with
    | some held => .ok (some held)
    | none => throughParent id reachable (parent.transformation supernetId)

/-- Puts a chain before the first one of a greater identifier. -/
def insertChain (chain : ChainRecord) : List ChainRecord → List ChainRecord
  | [] => [chain]
  | c :: rest =>
    if (compare c.id chain.id).isLE then c :: insertChain chain rest else chain :: c :: rest

/-- The chains of a supernet by identifier; of equal identifiers the one below comes first. -/
def chains (l : Ledger) (supernetId : EntityId) : Answer (List ChainRecord) :=
  match l with
  | root s => s.chains supernetId
  | layer parent id reachable c => do
    let below ← throughParent id reachable (parent.chains supernetId)
    match c.edits.chains.get? supernetId with
    | none => return below
    | some held => return (below ++ held.values).foldl (fun sorted x => insertChain x sorted) []

/-- A stored transaction and its status. -/
def tx (l : Ledger) (txId : EntityId) : Answer (Option (StoredTx × TxStatus)) :=
  match l with
  | root s => s.tx txId
  | layer parent id reachable c =>
    match c.edits.txs.get? txId with
    | some held => .ok (some held)
    | none => throughParent id reachable (parent.tx txId)

/-- The store of the root below. -/
def store : Ledger → Store
  | root s => s.store
  | layer parent _ _ _ => parent.store

/-- The block whose ledger a layer builds on. -/
def parentId? : Ledger → Option EntityId
  | root _ => none
  | layer _ id _ _ => some id

/-! ## Writes -/

def write (l : Ledger) (w : Write) : Ledger :=
  match l with
  | root s => root (s.write w)
  | layer parent id reachable c => layer parent id reachable (c.write w)

/-- Applies writes in turn. -/
def writeAll (l : Ledger) (writes : List Write) : Ledger := writes.foldl write l

/-- Folds the changes of a layer into a ledger. -/
def fold (target : Ledger) (changes : Changes) : Ledger := target.writeAll changes.writes

/-- Makes the parent of a layer resolvable or not. -/
def setReachable (l : Ledger) (reachable : Bool) : Ledger :=
  match l with
  | root s => root s
  | layer parent id _ c => layer parent id reachable c

end Ledger

/-- The ledgers that can be resolved, by the block that produced them. -/
structure Versions where
  ledgers : OrderedMap EntityId Ledger := .empty

namespace Versions

def insert (v : Versions) (block : EntityId) (ledger : Ledger) : Versions :=
  ⟨v.ledgers.insert block ledger⟩

def remove (v : Versions) (block : EntityId) : Versions := ⟨v.ledgers.erase block⟩

def resolve? (v : Versions) (block : EntityId) : Option Ledger := v.ledgers.get? block

/-- Opens an empty layer on top of the ledger that a block produced. -/
def openLayer (v : Versions) (block : EntityId) : Answer Ledger :=
  match v.resolve? block with
  | none => .error (.missingParent block)
  | some parent => .ok (.layer parent block true (.untouched parent.timestamp parent.feePool))

end Versions

/-- A computation that reads and writes a ledger and may fail; what it wrote before a failure
stays written. -/
abbrev LedgerM := ExceptT LedgerError (StateM Ledger)

namespace LedgerM

/-- Asks the ledger; a failed read fails the computation. -/
def ask {α : Type} (read : Ledger → Answer α) : LedgerM α := fun l => (read l, l)

/-- Writes to the ledger. -/
def write (w : Write) : LedgerM Unit := fun l => (.ok (), l.write w)

/-- Runs a computation: its answer, and the ledger after it. -/
def run {α : Type} (action : LedgerM α) (l : Ledger) : Answer α × Ledger := action l

end LedgerM

end StakingLedger
