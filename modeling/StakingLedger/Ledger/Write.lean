import StakingLedger.Record.Basic

/-! # Writes to a ledger

Every change of a ledger is a sequence of the writes listed here. The writes to
the staker sets trust their caller: a put staker is expected to be absent and a
deleted one to be present. Record writes that are not yet flushed, or that a
layer holds back, are kept as `RecordEdits`.
-/

namespace StakingLedger

/-- One change of a ledger. -/
inductive Write where
  | setTimestamp (time : UInt64)
  | setFeePool (amount : UInt64)
  | setSupply (supernet : EntityId) (amount : UInt64)
  | setRewardPool (supernet : EntityId) (amount : UInt64)
  | putValidator (phase : Phase) (staker : Staker)
  | deleteValidator (phase : Phase) (staker : Staker)
  | putDelegator (phase : Phase) (staker : Staker)
  | deleteDelegator (phase : Phase) (staker : Staker)
  | addUtxo (utxo : Utxo)
  | deleteUtxo (id : UtxoId)
  /-- Records an output that paid the reward of a staker. -/
  | addRewardUtxo (stakerTx : EntityId) (utxo : Utxo)
  | addSupernet (supernet : SupernetRecord)
  | addTransformation (transformation : SupernetTransformation)
  | addChain (chain : ChainRecord)
  | addTx (tx : StoredTx) (status : TxStatus)
  deriving DecidableEq

/-- Adds a staker in the place its priority asks for. -/
def Write.put (phase : Phase) (s : Staker) : Write :=
  if s.isValidator then .putValidator phase s else .putDelegator phase s

/-- Deletes a staker from the place its priority asks for. -/
def Write.delete (phase : Phase) (s : Staker) : Write :=
  if s.isValidator then .deleteValidator phase s else .deleteDelegator phase s

/-- A value for each phase. -/
structure ByPhase (α : Type) where
  current : α
  pending : α
  deriving DecidableEq

namespace ByPhase

variable {α : Type}

instance [Inhabited α] : Inhabited (ByPhase α) := ⟨⟨default, default⟩⟩

def get (values : ByPhase α) : Phase → α
  | .current => values.current
  | .pending => values.pending

/-- Changes the value of one phase. -/
def update (values : ByPhase α) (phase : Phase) (f : α → α) : ByPhase α :=
  match phase with
  | .current => { values with current := f values.current }
  | .pending => { values with pending := f values.pending }

end ByPhase

/-- A set of identifiers. -/
abbrev IdSet := OrderedMap EntityId Unit

/-- Record writes that are held back. -/
structure RecordEdits where
  /-- Added outputs, and `none` for spent ones. -/
  utxos : OrderedMap UtxoId (Option Utxo) := .empty
  /-- Reward outputs in the order they were recorded, by staking transaction. -/
  rewardUtxos : OrderedMap EntityId (List Utxo) := .empty
  supernets : OrderedMap EntityId SupernetRecord := .empty
  transformations : OrderedMap EntityId SupernetTransformation := .empty
  /-- Chains by supernet and then by chain. -/
  chains : OrderedMap EntityId (OrderedMap EntityId ChainRecord) := .empty
  txs : OrderedMap EntityId (StoredTx × TxStatus) := .empty
  deriving DecidableEq

namespace RecordEdits

instance : Inhabited RecordEdits := ⟨{}⟩

def isEmpty (e : RecordEdits) : Bool :=
  e.utxos.isEmpty && e.rewardUtxos.isEmpty && e.supernets.isEmpty && e.transformations.isEmpty &&
    e.chains.isEmpty && e.txs.isEmpty

def setUtxo (e : RecordEdits) (id : UtxoId) (utxo : Option Utxo) : RecordEdits :=
  { e with utxos := e.utxos.insert id utxo }

def addRewardUtxo (e : RecordEdits) (stakerTx : EntityId) (utxo : Utxo) : RecordEdits :=
  let recorded := (e.rewardUtxos.get? stakerTx).getD []
  { e with rewardUtxos := e.rewardUtxos.insert stakerTx (recorded ++ [utxo]) }

def addSupernet (e : RecordEdits) (supernet : SupernetRecord) : RecordEdits :=
  { e with supernets := e.supernets.insert supernet.id supernet }

def addTransformation (e : RecordEdits) (t : SupernetTransformation) : RecordEdits :=
  { e with transformations := e.transformations.insert t.supernetId t }

def addChain (e : RecordEdits) (chain : ChainRecord) : RecordEdits :=
  let recorded := (e.chains.get? chain.supernetId).getD .empty
  { e with chains := e.chains.insert chain.supernetId (recorded.insert chain.id chain) }

def addTx (e : RecordEdits) (tx : StoredTx) (status : TxStatus) : RecordEdits :=
  { e with txs := e.txs.insert tx.id (tx, status) }

end RecordEdits

end StakingLedger
