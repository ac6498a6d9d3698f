import StakingLedger.Record.Basic

/-! # The key layout

All records live in one ordered space of keys. A fixed lead separates the kinds
of records; identifiers and heights follow in fixed width, so that the byte
order of keys is the order the ledger needs. Heights are complemented, so that
later heights come first.
-/

namespace StakingLedger

/-- The bytes of an ASCII text. -/
def asciiBytes (text : String) : Bytes := text.toList.map fun c => UInt8.ofNat c.toNat

/-- The keys of single records and the leads of the families of records. -/
inductive KeySpace where
  | timestamp
  | height
  | feePool
  | supply
  | rewardPool
  | currentStaker
  | pendingStaker
  | weightChange
  | publicKeyChange
  | utxo
  | rewardUtxo
  | supernet
  | transformation
  | chain
  | tx
  deriving DecidableEq

namespace KeySpace

/-- The text that leads the keys of a space. -/
def lead : KeySpace → String
  | .timestamp => "ledger::timestamp"
  | .height => "ledger::height"
  | .feePool => "ledger::fee_pool"
  | .supply => "ledger::supply::"
  | .rewardPool => "ledger::reward_pool::"
  | .currentStaker => "stakers::current::"
  | .pendingStaker => "stakers::pending::"
  | .weightChange => "stakers::weight_diff::"
  | .publicKeyChange => "stakers::pk_diff::"
  | .utxo => "utxo::"
  | .rewardUtxo => "reward_utxo::"
  | .supernet => "supernet::"
  | .transformation => "transformation::"
  | .chain => "chain::"
  | .tx => "tx::"

def bytes (space : KeySpace) : Bytes := asciiBytes space.lead

/-- The space of the stakers of a phase. -/
def staker : Phase → KeySpace
  | .current => .currentStaker
  | .pending => .pendingStaker

/-- The key of an identified record. -/
def idKey (space : KeySpace) (id : EntityId) : Bytes := space.bytes ++ id.toList

end KeySpace

/-- An output as it stands in a key. -/
def UtxoId.keyBytes (id : UtxoId) : Bytes := id.txId.toList ++ bigEndian 4 id.outputIndex.toNat

namespace Key

def supply (supernet : EntityId) : Bytes := KeySpace.supply.idKey supernet

def rewardPool (supernet : EntityId) : Bytes := KeySpace.rewardPool.idKey supernet

def utxo (id : UtxoId) : Bytes := KeySpace.utxo.bytes ++ id.keyBytes

/-- The key of an output that paid the reward of a staker. -/
def rewardUtxo (stakerTx : EntityId) (index : UInt32) : Bytes :=
  KeySpace.rewardUtxo.idKey stakerTx ++ bigEndian 4 index.toNat

def chain (supernet chain : EntityId) : Bytes := KeySpace.chain.idKey supernet ++ chain.toList

/-- A height whose byte order is reversed. -/
def invertedHeight (height : UInt64) : Bytes := wordBytes (~~~ height)

/-- The key of a validator's change at a height, under a lead. -/
def changeUnder (lead : Bytes) (supernet : EntityId) (height : UInt64) (node : NodeId) : Bytes :=
  lead ++ supernet.toList ++ invertedHeight height ++ node.toList

/-- Where a scan of a supernet's changes under a lead begins that leaves out the heights above
`height`. -/
def changeScanStartUnder (lead : Bytes) (supernet : EntityId) (height : UInt64) : Bytes :=
  lead ++ supernet.toList ++ invertedHeight height

/-- The key of a validator's change at a height. -/
def change (space : KeySpace) (supernet : EntityId) (height : UInt64) (node : NodeId) : Bytes :=
  changeUnder space.bytes supernet height node

/-- Where a scan of a supernet's changes begins that leaves out the heights above `height`. -/
def changeScanStart (space : KeySpace) (supernet : EntityId) (height : UInt64) : Bytes :=
  changeScanStartUnder space.bytes supernet height

theorem change_eq (space : KeySpace) (supernet : EntityId) (height : UInt64) (node : NodeId) :
    change space supernet height node =
      space.idKey supernet ++ invertedHeight height ++ node.toList := rfl

/-- The number of bytes after the lead of a change key: supernet, height and node. -/
def changeSuffixLength : Nat := 32 + 8 + 20

/-- What follows `lead` in a key that begins with it. -/
def dropLead? (lead key : Bytes) : Option Bytes :=
  if lead.isPrefixOf key then some (key.drop lead.length) else none

/-- Reads an identifier of a key; a wrong length is a decoding error. -/
def identifier {α : Type} (id : Except IdError α) : Answer α :=
  id.mapError fun cause => .decode (.identifier cause)

/-- The supernet, height and node of a change key under a lead. -/
def parseChangeUnder (lead key : Bytes) : Answer (EntityId × UInt64 × NodeId) := do
  let suffix ← match dropLead? lead key with
    | some suffix => pure suffix
    | none => throw (.decode .foreignChangeKey)
  if suffix.length ≠ changeSuffixLength then
    throw (.decode (.changeKeyLength suffix.length))
  let supernet ← identifier (EntityId.ofBytes (suffix.take 32))
  let node ← identifier (NodeId.ofBytes (suffix.drop 40))
  return (supernet, ~~~ UInt64.ofNat (ofBigEndian ((suffix.drop 32).take 8)), node)

/-- The supernet, height and node of a change key. -/
def parseChange (space : KeySpace) (key : Bytes) : Answer (EntityId × UInt64 × NodeId) :=
  parseChangeUnder space.bytes key

/-- The identifier after the lead of a key. -/
def parseId (space : KeySpace) (key : Bytes) : Answer EntityId :=
  match dropLead? space.bytes key with
  | some suffix => identifier (EntityId.ofBytes suffix)
  | none => .error (.decode .foreignKey)

/-- Reads a stored word, exactly eight bytes. -/
def decodeWord (bytes : Bytes) : Answer UInt64 :=
  if bytes.length = 8 then .ok (UInt64.ofNat (ofBigEndian bytes))
  else .error (.decode (.wordLength bytes.length))

end Key

end StakingLedger
