import StakingLedger.Record.Basic

/-! # Genesis and the operator's configuration

Genesis validators are placed in the current set at once, so each has to start
at the genesis time and to validate the primary network.
-/

namespace StakingLedger

/-- The content of a fresh ledger. -/
structure Genesis where
  /-- The first chain time, in Unix seconds. -/
  timestamp : UInt64
  initialSupply : UInt64 := 0
  initialRewardPool : UInt64 := 0
  utxos : List Utxo := []
  validators : List StakerTx := []
  chains : List ChainRecord := []
  deriving DecidableEq, Inhabited

/-- Checks the genesis validators in turn; `seen` are the ones before. -/
def Genesis.checkValidators (timestamp : UInt64) (seen : List StakerTx) :
    List StakerTx → Answer Unit
  | [] => .ok ()
  | v :: rest => do
    if v.kind ≠ .primaryValidator ∨ ¬ v.supernetId.isPrimaryNetwork then
      throw (.invalidConfig (.genesisKind v.txId))
    if v.startTime ≠ timestamp then
      throw (.invalidConfig (.genesisStart v.txId timestamp))
    if v.endTime ≤ v.startTime then
      throw (.invalidConfig (.genesisWindow v.txId))
    if seen.any (fun u => u.nodeId == v.nodeId || u.txId == v.txId) then
      throw (.invalidConfig (.genesisDuplicate v.txId))
    checkValidators timestamp (v :: seen) rest

/-- Refuses validators outside the primary network, with another start or an empty period, and
two of one node or transaction. -/
def Genesis.validate (g : Genesis) : Answer Unit :=
  Genesis.checkValidators g.timestamp [] g.validators

/-- The configuration of the operator's tool. -/
structure LedgerConfig where
  /-- Where the database file is. -/
  dbPath : String
  staking : StakingConfig := {}
  genesis : Genesis
  deriving DecidableEq, Inhabited

def LedgerConfig.validate (c : LedgerConfig) : Answer Unit := do
  c.staking.validate
  c.genesis.validate

end StakingLedger
