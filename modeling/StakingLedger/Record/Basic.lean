import StakingLedger.Config
import StakingLedger.Staker.Basic

/-! # Ledger records

What the ledger keeps besides stakers: outputs, supernets, chains,
transformations and the transactions that made them.
-/

namespace StakingLedger

/-- One output of one transaction. -/
structure UtxoId where
  txId : EntityId
  outputIndex : UInt32
  deriving DecidableEq, Inhabited

namespace UtxoId

instance : Ord UtxoId := ⟨compareLex (compareOn txId) (compareOn outputIndex)⟩

instance : Std.TransOrd UtxoId :=
  inferInstanceAs (Std.TransCmp (compareLex (compareOn txId) (compareOn outputIndex)))

instance : Std.LawfulEqOrd UtxoId where
  eq_of_compare {a b} h := by
    change compareLex _ _ a b = .eq at h
    simp only [compareLex_eq_eq] at h
    have h₁ : a.txId = b.txId := Std.LawfulEqCmp.eq_of_compare h.1
    have h₂ : a.outputIndex = b.outputIndex := Std.LawfulEqCmp.eq_of_compare h.2
    cases a; cases b; cases h₁; cases h₂; rfl

end UtxoId

/-- An unspent transaction output. -/
structure Utxo where
  id : UtxoId
  assetId : EntityId
  amount : UInt64
  owner : EntityId
  deriving DecidableEq, Inhabited

/-- A supernet; its identifier is that of the transaction that created it. -/
structure SupernetRecord where
  id : EntityId
  owner : EntityId
  deriving DecidableEq, Inhabited

/-- A blockchain that a supernet validates. -/
structure ChainRecord where
  id : EntityId
  supernetId : EntityId
  name : String
  vmId : EntityId
  deriving DecidableEq, Inhabited

/-- Opens a supernet to everybody, with an asset, a supply and a reward curve of its own. -/
structure SupernetTransformation where
  supernetId : EntityId
  assetId : EntityId
  initialSupply : UInt64
  initialRewardPool : UInt64
  staking : StakingConfig
  deriving DecidableEq, Inhabited

/-- Whether a stored transaction was accepted. -/
inductive TxStatus where
  | committed
  | aborted
  deriving DecidableEq, Inhabited

/-- What a transaction does to the ledger. -/
inductive TxBody where
  /-- Adds a validator or delegator to the pending set. -/
  | addStaker (tx : StakerTx)
  | createSupernet (supernet : SupernetRecord)
  | createChain (chain : ChainRecord)
  | transformSupernet (transformation : SupernetTransformation)
  /-- Retires the next rewarded staker. -/
  | rewardStaker (stakerTxId : EntityId)
  | advanceTime (timestamp : UInt64)
  deriving DecidableEq, Inhabited

/-- A transaction as the registry of transactions keeps it. -/
structure StoredTx where
  id : EntityId
  body : TxBody
  deriving DecidableEq, Inhabited

/-- A validator of a set as consensus sees it. -/
structure ValidatorEntry where
  nodeId : NodeId
  /-- The validator's own weight and that of its current delegators. -/
  weight : UInt64
  publicKey : Option Bytes
  deriving DecidableEq, Inhabited

end StakingLedger
