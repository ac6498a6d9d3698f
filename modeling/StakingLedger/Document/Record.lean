import StakingLedger.Document.Reader
import StakingLedger.Genesis
import StakingLedger.Record.WeightChange

/-! # Document forms of the ledger records

Identifiers are written in hexadecimal, byte strings as lists of numbers. The
fields of a configuration that are absent take their defaults.
-/

namespace StakingLedger

open RecordReader

/-- The name of a kind of staker in documents. -/
def StakerKind.name : StakerKind → String
  | .primaryValidator => "primary_validator"
  | .primaryDelegator => "primary_delegator"
  | .permissionedValidator => "permissioned_validator"
  | .permissionlessValidator => "permissionless_validator"
  | .permissionlessDelegator => "permissionless_delegator"

instance : DocumentForm StakerKind where
  toDocument k := .text k.name
  readDocument := readName (StakerKind.all.map fun k => (k.name, k))

/-- The name of a priority in documents. -/
def Priority.name : Priority → String
  | .primaryNetworkValidatorPending => "PrimaryNetworkValidatorPending"
  | .primaryNetworkDelegatorPending => "PrimaryNetworkDelegatorPending"
  | .supernetPermissionlessValidatorPending => "SupernetPermissionlessValidatorPending"
  | .supernetPermissionlessDelegatorPending => "SupernetPermissionlessDelegatorPending"
  | .supernetPermissionedValidatorPending => "SupernetPermissionedValidatorPending"
  | .supernetPermissionedValidatorCurrent => "SupernetPermissionedValidatorCurrent"
  | .supernetPermissionlessDelegatorCurrent => "SupernetPermissionlessDelegatorCurrent"
  | .supernetPermissionlessValidatorCurrent => "SupernetPermissionlessValidatorCurrent"
  | .primaryNetworkDelegatorCurrent => "PrimaryNetworkDelegatorCurrent"
  | .primaryNetworkValidatorCurrent => "PrimaryNetworkValidatorCurrent"

instance : DocumentForm Priority where
  toDocument p := .text p.name
  readDocument := readName (Priority.all.map fun p => (p.name, p))

/-- The name of a status in documents. -/
def TxStatus.name : TxStatus → String
  | .committed => "Committed"
  | .aborted => "Aborted"

instance : DocumentForm TxStatus where
  toDocument s := .text s.name
  readDocument := readName ([.committed, .aborted].map fun s => (s.name, s))

instance : DocumentForm StakerTx where
  toDocument t := .object [
    ("tx_id", toDocument t.txId), ("kind", toDocument t.kind), ("node_id", toDocument t.nodeId),
    ("supernet_id", toDocument t.supernetId), ("public_key", toDocument t.publicKey),
    ("weight", toDocument t.weight), ("start_time", toDocument t.startTime),
    ("end_time", toDocument t.endTime), ("reward_owner", toDocument t.rewardOwner)]
  readDocument := RecordReader.read
    (StakerTx.mk <$> field "tx_id" <*> field "kind" <*> field "node_id" <*> field "supernet_id" <*>
      fieldOr "public_key" none <*> field "weight" <*> field "start_time" <*> field "end_time" <*>
      field "reward_owner") "StakerTx"

instance : DocumentForm StakerKey where
  toDocument k := .object [
    ("next_time", toDocument k.nextTime), ("priority", toDocument k.priority),
    ("tx_id", toDocument k.txId)]
  readDocument := RecordReader.read
    (StakerKey.mk <$> field "next_time" <*> field "priority" <*> field "tx_id") "StakerKey"

instance : DocumentForm Staker where
  toDocument s := .object [
    ("tx_id", toDocument s.txId), ("node_id", toDocument s.nodeId),
    ("public_key", toDocument s.publicKey), ("supernet_id", toDocument s.supernetId),
    ("weight", toDocument s.weight), ("start_time", toDocument s.startTime),
    ("end_time", toDocument s.endTime), ("potential_reward", toDocument s.potentialReward),
    ("next_time", toDocument s.nextTime), ("priority", toDocument s.priority)]
  readDocument := RecordReader.read
    (Staker.mk <$> field "tx_id" <*> field "node_id" <*> optional "public_key" <*>
      field "supernet_id" <*> field "weight" <*> field "start_time" <*> field "end_time" <*>
      field "potential_reward" <*> field "next_time" <*> field "priority") "Staker"

instance : DocumentForm UtxoId where
  toDocument u := .object [
    ("tx_id", toDocument u.txId), ("output_index", toDocument u.outputIndex)]
  readDocument := RecordReader.read
    (UtxoId.mk <$> field "tx_id" <*> field "output_index") "UtxoId"

instance : DocumentForm Utxo where
  toDocument u := .object [
    ("id", toDocument u.id), ("asset_id", toDocument u.assetId), ("amount", toDocument u.amount),
    ("owner", toDocument u.owner)]
  readDocument := RecordReader.read
    (Utxo.mk <$> field "id" <*> field "asset_id" <*> field "amount" <*> field "owner") "Utxo"

instance : DocumentForm SupernetRecord where
  toDocument s := .object [("id", toDocument s.id), ("owner", toDocument s.owner)]
  readDocument := RecordReader.read
    (SupernetRecord.mk <$> field "id" <*> field "owner") "SupernetRecord"

instance : DocumentForm ChainRecord where
  toDocument c := .object [
    ("id", toDocument c.id), ("supernet_id", toDocument c.supernetId), ("name", toDocument c.name),
    ("vm_id", toDocument c.vmId)]
  readDocument := RecordReader.read
    (ChainRecord.mk <$> field "id" <*> field "supernet_id" <*> field "name" <*> field "vm_id")
    "ChainRecord"

/-- Absent parameters are the defaults. -/
def RewardConfig.reader : RecordReader RewardConfig :=
  let d : RewardConfig := {}
  RewardConfig.mk <$> fieldOr "min_stake_duration" d.minStakeDuration <*>
    fieldOr "max_stake_duration" d.maxStakeDuration <*>
    fieldOr "stake_period_reward_share" d.stakePeriodRewardShare <*>
    fieldOr "start_reward_share" d.startRewardShare <*>
    fieldOr "start_reward_time" d.startRewardTime <*>
    fieldOr "target_reward_share" d.targetRewardShare <*>
    fieldOr "target_reward_time" d.targetRewardTime

instance : DocumentForm RewardConfig where
  toDocument c := .object [
    ("min_stake_duration", toDocument c.minStakeDuration),
    ("max_stake_duration", toDocument c.maxStakeDuration),
    ("stake_period_reward_share", toDocument c.stakePeriodRewardShare),
    ("start_reward_share", toDocument c.startRewardShare),
    ("start_reward_time", toDocument c.startRewardTime),
    ("target_reward_share", toDocument c.targetRewardShare),
    ("target_reward_time", toDocument c.targetRewardTime)]
  readDocument := RewardConfig.reader.read "RewardConfig"

/-- Absent bounds are the defaults. -/
def StakingConfig.reader : RecordReader StakingConfig :=
  let d : StakingConfig := {}
  StakingConfig.mk <$> fieldOr "min_validator_stake" d.minValidatorStake <*>
    fieldOr "max_validator_stake" d.maxValidatorStake <*>
    fieldOr "min_delegator_stake" d.minDelegatorStake <*>
    fieldOr "max_validator_weight_factor" d.maxValidatorWeightFactor <*>
    fieldOr "reward" d.reward

instance : DocumentForm StakingConfig where
  toDocument c := .object [
    ("min_validator_stake", toDocument c.minValidatorStake),
    ("max_validator_stake", toDocument c.maxValidatorStake),
    ("min_delegator_stake", toDocument c.minDelegatorStake),
    ("max_validator_weight_factor", toDocument c.maxValidatorWeightFactor),
    ("reward", toDocument c.reward)]
  readDocument := StakingConfig.reader.read "StakingConfig"

instance : DocumentForm SupernetTransformation where
  toDocument t := .object [
    ("supernet_id", toDocument t.supernetId), ("asset_id", toDocument t.assetId),
    ("initial_supply", toDocument t.initialSupply),
    ("initial_reward_pool", toDocument t.initialRewardPool), ("staking", toDocument t.staking)]
  readDocument := RecordReader.read
    (SupernetTransformation.mk <$> field "supernet_id" <*> field "asset_id" <*>
      field "initial_supply" <*> field "initial_reward_pool" <*> field "staking")
    "SupernetTransformation"

instance : DocumentForm TxBody where
  toDocument
    | .addStaker tx => .object [("AddStaker", toDocument tx)]
    | .createSupernet supernet => .object [("CreateSupernet", toDocument supernet)]
    | .createChain chain => .object [("CreateChain", toDocument chain)]
    | .transformSupernet t => .object [("TransformSupernet", toDocument t)]
    | .rewardStaker txId =>
      .object [("RewardStaker", .object [("staker_tx_id", toDocument txId)])]
    | .advanceTime time => .object [("AdvanceTime", .object [("timestamp", toDocument time)])]
  readDocument := readCase [
    ("AddStaker", fun dialect d => TxBody.addStaker <$> readDocument dialect d),
    ("CreateSupernet", fun dialect d => TxBody.createSupernet <$> readDocument dialect d),
    ("CreateChain", fun dialect d => TxBody.createChain <$> readDocument dialect d),
    ("TransformSupernet", fun dialect d => TxBody.transformSupernet <$> readDocument dialect d),
    ("RewardStaker", RecordReader.readFields (TxBody.rewardStaker <$> field "staker_tx_id")),
    ("AdvanceTime", RecordReader.readFields (TxBody.advanceTime <$> field "timestamp"))]

instance : DocumentForm StoredTx where
  toDocument t := .object [("id", toDocument t.id), ("body", toDocument t.body)]
  readDocument := RecordReader.read (StoredTx.mk <$> field "id" <*> field "body") "StoredTx"

instance : DocumentForm ValidatorEntry where
  toDocument e := .object [
    ("node_id", toDocument e.nodeId), ("weight", toDocument e.weight),
    ("public_key", toDocument e.publicKey)]
  readDocument := RecordReader.read
    (ValidatorEntry.mk <$> field "node_id" <*> field "weight" <*> optional "public_key")
    "ValidatorEntry"

/-- A change is written together with whether it is no change. -/
instance : DocumentForm WeightChange where
  toDocument c := .object [
    ("decrease", toDocument c.decrease), ("amount", toDocument c.amount),
    ("zero", toDocument c.isZero)]
  readDocument := RecordReader.read
    (WeightChange.mk <$> field "decrease" <*> field "amount") "ValidatorWeightDiff"

instance : DocumentForm Genesis where
  toDocument g := .object [
    ("timestamp", toDocument g.timestamp), ("initial_supply", toDocument g.initialSupply),
    ("initial_reward_pool", toDocument g.initialRewardPool), ("utxos", toDocument g.utxos),
    ("validators", toDocument g.validators), ("chains", toDocument g.chains)]
  readDocument := RecordReader.read
    (Genesis.mk <$> field "timestamp" <*> fieldOr "initial_supply" 0 <*>
      fieldOr "initial_reward_pool" 0 <*> fieldOr "utxos" [] <*> fieldOr "validators" [] <*>
      fieldOr "chains" []) "Genesis"

instance : DocumentForm LedgerConfig where
  toDocument c := .object [
    ("db_path", toDocument c.dbPath), ("staking", toDocument c.staking),
    ("genesis", toDocument c.genesis)]
  readDocument := RecordReader.read
    (LedgerConfig.mk <$> field "db_path" <*> fieldOr "staking" {} <*> field "genesis")
    "LedgerConfig"

end StakingLedger
