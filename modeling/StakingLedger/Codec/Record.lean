import StakingLedger.Codec.Basic
import StakingLedger.Record.Basic
import StakingLedger.Record.WeightChange

/-! # Byte forms of the ledger records

A record is the sequence of its fields. Kinds of stakers and of transactions
are numbered from zero in the order in which they are declared; a priority is
its rank.
-/

namespace StakingLedger

/-- Reads a whole record; `what` names it in the error. -/
def ofCanonical {α : Type} [Codec α] (bytes : Bytes) (what : String) : Answer α :=
  match Codec.decodeAll bytes with
  | some value => .ok value
  | none => .error (.decode (.record what))

/-- The number of a kind of staker in byte forms. -/
def StakerKind.tag : StakerKind → UInt8
  | .primaryValidator => 0
  | .primaryDelegator => 1
  | .permissionedValidator => 2
  | .permissionlessValidator => 3
  | .permissionlessDelegator => 4

instance : Codec StakerKind := Codec.tags StakerKind.tag StakerKind.all

instance : Codec Priority := Codec.tags (fun p => UInt8.ofNat p.rank) Priority.all

instance : Codec TxStatus :=
  Codec.tags (fun | .committed => 0 | .aborted => 1) [.committed, .aborted]

instance : Codec StakerTx := Codec.via
  (fun (txId, kind, nodeId, supernetId, publicKey, weight, startTime, endTime, rewardOwner) =>
    ⟨txId, kind, nodeId, supernetId, publicKey, weight, startTime, endTime, rewardOwner⟩)
  (fun t => (t.txId, t.kind, t.nodeId, t.supernetId, t.publicKey, t.weight, t.startTime,
    t.endTime, t.rewardOwner))

instance : Codec StakerKey := Codec.via
  (fun (nextTime, priority, txId) => ⟨nextTime, priority, txId⟩)
  (fun k => (k.nextTime, k.priority, k.txId))

instance : Codec Staker := Codec.via
  (fun (txId, nodeId, publicKey, supernetId, weight, startTime, endTime, potentialReward,
      nextTime, priority) =>
    ⟨txId, nodeId, publicKey, supernetId, weight, startTime, endTime, potentialReward, nextTime,
      priority⟩)
  (fun s => (s.txId, s.nodeId, s.publicKey, s.supernetId, s.weight, s.startTime, s.endTime,
    s.potentialReward, s.nextTime, s.priority))

instance : Codec RewardConfig := Codec.via
  (fun (least, most, period, start, startTime, target, targetTime) =>
    ⟨least, most, period, start, startTime, target, targetTime⟩)
  (fun c => (c.minStakeDuration, c.maxStakeDuration, c.stakePeriodRewardShare,
    c.startRewardShare, c.startRewardTime, c.targetRewardShare, c.targetRewardTime))

instance : Codec StakingConfig := Codec.via
  (fun (minValidator, maxValidator, minDelegator, factor, reward) =>
    ⟨minValidator, maxValidator, minDelegator, factor, reward⟩)
  (fun c => (c.minValidatorStake, c.maxValidatorStake, c.minDelegatorStake,
    c.maxValidatorWeightFactor, c.reward))

instance : Codec UtxoId := Codec.via
  (fun (txId, outputIndex) => ⟨txId, outputIndex⟩)
  (fun u => (u.txId, u.outputIndex))

instance : Codec Utxo := Codec.via
  (fun (id, assetId, amount, owner) => ⟨id, assetId, amount, owner⟩)
  (fun u => (u.id, u.assetId, u.amount, u.owner))

instance : Codec SupernetRecord := Codec.via
  (fun (id, owner) => ⟨id, owner⟩)
  (fun s => (s.id, s.owner))

instance : Codec ChainRecord := Codec.via
  (fun (id, supernetId, name, vmId) => ⟨id, supernetId, name, vmId⟩)
  (fun c => (c.id, c.supernetId, c.name, c.vmId))

instance : Codec SupernetTransformation := Codec.via
  (fun (supernetId, assetId, supply, pool, staking) =>
    ⟨supernetId, assetId, supply, pool, staking⟩)
  (fun t => (t.supernetId, t.assetId, t.initialSupply, t.initialRewardPool, t.staking))

instance : Codec WeightChange := Codec.via
  (fun (decrease, amount) => ⟨decrease, amount⟩)
  (fun c => (c.decrease, c.amount))

/-- Reads a value and wraps it up. -/
def Codec.decodeAs {α β : Type} [Codec α] (wrap : α → β) (bytes : Bytes) : Option (β × Bytes) :=
  (Codec.decode bytes).map fun (a, rest) => (wrap a, rest)

instance : Codec TxBody where
  encode
    | .addStaker tx => 0 :: Codec.encode tx
    | .createSupernet supernet => 1 :: Codec.encode supernet
    | .createChain chain => 2 :: Codec.encode chain
    | .transformSupernet transformation => 3 :: Codec.encode transformation
    | .rewardStaker stakerTxId => 4 :: Codec.encode stakerTxId
    | .advanceTime timestamp => 5 :: Codec.encode timestamp
  decode
    | 0 :: rest => Codec.decodeAs TxBody.addStaker rest
    | 1 :: rest => Codec.decodeAs TxBody.createSupernet rest
    | 2 :: rest => Codec.decodeAs TxBody.createChain rest
    | 3 :: rest => Codec.decodeAs TxBody.transformSupernet rest
    | 4 :: rest => Codec.decodeAs TxBody.rewardStaker rest
    | 5 :: rest => Codec.decodeAs TxBody.advanceTime rest
    | _ => none
  fits
    | .addStaker tx => Codec.fits tx
    | .createSupernet supernet => Codec.fits supernet
    | .createChain chain => Codec.fits chain
    | .transformSupernet transformation => Codec.fits transformation
    | .rewardStaker stakerTxId => Codec.fits stakerTxId
    | .advanceTime timestamp => Codec.fits timestamp

instance : Codec StoredTx := Codec.via (fun (id, body) => ⟨id, body⟩) (fun t => (t.id, t.body))

end StakingLedger
