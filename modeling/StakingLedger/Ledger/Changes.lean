import StakingLedger.Ledger.Write
import StakingLedger.Registry.Overlay

/-! # The changes of a layer

A layer holds back every write. Folding it replays the net changes as writes on
another ledger: time and fees, balances, the stakers of each phase (all
deletions before all additions), then the records.
-/

namespace StakingLedger

/-- Everything one layer overrides. -/
structure Changes where
  timestamp : UInt64
  feePool : UInt64
  supplies : OrderedMap EntityId UInt64 := .empty
  rewardPools : OrderedMap EntityId UInt64 := .empty
  registries : ByPhase RegistryOverlay := ⟨{}, {}⟩
  edits : RecordEdits := {}
  deriving DecidableEq

/-- The additions of a slot: the validator, then the delegators in their order. -/
def SlotDiff.additions (phase : Phase) (d : SlotDiff) : List Write :=
  let validator := match d.status, d.validator with
    | .added, some v => [.putValidator phase v]
    | _, _ => []
  validator ++ d.addedDelegators.values.map (.putDelegator phase)

/-- The net changes to a set of stakers: deletions by transaction, then additions by slot. -/
def RegistryOverlay.writes (phase : Phase) (o : RegistryOverlay) : List Write :=
  o.deleted.values.map (.delete phase) ++ o.diffs.values.flatMap (·.additions phase)

/-- The record writes, by kind and then by key. -/
def RecordEdits.replay (e : RecordEdits) : List Write :=
  let utxos := e.utxos.entries.map fun (id, utxo?) =>
    match utxo? with
    | some utxo => Write.addUtxo utxo
    | none => .deleteUtxo id
  let rewards := e.rewardUtxos.entries.flatMap fun (stakerTx, utxos) =>
    utxos.map (Write.addRewardUtxo stakerTx)
  utxos ++ rewards ++ e.supernets.values.map .addSupernet ++
    e.transformations.values.map .addTransformation ++
    e.chains.values.flatMap (fun chains => chains.values.map .addChain) ++
    e.txs.values.map fun (tx, status) => .addTx tx status

namespace Changes

/-- A layer that has changed nothing yet, over a ledger with the given time and fees. -/
def untouched (timestamp feePool : UInt64) : Changes :=
  { timestamp := timestamp, feePool := feePool }

/-- Changes the held back record writes. -/
def edit (c : Changes) (f : RecordEdits → RecordEdits) : Changes := { c with edits := f c.edits }

/-- Changes the registry of a phase. -/
def updateRegistry (c : Changes) (phase : Phase) (f : RegistryOverlay → RegistryOverlay) :
    Changes :=
  { c with registries := c.registries.update phase f }

def write (c : Changes) : Write → Changes
  | .setTimestamp time => { c with timestamp := time }
  | .setFeePool amount => { c with feePool := amount }
  | .setSupply supernet amount => { c with supplies := c.supplies.insert supernet amount }
  | .setRewardPool supernet amount => { c with rewardPools := c.rewardPools.insert supernet amount }
  | .putValidator phase staker => c.updateRegistry phase (·.putValidator staker)
  | .deleteValidator phase staker => c.updateRegistry phase (·.deleteValidator staker)
  | .putDelegator phase staker => c.updateRegistry phase (·.putDelegator staker)
  | .deleteDelegator phase staker => c.updateRegistry phase (·.deleteDelegator staker)
  | .addUtxo utxo => c.edit (·.setUtxo utxo.id (some utxo))
  | .deleteUtxo id => c.edit (·.setUtxo id none)
  | .addRewardUtxo stakerTx utxo => c.edit (·.addRewardUtxo stakerTx utxo)
  | .addSupernet supernet => c.edit (·.addSupernet supernet)
  | .addTransformation transformation => c.edit (·.addTransformation transformation)
  | .addChain chain => c.edit (·.addChain chain)
  | .addTx tx status => c.edit (·.addTx tx status)

/-- The writes that carry the changes over to another ledger. -/
def writes (c : Changes) : List Write :=
  [.setTimestamp c.timestamp, .setFeePool c.feePool] ++
    c.supplies.entries.map (fun (supernet, amount) => .setSupply supernet amount) ++
    c.rewardPools.entries.map (fun (supernet, amount) => .setRewardPool supernet amount) ++
    c.registries.current.writes .current ++ c.registries.pending.writes .pending ++
    c.edits.replay

end Changes

end StakingLedger
