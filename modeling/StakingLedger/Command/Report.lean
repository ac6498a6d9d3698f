import StakingLedger.Document.Record
import StakingLedger.Operator

/-! # What a command shows

The answers of the operator's tool as documents.
-/

namespace StakingLedger

/-- The figures of a supernet. -/
def Status.document (s : Status) : Document := .object [
  ("height", toDocument s.height), ("timestamp", toDocument s.timestamp),
  ("fee_pool", toDocument s.feePool), ("supernet_id", toDocument s.supernetId),
  ("current_supply", toDocument s.currentSupply), ("reward_pool_supply", toDocument s.rewardPool),
  ("next_staker_change_time", toDocument s.nextChangeTime)]

/-- A committed step, named by its first field. -/
def Step.document : Step → Document
  | .rewarded stakerTx paid height => .object [
    ("step", .text "rewarded"), ("staker_tx_id", toDocument stakerTx),
    ("rewarded", toDocument paid), ("height", toDocument height)]
  | .advanced time promoted retired height => .object [
    ("step", .text "advanced"), ("to", toDocument time), ("promoted", .integer promoted),
    ("retired", .integer retired), ("height", toDocument height)]

/-- A validator as the tool lists it, with its key in hexadecimal. -/
def ValidatorEntry.view (e : ValidatorEntry) : Document := .object [
  ("node_id", .text e.nodeId.text), ("weight", toDocument e.weight),
  ("public_key", toDocument (e.publicKey.map Bytes.hex))]

end StakingLedger
