import StakingLedger.Genesis
import StakingLedger.Reward
import StakingLedger.State.Flush

/-! # Opening a ledger

A ledger is opened from a store that holds one, or written into a store that
holds none from a genesis. Nothing is written when a genesis is refused.
-/

namespace StakingLedger

namespace State

/-! ## Loading -/

/-- A word that every stored ledger has. -/
def readWord (store : Store) (space : KeySpace) : Answer UInt64 :=
  match store.get? space.bytes with
  | some bytes => Key.decodeWord bytes
  | none => .error (.notFound (.ledgerRecord space.lead))

/-- The stored balances of a family, by supernet. -/
def loadBalances (store : Store) (space : KeySpace) : Answer (OrderedMap EntityId UInt64) :=
  (store.scan space.bytes).foldlM (fun balances (key, value) => do
    let supernet ← Key.parseId space key
    let amount ← Key.decodeWord value
    return balances.insert supernet amount) .empty

/-- Reads one stored staker, which has to stand under its own transaction. -/
def loadStaker (space : KeySpace) (key value : Bytes) : Answer Staker := do
  let txId ← Key.parseId space key
  let staker : Staker ← ofCanonical value "staker"
  if staker.txId ≠ txId then throw (.decode (.misfiledStaker staker.txId txId))
  return staker

/-- The stored stakers of a phase. -/
def loadRegistry (store : Store) (space : KeySpace) : Answer Registry := do
  let registry ← (store.scan space.bytes).foldlM (fun (registry : Registry) (key, value) => do
    let staker ← loadStaker space key value
    return registry.put staker) ({} : Registry)
  return registry.clearDiffs

/-- The last committed ledger of a store. -/
def load (store : Store) : Answer State := do
  let stored ← orNotFound (store.get? KeySpace.height.bytes) .ledgerHeight
  let height ← Key.decodeWord stored
  let timestamp ← readWord store .timestamp
  let feePool ← readWord store .feePool
  let supplies ← loadBalances store .supply
  let rewardPools ← loadBalances store .rewardPool
  let current ← loadRegistry store .currentStaker
  let pending ← loadRegistry store .pendingStaker
  return {
    store := store, height := height, timestamp := timestamp, feePool := feePool
    supplies := supplies, rewardPools := rewardPools, registries := ⟨current, pending⟩ }

/-! ## Genesis -/

/-- The state and the primary network's balances while genesis validators are added. -/
structure GenesisProgress where
  state : State
  supply : UInt64
  pool : UInt64

/-- Places a genesis validator in the current set and funds its potential reward. -/
def addGenesisValidator (curve : RewardConfig) (p : GenesisProgress) (tx : StakerTx) :
    Answer GenesisProgress := do
  let calculated ← curve.reward tx.duration tx.startTime tx.weight
  let funding ← fundReward .primaryNetwork calculated p.pool p.supply
  let staker ← Staker.newCurrent tx funding.reward
  let state := p.state.writeAll
    [.putValidator .current staker, .addTx ⟨tx.txId, .addStaker tx⟩ .committed]
  return ⟨state, funding.currentSupply, funding.rewardPool⟩

/-- The root that a genesis describes, before it is flushed. -/
def unflushedGenesis (store : Store) (genesis : Genesis) (config : StakingConfig) :
    Answer State := do
  let fresh : State := { store := store }
  let start := fresh.writeAll [.setTimestamp genesis.timestamp, .setFeePool 0]
  let p ← genesis.validators.foldlM (addGenesisValidator config.reward)
    ⟨start, genesis.initialSupply, genesis.initialRewardPool⟩
  return p.state.writeAll
    ([.setSupply .primaryNetwork p.supply, .setRewardPool .primaryNetwork p.pool] ++
      genesis.utxos.map .addUtxo ++ genesis.chains.map .addChain)

/-- Writes a genesis into a store without ledger; the result is the root at height zero. -/
def fromGenesis (store : Store) (genesis : Genesis) (config : StakingConfig) : Answer State := do
  config.validate
  genesis.validate
  if (store.get? KeySpace.height.bytes).isSome then
    throw (.invariantViolation .ledgerPresent)
  let state ← unflushedGenesis store genesis config
  state.flush 0

end State

end StakingLedger
