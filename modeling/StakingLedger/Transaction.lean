import StakingLedger.Ledger.Basic
import StakingLedger.Staker.Timeline

/-! # Transactions

Transactions arrive parsed and authorized. They are checked against the ledger
they meet and then take effect on it. Reward claims and moves of time are no
standard transactions: they belong to the block and have operations of their
own.
-/

namespace StakingLedger

/-- A check that fails with a fault unless the condition holds. -/
def require (condition : Bool) (fault : TransactionFault) : Answer Unit :=
  if condition then .ok () else .error (.invalidTransaction fault)

namespace Ledger

/-- The current or else the pending validator of a slot. -/
def existingValidator (l : Ledger) (slot : Slot) : Answer (Option Staker) := do
  match ← l.validator .current slot with
  | some s => return some s
  | none => l.validator .pending slot

/-! ## The weight of a validator over a window -/

/-- Adds the weights of stakers to a weight. -/
def addWeights (start : UInt64) (stakers : List Staker) : Answer UInt64 :=
  stakers.foldlM (fun weight s => checkedAdd weight s.weight "validator weight") start

/-- The greatest weight that the events up to `finish` lead to within the window that begins at
`start`. `weight` is the weight before the events; `peak` the greatest one seen in the window.
The window is entered with the first start from `start` on or the first end after `start`; an end
exactly at `start` does not enter it. -/
def peakWeight (start finish : UInt64) (weight : UInt64) (peak : Option UInt64) :
    List StakerEvent → Answer UInt64
  | [] => .ok (peak.getD weight)
  | event :: rest =>
    if finish < event.time then .ok (peak.getD weight)
    else
      let within := if event.starting then start ≤ event.time else start < event.time
      let peak := if within ∧ peak.isNone then some weight else peak
      if event.starting then do
        let weight ← checkedAdd weight event.staker.weight "validator weight"
        peakWeight start finish weight (peak.map fun p => max p weight) rest
      else do
        let weight ← checkedSub weight event.staker.weight "validator weight"
        peakWeight start finish weight peak rest

/-- The greatest weight that a validator carries, delegations included, at any moment from `start`
to `finish`. -/
def maxValidatorWeight (l : Ledger) (validator : Staker) (start finish : UInt64) :
    Answer UInt64 := do
  let current ← l.delegators .current validator.slot
  let weight ← addWeights validator.weight current.toList
  let pending ← l.delegators .pending validator.slot
  peakWeight start finish weight none (timeline current.toList pending.toList)

/-! ## Adding a staker -/

/-- The rules of the network that a staker joins; a permissioned validator has none. -/
def stakingRules (l : Ledger) (tx : StakerTx) (config : StakingConfig) :
    Answer (Option StakingConfig) :=
  match tx.kind with
  | .primaryValidator | .primaryDelegator => do
    require tx.supernetId.isPrimaryNetwork (.notPrimary tx.txId tx.supernetId)
    return some config
  | .permissionlessValidator | .permissionlessDelegator => do
    match ← l.transformation tx.supernetId with
    | some t => return some t.staking
    | none => throw (.invalidTransaction (.notPermissionless tx.supernetId))
  | .permissionedValidator => do
    require (!tx.supernetId.isPrimaryNetwork) (.unknownSupernet tx.supernetId)
    require (← l.supernet tx.supernetId).isSome (.unknownSupernet tx.supernetId)
    require (← l.transformation tx.supernetId).isNone (.permissionless tx.supernetId)
    return none

/-- Checks duration and weight of a staker against the rules of its network. -/
def checkTerms (tx : StakerTx) : Option StakingConfig → Answer Unit
  | none => require (tx.weight != 0) (.zeroWeight tx.txId)
  | some rules => do
    let least := rules.reward.minStakeDuration
    let most := rules.reward.maxStakeDuration
    require (least ≤ tx.duration && tx.duration ≤ most)
      (.durationOutside tx.txId tx.duration least most)
    let minStake := if tx.kind.isValidator then rules.minValidatorStake else rules.minDelegatorStake
    require (minStake ≤ tx.weight && tx.weight ≤ rules.maxValidatorStake)
      (.weightOutside tx.txId tx.weight minStake rules.maxValidatorStake)

/-- Whether the period of `validator` contains that of `tx`. -/
def encloses (validator : Staker) (tx : StakerTx) : Bool :=
  validator.startTime ≤ tx.startTime && tx.endTime ≤ validator.endTime

/-- A validator needs a free slot and, off the primary network, a primary validator of its node
that stays throughout. -/
def checkValidator (l : Ledger) (tx : StakerTx) : Answer Unit := do
  let existing ← l.existingValidator ⟨tx.supernetId, tx.nodeId⟩
  require existing.isNone (.alreadyValidates tx.nodeId tx.supernetId)
  if ¬ tx.supernetId.isPrimaryNetwork then
    match ← l.existingValidator ⟨.primaryNetwork, tx.nodeId⟩ with
    | none => throw (.invalidTransaction (.notPrimaryValidator tx.nodeId))
    | some primary =>
      require (encloses primary tx) (.primaryWindow tx.nodeId tx.startTime tx.endTime)

/-- The greatest weight that a validator may carry. -/
def weightCap (rules : StakingConfig) (validator : Staker) : UInt64 :=
  min (saturatingMul validator.weight rules.maxValidatorWeightFactor) rules.maxValidatorStake

/-- A delegator needs a validator that stays throughout and may carry its weight. -/
def checkDelegator (l : Ledger) (tx : StakerTx) (rules : Option StakingConfig) : Answer Unit := do
  match ← l.existingValidator ⟨tx.supernetId, tx.nodeId⟩ with
  | none => throw (.invalidTransaction (.notValidator tx.nodeId tx.supernetId))
  | some validator =>
    require (encloses validator tx) (.outsideWindow tx.txId)
    let rules ← orNotFound rules (.stakingRules tx.supernetId)
    let cap := weightCap rules validator
    let peak ← l.maxValidatorWeight validator tx.startTime tx.endTime
    let total ← checkedAdd peak tx.weight "validator weight"
    require (total ≤ cap) (.aboveCap tx.txId tx.nodeId total cap)

/-- Checks that a staker may join, and makes the pending staker. -/
def admitStaker (l : Ledger) (tx : StakerTx) (config : StakingConfig) : Answer Staker := do
  require (l.timestamp < tx.startTime) (.startsTooEarly tx.txId tx.startTime l.timestamp)
  let staker ← Staker.newPending tx
  let rules ← l.stakingRules tx config
  checkTerms tx rules
  if tx.kind.isValidator then l.checkValidator tx else l.checkDelegator tx rules
  return staker

/-! ## Supernets and chains -/

/-- A supernet must be new. -/
def checkSupernet (l : Ledger) (supernet : SupernetRecord) : Answer Unit := do
  require (!supernet.id.isPrimaryNetwork) (.supernetExists supernet.id)
  require (← l.supernet supernet.id).isNone (.supernetExists supernet.id)

/-- A chain must be new to its supernet, which has to exist. -/
def checkChain (l : Ledger) (chain : ChainRecord) : Answer Unit := do
  if ¬ chain.supernetId.isPrimaryNetwork then
    require (← l.supernet chain.supernetId).isSome (.chainSupernet chain.id chain.supernetId)
  let registered ← l.chains chain.supernetId
  require (registered.all fun c => c.id != chain.id) (.chainExists chain.id)

/-- A transformation is for a supernet that exists and has none; its figures must be sound. -/
def checkTransformation (l : Ledger) (t : SupernetTransformation) : Answer Unit := do
  require (!t.supernetId.isPrimaryNetwork) (.unknownSupernet t.supernetId)
  require (← l.supernet t.supernetId).isSome (.unknownSupernet t.supernetId)
  require (← l.transformation t.supernetId).isNone (.alreadyTransformed t.supernetId)
  require (t.initialRewardPool ≤ t.initialSupply) (.poolAboveSupply t.supernetId)
  t.staking.validate.mapError fun e => .invalidTransaction (.stakingRules e.message)

end Ledger

open LedgerM

/-- Applies a standard transaction and records it as committed. -/
def applyTx (tx : StoredTx) (config : StakingConfig) : LedgerM Unit := do
  let recorded ← ask (·.tx tx.id)
  ask fun _ => require recorded.isNone (.alreadyRecorded tx.id)
  match tx.body with
  | .addStaker stakerTx =>
    ask fun _ => require (stakerTx.txId == tx.id) (.idMismatch stakerTx.txId tx.id)
    let staker ← ask (·.admitStaker stakerTx config)
    if stakerTx.kind.isValidator then write (.putValidator .pending staker)
    else write (.putDelegator .pending staker)
  | .createSupernet supernet =>
    ask (·.checkSupernet supernet)
    write (.addSupernet supernet)
  | .createChain chain =>
    ask (·.checkChain chain)
    write (.addChain chain)
  | .transformSupernet t =>
    ask (·.checkTransformation t)
    write (.setSupply t.supernetId t.initialSupply)
    write (.setRewardPool t.supernetId t.initialRewardPool)
    write (.addTransformation t)
  | .rewardStaker _ | .advanceTime _ => throw (.invalidTransaction (.notStandard tx.id))
  write (.addTx tx .committed)

/-! ## Reward claims -/

/-- The staker that a claim retires: the first current one, due now and rewarded at all. -/
def Ledger.claimedStaker (l : Ledger) (stakerTx : EntityId) : Answer Staker := do
  let current ← l.stakers .current
  match current.toList.head? with
  | none => throw (.invalidTransaction .nobodyToReward)
  | some s =>
    require (s.txId == stakerTx) (.notNextToReward s.txId stakerTx)
    require (s.endTime == l.timestamp) (.notDue stakerTx s.endTime l.timestamp)
    require (!s.priority.isPermissioned) (.permissionedReward stakerTx)
    return s

/-- The staking transaction that a claim refers to. -/
def Ledger.stakingTx (l : Ledger) (stakerTx : EntityId) : Answer StakerTx := do
  let (stored, _) ← orNotFound (← l.tx stakerTx) (.stakingTransaction stakerTx)
  match stored.body with
  | .addStaker tx => return tx
  | _ => throw (.invariantViolation (.notStaking stakerTx))

/-- The asset in which a supernet pays rewards. -/
def Ledger.rewardAsset (l : Ledger) (supernet : EntityId) : Answer EntityId :=
  if supernet.isPrimaryNetwork then .ok .primaryNetwork
  else do
    let t ← orNotFound (← l.transformation supernet) (.transformation supernet)
    return t.assetId

/-- The output that pays a reward, numbered after the ones already paid. -/
def Ledger.rewardOutput (l : Ledger) (s : Staker) (owner : EntityId) : Answer Utxo := do
  let asset ← l.rewardAsset s.supernetId
  let paid ← l.rewardUtxos s.txId
  if paid.length < UInt32.size then
    return ⟨⟨s.txId, UInt32.ofNat paid.length⟩, asset, s.potentialReward, owner⟩
  else throw (.overflow (.rewardOutputs s.txId))

/-- Gives a forfeited reward back to the pool of its supernet. -/
def returnToPool (supernet : EntityId) (amount : UInt64) : LedgerM Unit := do
  let pool ← ask (·.rewardPool supernet)
  let total ← ask fun _ => checkedAdd pool amount "reward pool"
  write (.setRewardPool supernet total)

/-- Retires the first current staker, which has to be due and to be that of `stakerTx`. Its
potential reward is paid out as an output, or goes back to the pool. -/
def rewardStaker (stakerTx : EntityId) (rewarded : Bool) : LedgerM Unit := do
  let staker ← ask (·.claimedStaker stakerTx)
  let tx ← ask (·.stakingTx stakerTx)
  write (.delete .current staker)
  if staker.potentialReward ≠ 0 then
    if rewarded then
      let utxo ← ask (·.rewardOutput staker tx.rewardOwner)
      write (.addUtxo utxo)
      write (.addRewardUtxo stakerTx utxo)
    else
      returnToPool staker.supernetId staker.potentialReward

end StakingLedger
