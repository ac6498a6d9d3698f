import StakingLedger.Identifier

/-! # Causes of failure

Each kind of ledger error has its own causes. A cause carries the values that
its wording names; `message` is the only place where the wording stands. Every
kind also has a `stated` cause for a reason given in words.
-/

namespace StakingLedger

/-- What was looked for and is not there. -/
inductive Missing where
  | ledgerHeight
  | ledgerRecord (key : String)
  | supply (supernet : EntityId)
  | rewardPool (supernet : EntityId)
  | stakingTransaction (tx : EntityId)
  | transformation (supernet : EntityId)
  | stakingRules (supernet : EntityId)
  | storageRecord
  | stated (what : String)
  deriving DecidableEq

def Missing.message : Missing → String
  | .ledgerHeight => "ledger height"
  | .ledgerRecord key => s!"ledger record {key}"
  | .supply supernet => s!"current supply of {supernet.hex}"
  | .rewardPool supernet => s!"reward pool of {supernet.hex}"
  | .stakingTransaction tx => s!"staking transaction {tx.hex}"
  | .transformation supernet => s!"transformation of {supernet.hex}"
  | .stakingRules supernet => s!"staking rules for {supernet.hex}"
  | .storageRecord => "storage record"
  | .stated what => what

/-- Which documented precondition was broken. -/
inductive Breach where
  | ledgerPresent
  | commitHeight (height expected : UInt64)
  | notStaking (tx : EntityId)
  | untransformedReward (supernet : EntityId)
  | uncommittedHistory
  | heightAboveTip (height tip : UInt64)
  | stuck (now : UInt64)
  | stated (what : String)
  deriving DecidableEq

def Breach.message : Breach → String
  | .ledgerPresent => "store already holds a ledger"
  | .commitHeight height expected => s!"commit of height {height}, expected {expected}"
  | .notStaking tx => s!"transaction {tx.hex} is not a staking transaction"
  | .untransformedReward supernet =>
    s!"rewarded staker on supernet {supernet.hex}, which is not transformed"
  | .uncommittedHistory => "historical validator sets need a fully committed state"
  | .heightAboveTip height tip => s!"height {height} is above the last committed height {tip}"
  | .stuck now => s!"time advancement is stuck at {now}"
  | .stated what => what

/-- Which quantity left its range at the top: 64-bit words, or lengths of 32 bits. -/
inductive Overflow where
  | sum (what : String) (a b : UInt64)
  | weightChange (a b : UInt64)
  | heightAfter (height : UInt64)
  | reward (weight duration : UInt64)
  | rewardOutputs (tx : EntityId)
  | encodedLength
  | stated (what : String)
  deriving DecidableEq

def Overflow.message : Overflow → String
  | .sum what a b => s!"{what}: {a} + {b}"
  | .weightChange a b => s!"weight diff {a} + {b}"
  | .heightAfter height => s!"height after {height}"
  | .reward weight duration =>
    s!"reward for weight {weight} over {duration}s does not fit in u64"
  | .rewardOutputs tx => s!"reward outputs of {tx.hex}"
  | .encodedLength => "Attempted to serialize a collection with too many elements."
  | .stated what => what

/-- Which quantity would have dropped below zero. -/
inductive Underflow where
  | difference (what : String) (a b : UInt64)
  | stated (what : String)
  deriving DecidableEq

def Underflow.message : Underflow → String
  | .difference what a b => s!"{what}: {a} - {b}"
  | .stated what => what

/-- Why persisted bytes mean nothing. -/
inductive Malformed where
  | record (what : String)
  | foreignChangeKey
  | changeKeyLength (actual : Nat)
  | foreignKey
  | identifier (cause : IdError)
  | wordLength (actual : Nat)
  | misfiledStaker (staker key : EntityId)
  | stated (what : String)
  deriving DecidableEq

def Malformed.message : Malformed → String
  | .record what => s!"canonical decode of {what} failed"
  | .foreignChangeKey => "validator diff key has a foreign prefix"
  | .changeKeyLength actual =>
    s!"validator diff key suffix has length {actual}, expected 60"
  | .foreignKey => "key has a foreign prefix"
  | .identifier cause => cause.message
  | .wordLength actual => s!"expected 8 bytes, got {actual}"
  | .misfiledStaker staker key => s!"staker {staker.hex} stored under key of {key.hex}"
  | .stated what => what

/-- Why a staker record is impossible in itself. -/
inductive StakerFault where
  | emptyWindow (tx : EntityId) (start finish : UInt64)
  | stated (what : String)
  deriving DecidableEq

def StakerFault.message : StakerFault → String
  | .emptyWindow tx start finish =>
    s!"staker {tx.hex} has start time {start} not before end time {finish}"
  | .stated what => what

/-- Why a transaction, reward claim or time proposal does not apply to the ledger it meets. -/
inductive TransactionFault where
  | alreadyRecorded (tx : EntityId)
  | idMismatch (stakerTx tx : EntityId)
  | notStandard (tx : EntityId)
  | startsTooEarly (tx : EntityId) (start now : UInt64)
  | notPrimary (tx supernet : EntityId)
  | notPermissionless (supernet : EntityId)
  | unknownSupernet (supernet : EntityId)
  | permissionless (supernet : EntityId)
  | durationOutside (tx : EntityId) (duration least most : UInt64)
  | weightOutside (tx : EntityId) (weight least most : UInt64)
  | zeroWeight (tx : EntityId)
  | alreadyValidates (node : NodeId) (supernet : EntityId)
  | notPrimaryValidator (node : NodeId)
  | primaryWindow (node : NodeId) (start finish : UInt64)
  | notValidator (node : NodeId) (supernet : EntityId)
  | outsideWindow (tx : EntityId)
  | aboveCap (tx : EntityId) (node : NodeId) (total cap : UInt64)
  | supernetExists (supernet : EntityId)
  | chainSupernet (chain supernet : EntityId)
  | chainExists (chain : EntityId)
  | alreadyTransformed (supernet : EntityId)
  | poolAboveSupply (supernet : EntityId)
  | stakingRules (reason : String)
  | nobodyToReward
  | notNextToReward (next claimed : EntityId)
  | notDue (tx : EntityId) (finish now : UInt64)
  | permissionedReward (tx : EntityId)
  | timeBehind (proposed now : UInt64)
  | timeBeyondChange (proposed next : UInt64)
  | targetBehind (target now : UInt64)
  | stated (what : String)
  deriving DecidableEq

def TransactionFault.message : TransactionFault → String
  | .alreadyRecorded tx => s!"transaction {tx.hex} already recorded"
  | .idMismatch stakerTx tx => s!"staker tx id {stakerTx.hex} does not match transaction {tx.hex}"
  | .notStandard tx => s!"transaction {tx.hex} is not a standard transaction"
  | .startsTooEarly tx start now =>
    s!"staker {tx.hex} starts at {start}, not after chain time {now}"
  | .notPrimary tx supernet => s!"primary network staker {tx.hex} names supernet {supernet.hex}"
  | .notPermissionless supernet => s!"supernet {supernet.hex} is not permissionless"
  | .unknownSupernet supernet => s!"supernet {supernet.hex} does not exist"
  | .permissionless supernet => s!"supernet {supernet.hex} is permissionless"
  | .durationOutside tx duration least most =>
    s!"staker {tx.hex} stakes for {duration}s, outside [{least}, {most}]"
  | .weightOutside tx weight least most =>
    s!"staker {tx.hex} weight {weight} outside [{least}, {most}]"
  | .zeroWeight tx => s!"validator {tx.hex} has zero weight"
  | .alreadyValidates node supernet => s!"{node.text} already validates supernet {supernet.hex}"
  | .notPrimaryValidator node => s!"{node.text} does not validate the primary network"
  | .primaryWindow node start finish =>
    s!"{node.text} does not validate the primary network over [{start}, {finish}]"
  | .notValidator node supernet => s!"{node.text} does not validate supernet {supernet.hex}"
  | .outsideWindow tx => s!"delegation {tx.hex} is outside its validator's window"
  | .aboveCap tx node total cap =>
    s!"delegation {tx.hex} lifts {node.text} to {total}, above {cap}"
  | .supernetExists supernet => s!"supernet {supernet.hex} already exists"
  | .chainSupernet chain supernet => s!"chain {chain.hex} names unknown supernet {supernet.hex}"
  | .chainExists chain => s!"chain {chain.hex} already exists"
  | .alreadyTransformed supernet => s!"supernet {supernet.hex} is already transformed"
  | .poolAboveSupply supernet => s!"reward pool of {supernet.hex} exceeds its supply"
  | .stakingRules reason => reason
  | .nobodyToReward => "no current staker to reward"
  | .notNextToReward next claimed => s!"next staker to reward is {next.hex}, not {claimed.hex}"
  | .notDue tx finish now => s!"staker {tx.hex} ends at {finish}, chain time is {now}"
  | .permissionedReward tx => s!"staker {tx.hex} is a permissioned validator"
  | .timeBehind proposed now => s!"proposed time {proposed} is before chain time {now}"
  | .timeBeyondChange proposed next =>
    s!"proposed time {proposed} is after the next staker change at {next}"
  | .targetBehind target now => s!"target time {target} is before chain time {now}"
  | .stated what => what

/-- Why a configuration or a genesis is refused. -/
inductive ConfigFault where
  | zeroMinDuration
  | durationBounds (least most : UInt64)
  | shareTooLarge (field : String) (share : UInt64)
  | rewardTimes
  | stakeBounds
  | zeroWeightFactor
  | genesisKind (tx : EntityId)
  | genesisStart (tx : EntityId) (timestamp : UInt64)
  | genesisWindow (tx : EntityId)
  | genesisDuplicate (tx : EntityId)
  | stated (what : String)
  deriving DecidableEq

def ConfigFault.message : ConfigFault → String
  | .zeroMinDuration => "'min_stake_duration' must be greater than 0"
  | .durationBounds least most =>
    s!"'min_stake_duration' ({least}) must be below 'max_stake_duration' ({most})"
  | .shareTooLarge field share => s!"'{field}' ({share}) exceeds 1000000"
  | .rewardTimes => "'start_reward_time' must not be after 'target_reward_time'"
  | .stakeBounds => "'min_validator_stake' must not exceed 'max_validator_stake'"
  | .zeroWeightFactor => "'max_validator_weight_factor' must be greater than 0"
  | .genesisKind tx => s!"genesis staker {tx.hex} must be a primary network validator"
  | .genesisStart tx timestamp =>
    s!"genesis validator {tx.hex} must start at the genesis timestamp {timestamp}"
  | .genesisWindow tx => s!"genesis validator {tx.hex} ends before it starts"
  | .genesisDuplicate tx =>
    s!"genesis validator {tx.hex} duplicates a node or transaction id"
  | .stated what => what

end StakingLedger
