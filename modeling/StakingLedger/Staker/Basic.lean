import StakingLedger.Amount
import StakingLedger.OrderedMap
import StakingLedger.Staker.Priority

/-! # Stakers

A staker is computed once from a staking transaction and never changed in
place: promotion makes a new value with another next time and priority. Every
set of stakers is ordered by next time, then priority, then transaction.
-/

namespace StakingLedger

/-- A staking transaction as the ledger sees it: authorized, and reduced to what a registry
needs. -/
structure StakerTx where
  txId : EntityId
  kind : StakerKind
  nodeId : NodeId
  supernetId : EntityId
  /-- The validator's consensus key, if it registered one. -/
  publicKey : Option Bytes
  weight : UInt64
  /-- When the staker becomes current, in Unix seconds. -/
  startTime : UInt64
  /-- When the staker stops, in Unix seconds. -/
  endTime : UInt64
  /-- Who is credited with the reward. -/
  rewardOwner : EntityId
  deriving DecidableEq, Inhabited

/-- The length of the staking period in seconds. -/
def StakerTx.duration (tx : StakerTx) : UInt64 := saturatingSub tx.endTime tx.startTime

/-- The ordering key of a staker. -/
structure StakerKey where
  nextTime : UInt64
  priority : Priority
  txId : EntityId
  deriving DecidableEq, Inhabited

namespace StakerKey

instance : Ord StakerKey :=
  ⟨compareLex (compareOn nextTime) (compareLex (compareOn priority) (compareOn txId))⟩

instance : Std.TransOrd StakerKey :=
  inferInstanceAs
    (Std.TransCmp
      (compareLex (compareOn nextTime) (compareLex (compareOn priority) (compareOn txId))))

instance : Std.LawfulEqOrd StakerKey where
  eq_of_compare {a b} h := by
    change compareLex _ _ a b = .eq at h
    simp only [compareLex_eq_eq] at h
    obtain ⟨htime, hpriority, htx⟩ := h
    have h₁ : a.nextTime = b.nextTime := Std.LawfulEqCmp.eq_of_compare htime
    have h₂ : a.priority = b.priority := Std.LawfulEqCmp.eq_of_compare hpriority
    have h₃ : a.txId = b.txId := Std.LawfulEqCmp.eq_of_compare htx
    cases a; cases b; cases h₁; cases h₂; cases h₃; rfl

end StakerKey

/-- A validator's place: one node on one supernet. -/
structure Slot where
  supernetId : EntityId
  nodeId : NodeId
  deriving DecidableEq, Inhabited

namespace Slot

instance : Ord Slot := ⟨compareLex (compareOn supernetId) (compareOn nodeId)⟩

instance : Std.TransOrd Slot :=
  inferInstanceAs (Std.TransCmp (compareLex (compareOn supernetId) (compareOn nodeId)))

instance : Std.LawfulEqOrd Slot where
  eq_of_compare {a b} h := by
    change compareLex _ _ a b = .eq at h
    simp only [compareLex_eq_eq] at h
    have h₁ : a.supernetId = b.supernetId := Std.LawfulEqCmp.eq_of_compare h.1
    have h₂ : a.nodeId = b.nodeId := Std.LawfulEqCmp.eq_of_compare h.2
    cases a; cases b; cases h₁; cases h₂; rfl

end Slot

/-- One validation or delegation commitment. -/
structure Staker where
  txId : EntityId
  nodeId : NodeId
  publicKey : Option Bytes
  supernetId : EntityId
  weight : UInt64
  startTime : UInt64
  endTime : UInt64
  /-- The reward owed at retirement, fixed at promotion. -/
  potentialReward : UInt64
  /-- The start time while pending, the end time while current. -/
  nextTime : UInt64
  priority : Priority
  deriving DecidableEq, Inhabited

/-- A set of stakers in their order. -/
abbrev StakerTree := OrderedMap StakerKey Staker

/-- Stakers taken out of a set, by transaction. -/
abbrev DeletedStakers := OrderedMap EntityId Staker

namespace Staker

/-- A staking period must not be empty. -/
def checkWindow (tx : StakerTx) : Answer Unit :=
  if tx.startTime < tx.endTime then .ok ()
  else .error (.invalidStaker (.emptyWindow tx.txId tx.startTime tx.endTime))

/-- The staker that waits for the start of its period. -/
def newPending (tx : StakerTx) : Answer Staker := do
  checkWindow tx
  return {
    txId := tx.txId, nodeId := tx.nodeId, publicKey := tx.publicKey
    supernetId := tx.supernetId, weight := tx.weight
    startTime := tx.startTime, endTime := tx.endTime
    potentialReward := 0, nextTime := tx.startTime, priority := .pending tx.kind }

/-- The staker that is current from the beginning, as at genesis. -/
def newCurrent (tx : StakerTx) (potentialReward : UInt64) : Answer Staker := do
  checkWindow tx
  return {
    txId := tx.txId, nodeId := tx.nodeId, publicKey := tx.publicKey
    supernetId := tx.supernetId, weight := tx.weight
    startTime := tx.startTime, endTime := tx.endTime
    potentialReward := potentialReward, nextTime := tx.endTime, priority := .current tx.kind }

/-- The current staker that a pending one becomes. -/
def promoted (s : Staker) (potentialReward : UInt64) : Staker :=
  { s with
    potentialReward := potentialReward
    nextTime := s.endTime
    priority := s.priority.toCurrent }

/-- The key that orders the staker within any set. -/
def key (s : Staker) : StakerKey := ⟨s.nextTime, s.priority, s.txId⟩

def slot (s : Staker) : Slot := ⟨s.supernetId, s.nodeId⟩

/-- The length of the staking period in seconds. -/
def duration (s : Staker) : UInt64 := saturatingSub s.endTime s.startTime

def isValidator (s : Staker) : Bool := s.priority.isValidator

/-- Whether `a` may stand before `b`: its key is not the greater one. -/
def notAfter (a b : Staker) : Bool := (compare b.key a.key).isGE

end Staker

/-- The set of the given stakers; of two with the same key the later one counts. -/
def StakerTree.ofStakers (stakers : List Staker) : StakerTree :=
  .ofList (stakers.map fun s => (s.key, s))

/-- The given stakers by transaction; of two of the same transaction the later one counts. -/
def DeletedStakers.ofStakers (stakers : List Staker) : DeletedStakers :=
  .ofList (stakers.map fun s => (s.txId, s))

end StakingLedger
