import StakingLedger.Transaction

/-! # Validator sets, now and at past heights

A supernet's validator set lists its current validators by node, each with its
own weight and that of its delegators. The set after an earlier commit is found
by undoing the recorded changes of every later height, newest first.
-/

namespace StakingLedger

/-- The entry of a validator with the weight of its delegators. -/
def Ledger.validatorEntry (l : Ledger) (validator : Staker) : Answer ValidatorEntry := do
  let delegators ← l.delegators .current validator.slot
  let weight ← Ledger.addWeights validator.weight delegators.toList
  return ⟨validator.nodeId, weight, validator.publicKey⟩

/-- The current validators of a supernet, by node. -/
def Ledger.validatorSet (l : Ledger) (supernet : EntityId) : Answer (List ValidatorEntry) := do
  let current ← l.stakers .current
  let validators := current.toList.filter fun s => s.supernetId == supernet && s.isValidator
  let entries ← validators.mapM l.validatorEntry
  return (OrderedMap.ofList (entries.map fun e => (e.nodeId, e))).values

/-- A validator set under reconstruction: weight and key by node. -/
abbrev ValidatorMap := OrderedMap NodeId (UInt64 × Option Bytes)

namespace ValidatorMap

def ofEntries (entries : List ValidatorEntry) : ValidatorMap :=
  .ofList (entries.map fun e => (e.nodeId, e.weight, e.publicKey))

def toEntries (set : ValidatorMap) : List ValidatorEntry :=
  set.entries.map fun (node, weight, key) => ⟨node, weight, key⟩

/-- Undoes a change of weight; a node without weight is no validator. -/
def undoWeight (set : ValidatorMap) (node : NodeId) (change : WeightChange) :
    Answer ValidatorMap := do
  let (weight, key) := (set.get? node).getD (0, none)
  let before ← if change.decrease then checkedAdd weight change.amount "historical weight"
    else checkedSub weight change.amount "historical weight"
  return if before = 0 then set.erase node else set.insert node (before, key)

/-- Gives a validator the key it had before. -/
def undoKey (set : ValidatorMap) (node : NodeId) (previous : Option Bytes) : ValidatorMap :=
  match set.get? node with
  | some (weight, _) => set.insert node (weight, previous)
  | none => set

end ValidatorMap

namespace State

/-- Undoes the stored changes above `height`, in the order of the scan. -/
def undoAbove {α : Type} [Codec α] (space : KeySpace) (what : String) (height : UInt64)
    (undo : ValidatorMap → NodeId → α → Answer ValidatorMap) (set : ValidatorMap) :
    List (Bytes × Bytes) → Answer ValidatorMap
  | [] => .ok set
  | (key, value) :: rest => do
    let (_, changed, node) ← Key.parseChange space key
    if changed ≤ height then return set
    let change : α ← ofCanonical value what
    let before ← undo set node change
    undoAbove space what height undo before rest

/-- The stored changes of a supernet up to `tip`, newest first. -/
def changesFrom (s : State) (space : KeySpace) (supernet : EntityId) (tip : UInt64) :
    List (Bytes × Bytes) :=
  s.store.scanFrom (space.idKey supernet) (Key.changeScanStart space supernet tip)

/-- The validators of a supernet as they were after the commit of `height`. -/
def validatorSetAt (s : State) (supernet : EntityId) (height : UInt64) :
    Answer (List ValidatorEntry) := do
  if s.hasUncommittedChanges then throw (.invariantViolation .uncommittedHistory)
  let tip := s.height
  if tip < height then throw (.invariantViolation (.heightAboveTip height tip))
  let entries ← (Ledger.root s).validatorSet supernet
  let set := ValidatorMap.ofEntries entries
  if height = tip then return set.toEntries
  let weights ← undoAbove .weightChange "weight diff" height ValidatorMap.undoWeight set
    (s.changesFrom .weightChange supernet tip)
  let keys ← undoAbove .publicKeyChange "public key diff" height
    (fun set node previous => .ok (set.undoKey node previous)) weights
    (s.changesFrom .publicKeyChange supernet tip)
  return keys.toEntries

end State

end StakingLedger
