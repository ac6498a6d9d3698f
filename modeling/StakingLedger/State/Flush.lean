import StakingLedger.State.Basic

/-! # Flushing the root

A commit writes everything that waits in memory to the store, as one batch. For
each touched slot of the current set it also records how the validator's weight
changed and which key the validator had before, so that the validator sets of
past heights can be found again. A flush is refused when a value to be written
has no byte form.
-/

namespace StakingLedger

/-- Refuses values without byte form. -/
def requireEncodable (encodable : Bool) : Answer Unit :=
  if encodable then .ok () else .error (.overflow .encodedLength)

namespace SlotDiff

/-- The changes of weight in a slot: the validator's, then those of the delegators. -/
def weightSteps (d : SlotDiff) : List WeightChange :=
  let ofValidator := match d.status, d.validator with
    | .added, some v =>
      (d.superseded.map fun old => (⟨true, old.weight⟩ : WeightChange)).toList ++
        [⟨false, v.weight⟩]
    | .deleted, some v => [⟨true, v.weight⟩]
    | _, _ => []
  ofValidator ++ d.addedDelegators.values.map (fun s => ⟨false, s.weight⟩) ++
    d.deletedDelegators.values.map (fun s => ⟨true, s.weight⟩)

/-- The net change of weight in a slot. -/
def weightChange (d : SlotDiff) : Answer WeightChange := WeightChange.zero.addAll d.weightSteps

/-- The key that the slot's validator had before, if the key changed. -/
def previousKey? (d : SlotDiff) : Option (Option Bytes) :=
  match d.status, d.validator with
  | .added, some v =>
    let old := d.superseded.bind (·.publicKey)
    if old ≠ v.publicKey then some old else none
  | .deleted, some v => if v.publicKey.isSome then some v.publicKey else none
  | _, _ => none

/-- The stored stakers that change with a slot. -/
def stakerWrites (space : KeySpace) (d : SlotDiff) : WriteBatch :=
  let ofValidator : WriteBatch := match d.status, d.validator with
    | .added, some v =>
      ⟨[(space.idKey v.txId, toCanonical v)], (d.superseded.map fun s => space.idKey s.txId).toList⟩
    | .deleted, some v => ⟨[], [space.idKey v.txId]⟩
    | _, _ => {}
  ofValidator ++
    ⟨d.addedDelegators.values.map fun s => (space.idKey s.txId, toCanonical s),
      d.deletedDelegators.keys.map space.idKey⟩

/-- Whether the stakers that a slot adds have a byte form. -/
def encodable (d : SlotDiff) : Bool :=
  let ofValidator := match d.status, d.validator with
    | .added, some v => Codec.fits v
    | _, _ => true
  ofValidator && d.addedDelegators.values.all Codec.fits

/-- The history entries of a slot at a height. -/
def historyWrites (height : UInt64) (slot : Slot) (d : SlotDiff) :
    Answer (List (Bytes × Bytes)) := do
  let weight ← d.weightChange
  let ofWeight := if weight.isZero then [] else
    [(Key.change .weightChange slot.supernetId height slot.nodeId, toCanonical weight)]
  requireEncodable (d.previousKey?.all Codec.fits)
  let ofKey := match d.previousKey? with
    | some old =>
      [(Key.change .publicKeyChange slot.supernetId height slot.nodeId, toCanonical old)]
    | none => []
  return ofWeight ++ ofKey

end SlotDiff

/-- The history entries of all changed slots. -/
def SlotDiffs.historyWrites (diffs : SlotDiffs) (height : UInt64) :
    Answer (List (Bytes × Bytes)) := do
  let writes ← diffs.entries.mapM fun e => SlotDiff.historyWrites height e.1 e.2
  return writes.flatten

/-- The stored stakers that change with the slots. -/
def SlotDiffs.stakerWrites (diffs : SlotDiffs) (space : KeySpace) : WriteBatch :=
  diffs.values.foldl (fun batch d => batch ++ d.stakerWrites space) {}

/-- Whether the stakers that the slots add have a byte form. -/
def SlotDiffs.encodable (diffs : SlotDiffs) : Bool := diffs.values.all SlotDiff.encodable

/-- Whether the records that change have a byte form. The other kinds are of fixed length. -/
def RecordEdits.encodable (e : RecordEdits) : Bool :=
  e.chains.values.all (fun chains => chains.values.all Codec.fits) && e.txs.values.all Codec.fits

/-- The stored records of a space that are put. -/
def RecordEdits.putsIn (e : RecordEdits) : KeySpace → List (Bytes × Bytes)
  | .utxo => e.utxos.entries.filterMap fun (id, utxo?) =>
    utxo?.map fun utxo => (Key.utxo id, toCanonical utxo)
  | .rewardUtxo => e.rewardUtxos.entries.flatMap fun (stakerTx, utxos) =>
    utxos.map fun utxo => (Key.rewardUtxo stakerTx utxo.id.outputIndex, toCanonical utxo)
  | .supernet => e.supernets.entries.map fun (id, supernet) =>
    (KeySpace.supernet.idKey id, toCanonical supernet)
  | .transformation => e.transformations.entries.map fun (id, transformation) =>
    (KeySpace.transformation.idKey id, toCanonical transformation)
  | .chain => e.chains.entries.flatMap fun (supernet, chains) =>
    chains.entries.map fun (id, chain) => (Key.chain supernet id, toCanonical chain)
  | .tx => e.txs.entries.map fun (id, tx) => (KeySpace.tx.idKey id, toCanonical tx)
  | _ => []

/-- The keys of the outputs that were spent. -/
def RecordEdits.spentKeys (e : RecordEdits) : List Bytes :=
  e.utxos.entries.filterMap fun (id, utxo?) => if utxo?.isNone then some (Key.utxo id) else none

/-- The stored records that change. -/
def RecordEdits.writes (e : RecordEdits) : WriteBatch :=
  ⟨[.utxo, .rewardUtxo, .supernet, .transformation, .chain, .tx].flatMap e.putsIn, e.spentKeys⟩

namespace State

/-- The balances that were set since the last flush. -/
def balanceWrites (key : EntityId → Bytes) (touched : IdSet)
    (balances : OrderedMap EntityId UInt64) : List (Bytes × Bytes) :=
  touched.keys.filterMap fun supernet =>
    (balances.get? supernet).map fun amount => (key supernet, wordBytes amount)

/-- The figures of a space at a height: time and fees, and the balances that were set. -/
def figuresIn (s : State) (height : UInt64) : KeySpace → List (Bytes × Bytes)
  | .height => [(KeySpace.height.bytes, wordBytes height)]
  | .timestamp => [(KeySpace.timestamp.bytes, wordBytes s.timestamp)]
  | .feePool => [(KeySpace.feePool.bytes, wordBytes s.feePool)]
  | .supply => balanceWrites Key.supply s.unflushed.supplies s.supplies
  | .rewardPool => balanceWrites Key.rewardPool s.unflushed.rewardPools s.rewardPools
  | _ => []

/-- Everything that a flush at `height` writes, given the history entries. -/
def batch (s : State) (height : UInt64) (history : List (Bytes × Bytes)) : WriteBatch :=
  let figures : WriteBatch :=
    ⟨[.height, .timestamp, .feePool, .supply, .rewardPool].flatMap (s.figuresIn height), []⟩
  figures ++ s.registries.current.diffs.stakerWrites .currentStaker ++
    s.registries.pending.diffs.stakerWrites .pendingStaker ++ ⟨history, []⟩ ++
    s.unflushed.edits.writes

/-- Whether every record that waits has a byte form. -/
def encodable (s : State) : Bool :=
  s.registries.current.diffs.encodable && s.registries.pending.diffs.encodable &&
    s.unflushed.edits.encodable

def flushBatch (s : State) (height : UInt64) : Answer WriteBatch := do
  requireEncodable s.encodable
  let history ← s.registries.current.diffs.historyWrites height
  return s.batch height history

/-- Writes everything that waits to the store, as the ledger of `height`. -/
def flush (s : State) (height : UInt64) : Answer State := do
  let batch ← s.flushBatch height
  return { s with
    store := s.store.write batch
    height := height
    registries := ⟨s.registries.current.clearDiffs, s.registries.pending.clearDiffs⟩
    unflushed := {} }

/-- The height after the last commit. -/
def nextHeight (s : State) : Answer UInt64 :=
  if s.height.toNat + 1 < UInt64.size then .ok (s.height + 1)
  else .error (.overflow (.heightAfter s.height))

/-- Flushes as the ledger of `height`, which has to follow the last commit. -/
def commit (s : State) (height : UInt64) : Answer State := do
  let expected ← s.nextHeight
  if height ≠ expected then throw (.invariantViolation (.commitHeight height expected))
  s.flush height

end State

end StakingLedger
