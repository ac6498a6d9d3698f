import StakingLedger.Proofs.ValidatorSet.Historical

/-! # The names of records

All kinds of records share one space of keys. A record is named by its kind and its identifiers,
and its key tells the name, so no two records meet in one key. A scan of the ledger begins with the
lead of a kind, and perhaps an identifier, and finds the records named so. A scan of changes starts
at a height and leaves out what was recorded for later ones; in the store of a ledger there is
nothing above its own height.
-/

namespace StakingLedger

/-- The kinds of records with what identifies a record among those of its kind. -/
inductive RecordName where
  | timestamp
  | height
  | feePool
  | supply (supernet : EntityId)
  | rewardPool (supernet : EntityId)
  | currentStaker (txId : EntityId)
  | pendingStaker (txId : EntityId)
  | weightChange (supernet : EntityId) (height : UInt64) (node : NodeId)
  | publicKeyChange (supernet : EntityId) (height : UInt64) (node : NodeId)
  | utxo (id : UtxoId)
  | rewardUtxo (stakerTx : EntityId) (index : UInt32)
  | supernet (id : EntityId)
  | transformation (supernet : EntityId)
  | chain (supernet id : EntityId)
  | tx (id : EntityId)
  deriving DecidableEq

namespace RecordName

variable {r r' : RecordName}

def space : RecordName → KeySpace
  | .timestamp => .timestamp
  | .height => .height
  | .feePool => .feePool
  | .supply _ => .supply
  | .rewardPool _ => .rewardPool
  | .currentStaker _ => .currentStaker
  | .pendingStaker _ => .pendingStaker
  | .weightChange .. => .weightChange
  | .publicKeyChange .. => .publicKeyChange
  | .utxo _ => .utxo
  | .rewardUtxo .. => .rewardUtxo
  | .supernet _ => .supernet
  | .transformation _ => .transformation
  | .chain .. => .chain
  | .tx _ => .tx

/-- The key that a record is stored under. -/
def key : RecordName → Bytes
  | .timestamp => KeySpace.timestamp.bytes
  | .height => KeySpace.height.bytes
  | .feePool => KeySpace.feePool.bytes
  | .supply id => Key.supply id
  | .rewardPool id => Key.rewardPool id
  | .currentStaker txId => (KeySpace.staker .current).idKey txId
  | .pendingStaker txId => (KeySpace.staker .pending).idKey txId
  | .weightChange id k node => Key.change .weightChange id k node
  | .publicKeyChange id k node => Key.change .publicKeyChange id k node
  | .utxo id => Key.utxo id
  | .rewardUtxo stakerTx index => Key.rewardUtxo stakerTx index
  | .supernet id => KeySpace.supernet.idKey id
  | .transformation id => KeySpace.transformation.idKey id
  | .chain owner id => Key.chain owner id
  | .tx id => KeySpace.tx.idKey id

/-- The key is one of the space of its kind. -/
theorem names_key (r : RecordName) : r.space.Names r.key := by
  cases r with
  | timestamp | height | feePool => exact .single (by rfl)
  | supply id | rewardPool id | currentStaker id | pendingStaker id | supernet id
  | transformation id | tx id => exact .idKey (by rfl) id
  | weightChange id k node | publicKeyChange id k node => exact .change (by rfl) id k node
  | utxo id => exact .utxo id
  | rewardUtxo stakerTx index => exact .rewardUtxo stakerTx index
  | chain owner id => exact .chain owner id

/-- The key of a record tells its kind and its identifiers. -/
theorem key_inj : r.key = r'.key ↔ r = r' := by
  refine ⟨fun h => ?_, congrArg key⟩
  have hspace : r.space = r'.space := r.names_key.unique (h ▸ r'.names_key)
  cases r with
  | timestamp | height | feePool =>
      cases r' <;> cases hspace
      rfl
  | supply id | rewardPool id | currentStaker id | pendingStaker id | supernet id
  | transformation id | tx id =>
      cases r' <;> cases hspace
      cases KeySpace.idKey_inj.mp h
      rfl
  | weightChange id k node | publicKeyChange id k node =>
      cases r' <;> cases hspace
      obtain ⟨rfl, rfl, rfl⟩ := Key.change_inj.mp h
      rfl
  | utxo id =>
      cases r' <;> cases hspace
      cases Key.utxo_inj.mp h
      rfl
  | rewardUtxo stakerTx index =>
      cases r' <;> cases hspace
      obtain ⟨rfl, rfl⟩ := Key.rewardUtxo_inj.mp h
      rfl
  | chain owner id =>
      cases r' <;> cases hspace
      obtain ⟨rfl, rfl⟩ := Key.chain_inj.mp h
      rfl

section ExistsKey

variable {space : KeySpace} {key : Bytes}

theorem exists_key_of_single (name : RecordName) (hname : name.key = space.bytes)
    (hwidth : space.width = 0) (h : space.Names key) : ∃ r : RecordName, r.key = key :=
  ⟨name, hname.trans (h.eq_bytes hwidth).symm⟩

theorem exists_key_of_id (name : EntityId → RecordName)
    (hname : ∀ id, (name id).key = space.idKey id) (hwidth : space.width = 32)
    (h : space.Names key) : ∃ r : RecordName, r.key = key := by
  obtain ⟨id, rfl⟩ := h.exists_id hwidth
  exact ⟨name id, hname id⟩

theorem exists_key_of_change (name : EntityId → UInt64 → NodeId → RecordName)
    (hname : ∀ id k node, (name id k node).key = Key.change space id k node)
    (hwidth : space.width = Key.changeSuffixLength) (h : space.Names key) :
    ∃ r : RecordName, r.key = key := by
  obtain ⟨suffix, rfl, hlength⟩ := h
  obtain ⟨id, k, node, heq⟩ := Key.exists_changeUnder space.bytes (hlength.trans hwidth)
  exact ⟨name id k node, (hname id k node).trans heq.symm⟩

/-- Every key of a space is the key of a record. -/
theorem exists_key (h : space.Names key) : ∃ r : RecordName, r.key = key := by
  cases space with
  | timestamp => exact exists_key_of_single .timestamp rfl rfl h
  | height => exact exists_key_of_single .height rfl rfl h
  | feePool => exact exists_key_of_single .feePool rfl rfl h
  | supply => exact exists_key_of_id .supply (fun _ => rfl) rfl h
  | rewardPool => exact exists_key_of_id .rewardPool (fun _ => rfl) rfl h
  | currentStaker => exact exists_key_of_id .currentStaker (fun _ => rfl) rfl h
  | pendingStaker => exact exists_key_of_id .pendingStaker (fun _ => rfl) rfl h
  | supernet => exact exists_key_of_id .supernet (fun _ => rfl) rfl h
  | transformation => exact exists_key_of_id .transformation (fun _ => rfl) rfl h
  | tx => exact exists_key_of_id .tx (fun _ => rfl) rfl h
  | weightChange => exact exists_key_of_change .weightChange (fun _ _ _ => rfl) rfl h
  | publicKeyChange => exact exists_key_of_change .publicKeyChange (fun _ _ _ => rfl) rfl h
  | utxo =>
      obtain ⟨id, rfl⟩ := h.exists_utxo
      exact ⟨.utxo id, rfl⟩
  | rewardUtxo =>
      obtain ⟨stakerTx, index, rfl⟩ := h.exists_rewardUtxo
      exact ⟨.rewardUtxo stakerTx index, rfl⟩
  | chain =>
      obtain ⟨owner, id, rfl⟩ := h.exists_chain
      exact ⟨.chain owner id, rfl⟩

end ExistsKey

end RecordName

/-! ## Scans -/

/-- The scans that a ledger makes of its store. -/
inductive LedgerScan where
  /-- Made by `State.loadBalances`. -/
  | supplies
  /-- Made by `State.loadBalances`. -/
  | rewardPools
  /-- Made by `State.loadRegistry`. -/
  | stakers (phase : Phase)
  /-- Made by `State.rewardUtxos`. -/
  | rewardUtxos (stakerTx : EntityId)
  /-- Made by `State.chains`. -/
  | chains (supernet : EntityId)
  /-- Made by `State.changesFrom`, with the height of the last commit as `tip`. -/
  | weightChanges (supernet : EntityId) (tip : UInt64)
  /-- Made by `State.changesFrom`, with the height of the last commit as `tip`. -/
  | publicKeyChanges (supernet : EntityId) (tip : UInt64)

namespace LedgerScan

variable {scan : LedgerScan} {r : RecordName} {store : Store} {key value : Bytes}

def space : LedgerScan → KeySpace
  | supplies => .supply
  | rewardPools => .rewardPool
  | stakers phase => .staker phase
  | rewardUtxos _ => .rewardUtxo
  | chains _ => .chain
  | weightChanges .. => .weightChange
  | publicKeyChanges .. => .publicKeyChange

/-- What a scan finds in a store. -/
def found (store : Store) : LedgerScan → List (Bytes × Bytes)
  | supplies => store.scan KeySpace.supply.bytes
  | rewardPools => store.scan KeySpace.rewardPool.bytes
  | stakers phase => store.scan (KeySpace.staker phase).bytes
  | rewardUtxos stakerTx => store.scan (KeySpace.rewardUtxo.idKey stakerTx)
  | chains supernet => store.scan (KeySpace.chain.idKey supernet)
  | weightChanges supernet tip => store.scanFrom (KeySpace.weightChange.idKey supernet)
      (Key.changeScanStart .weightChange supernet tip)
  | publicKeyChanges supernet tip => store.scanFrom (KeySpace.publicKeyChange.idKey supernet)
      (Key.changeScanStart .publicKeyChange supernet tip)

/-- A scan asks for a record. -/
inductive Asks : LedgerScan → RecordName → Prop
  | supply (supernet : EntityId) : Asks .supplies (.supply supernet)
  | rewardPool (supernet : EntityId) : Asks .rewardPools (.rewardPool supernet)
  | currentStaker (txId : EntityId) : Asks (.stakers .current) (.currentStaker txId)
  | pendingStaker (txId : EntityId) : Asks (.stakers .pending) (.pendingStaker txId)
  | rewardUtxo (stakerTx : EntityId) (index : UInt32) :
      Asks (.rewardUtxos stakerTx) (.rewardUtxo stakerTx index)
  | chain (supernet id : EntityId) : Asks (.chains supernet) (.chain supernet id)
  | weightChange (supernet : EntityId) {tip height : UInt64} (node : NodeId) (h : height ≤ tip) :
      Asks (.weightChanges supernet tip) (.weightChange supernet height node)
  | publicKeyChange (supernet : EntityId) {tip height : UInt64} (node : NodeId)
      (h : height ≤ tip) :
      Asks (.publicKeyChanges supernet tip) (.publicKeyChange supernet height node)

/-- What the keys begin with that a scan goes through. -/
def lead : LedgerScan → Bytes
  | supplies => KeySpace.supply.bytes
  | rewardPools => KeySpace.rewardPool.bytes
  | stakers phase => (KeySpace.staker phase).bytes
  | rewardUtxos stakerTx => KeySpace.rewardUtxo.idKey stakerTx
  | chains supernet => KeySpace.chain.idKey supernet
  | weightChanges supernet _ => KeySpace.weightChange.idKey supernet
  | publicKeyChanges supernet _ => KeySpace.publicKeyChange.idKey supernet

/-- The key that a scan begins at. -/
def start : LedgerScan → Bytes
  | weightChanges supernet tip => Key.changeScanStart .weightChange supernet tip
  | publicKeyChanges supernet tip => Key.changeScanStart .publicKeyChange supernet tip
  | scan => scan.lead

theorem found_eq (store : Store) (scan : LedgerScan) :
    scan.found store = store.scanFrom scan.lead scan.start := by
  cases scan <;> rfl

theorem exists_lead_eq (scan : LedgerScan) : ∃ ident, scan.lead = scan.space.bytes ++ ident := by
  cases scan with
  | supplies | rewardPools | stakers phase => exact ⟨[], (List.append_nil _).symm⟩
  | rewardUtxos id | chains id | weightChanges id tip | publicKeyChanges id tip =>
      exact ⟨id.toList, rfl⟩

/-- A scan goes through the keys of the records that it asks for, and no other records. -/
theorem asks_iff : scan.Asks r ↔ scan.lead <+: r.key ∧ compare scan.start r.key ≠ .gt := by
  constructor
  · intro h
    cases h with
    | weightChange id node hle | publicKeyChange id node hle =>
        exact ⟨Key.prefix_changeUnder.mpr rfl, Key.changeScanStartUnder_not_gt.mpr hle⟩
    -- Every other scan begins at its lead, which no key under it precedes.
    | _ => exact ⟨List.prefix_append _ _, Bytes.compare_lead_ne_gt (List.prefix_append _ _)⟩
  · rintro ⟨hlead, hstart⟩
    obtain ⟨ident, hident⟩ := scan.exists_lead_eq
    have hspace : r.space = scan.space := r.names_key.of_prefix (hident ▸ hlead)
    cases scan with
    | supplies =>
        cases r <;> cases hspace
        exact .supply _
    | rewardPools =>
        cases r <;> cases hspace
        exact .rewardPool _
    | stakers phase =>
        cases phase with
        | current =>
            cases r <;> cases hspace
            exact .currentStaker _
        | pending =>
            cases r <;> cases hspace
            exact .pendingStaker _
    | rewardUtxos stakerTx =>
        cases r <;> cases hspace
        cases KeySpace.idKey_prefix_append.mp hlead
        exact .rewardUtxo _ _
    | chains supernet =>
        cases r <;> cases hspace
        cases KeySpace.idKey_prefix_append.mp hlead
        exact .chain _ _
    | weightChanges supernet tip =>
        cases r <;> cases hspace
        cases Key.prefix_changeUnder.mp hlead
        exact .weightChange _ _ (Key.changeScanStartUnder_not_gt.mp hstart)
    | publicKeyChanges supernet tip =>
        cases r <;> cases hspace
        cases Key.prefix_changeUnder.mp hlead
        exact .publicKeyChange _ _ (Key.changeScanStartUnder_not_gt.mp hstart)

/-- A scan finds each record of a store once that it asks for, in key order, and nothing else. -/
structure Exact (scan : LedgerScan) (store : Store) : Prop where
  ascending : Store.Ascending (scan.found store)
  mem_iff : ∀ key value, (key, value) ∈ scan.found store ↔
    ∃ r : RecordName, scan.Asks r ∧ r.key = key ∧ store.get? key = some value

end LedgerScan

/-! ## Stores of records -/

namespace Store

variable {store : Store} {space : KeySpace} {key : Bytes}

/-- Every key is the key of a record. -/
def HoldsRecords (store : Store) : Prop :=
  ∀ key value, store.get? key = some value → ∃ r : RecordName, r.key = key

theorem holdsRecords_iff_keyed : store.HoldsRecords ↔ store.Keyed := by
  constructor
  · intro h key value hget
    obtain ⟨r, rfl⟩ := h key value hget
    exact ⟨r.space, r.names_key⟩
  · intro h key value hget
    obtain ⟨space, hnames⟩ := h key value hget
    exact RecordName.exists_key hnames

theorem HoldsRecords.exact (h : store.HoldsRecords) (scan : LedgerScan) : scan.Exact store where
  ascending := by
    rw [scan.found_eq]
    exact store.scanFrom_ascending _ _
  mem_iff key value := by
    rw [scan.found_eq, mem_scanFrom]
    constructor
    · rintro ⟨hget, hscanned⟩
      obtain ⟨r, rfl⟩ := h key value hget
      exact ⟨r, LedgerScan.asks_iff.mpr hscanned, rfl, hget⟩
    · rintro ⟨r, hasks, rfl, hget⟩
      exact ⟨hget, LedgerScan.asks_iff.mp hasks⟩

/-- A store with the records of a list. -/
def ofRecords (records : List (RecordName × Bytes)) : Store :=
  ({} : Store).write ⟨records.map fun e => (e.1.key, e.2), []⟩

theorem holdsRecords_ofRecords (records : List (RecordName × Bytes)) :
    (ofRecords records).HoldsRecords := by
  rw [holdsRecords_iff_keyed]
  refine keyed_empty.write fun e he => ?_
  obtain ⟨r, -, rfl⟩ := List.mem_map.mp he
  exact ⟨r.1.space, r.1.names_key⟩

/-- Two records have one key only if they are one record. And where all keys are those of records,
each scan of the ledger finds exactly the records of its kind and identifier, the scans of changes
those up to the height that they start from. -/
theorem records_kept_apart :
    (∀ r r' : RecordName, r.key = r'.key → r = r') ∧
      ∀ store : Store, store.HoldsRecords → ∀ scan : LedgerScan, scan.Exact store :=
  ⟨fun _ _ => RecordName.key_inj.mp, fun _ hrecords scan => hrecords.exact scan⟩

/-- A validator at height 1, with a change of its weight at height 2. -/
def ahead : Store := ofRecords [
  (.height, wordBytes 1), (.timestamp, wordBytes 5), (.feePool, wordBytes 0),
  (.currentStaker soloTx.txId, toCanonical (currentStaker soloTx 1)),
  (.weightChange .primaryNetwork 2 soloTx.nodeId, toCanonical (WeightChange.mk false 500))]

/-- The validator is found among the current stakers only, and the change from height 2 on. -/
theorem records_kept_apart_ahead :
    ahead.HoldsRecords ∧
      ((RecordName.currentStaker soloTx.txId).key, toCanonical (currentStaker soloTx 1)) ∈
        (LedgerScan.stakers .current).found ahead ∧
      (∀ e ∈ (LedgerScan.stakers .pending).found ahead,
        e.1 ≠ (RecordName.currentStaker soloTx.txId).key) ∧
      ((RecordName.weightChange .primaryNetwork 2 soloTx.nodeId).key,
        toCanonical (WeightChange.mk false 500)) ∈
          (LedgerScan.weightChanges .primaryNetwork 2).found ahead := by
  have hrecords : ahead.HoldsRecords := holdsRecords_ofRecords _
  have hexact := records_kept_apart.2 ahead hrecords
  refine ⟨hrecords, ?_, ?_, ?_⟩
  · exact ((hexact _).mem_iff _ _).mpr ⟨_, .currentStaker _, rfl, by decide +kernel⟩
  · rintro ⟨key, value⟩ he hkey
    obtain ⟨r, hasks, heq, -⟩ := ((hexact _).mem_iff _ _).mp he
    cases hasks
    cases records_kept_apart.1 _ _ (heq.trans hkey)
  · exact ((hexact _).mem_iff _ _).mpr
      ⟨_, .weightChange _ _ (by decide), rfl, by decide +kernel⟩

end Store

/-! ## Changes above the height of a ledger -/

/-- Where nothing changes after `tip`, nothing is recorded above it. -/
theorem Store.Follows.height_le {α : Type} [Codec α] {store : Store} {space : KeySpace}
    {record : List Staker → List Staker → Slot → Option α} {held : Nat → List Staker} {tip : Nat}
    (h : store.Follows space record held) (hself : ∀ l slot, record l l slot = none)
    (hlast : ∀ k, tip ≤ k → held k = held tip) {supernet : EntityId} {height : UInt64}
    {node : NodeId} {value : Bytes}
    (hget : store.get? (Key.change space supernet height node) = some value) :
    height.toNat ≤ tip := by
  refine Decidable.byContradiction fun hlt => ?_
  have hpositive : height ≠ 0 := by
    rintro rfl
    exact hlt (Nat.zero_le _)
  have hnone := h height ⟨supernet, node⟩ hpositive
  rw [hlast (height.toNat - 1) (by omega), hlast height.toNat (by omega), hself] at hnone
  cases hget.symm.trans hnone

namespace State

variable {book : Book} {s : State} {commits : List State} {space : KeySpace}

/-- In the store of a ledger with a history every key is that of a record, and a scan of changes
from its height leaves none out. -/
theorem History.changes_found (h : History book commits s) :
    s.store.HoldsRecords ∧ (space = .weightChange ∨ space = .publicKeyChange →
      ∀ supernet height node value,
        s.store.get? (Key.change space supernet height node) = some value →
          (Key.change space supernet height node, value) ∈
            s.changesFrom space supernet s.height) := by
  obtain ⟨last, c, held, hkept, htraced⟩ := h.traced
  refine ⟨Store.holdsRecords_iff_keyed.mpr hkept.durable.keyed, ?_⟩
  intro hspace supernet height node value hget
  have hle : height.toNat ≤ s.height.toNat := by
    rcases hspace with rfl | rfl
    · exact htraced.remembers.weights.height_le weightRecord_self htraced.steady hget
    · exact htraced.remembers.keys.height_le keyRecord_self htraced.steady hget
  exact Store.mem_scanFrom_changeUnder.mpr ⟨UInt64.le_iff_toNat_le.mpr hle, hget⟩

/-- No ledger writes such a store, but one can be loaded from it, and its scan for the past leaves
out the change that is stored for the height to come. -/
theorem changes_ahead_left_out :
    Store.ahead.HoldsRecords ∧
      Store.ahead.get? (RecordName.weightChange .primaryNetwork 2 soloTx.nodeId).key =
        some (toCanonical (WeightChange.mk false 500)) ∧
      ∃ s, load Store.ahead = .ok s ∧ s.height = 1 ∧
        s.changesFrom .weightChange .primaryNetwork s.height = [] ∧
        s.validatorSetAt .primaryNetwork 0 = .ok [⟨soloTx.nodeId, 2000, none⟩] := by
  refine ⟨Store.holdsRecords_ofRecords _, by decide +kernel, ?_⟩
  have hload : (load Store.ahead).map (fun s => (s.height,
      s.changesFrom .weightChange .primaryNetwork s.height,
      s.validatorSetAt .primaryNetwork 0)) = .ok (1, [], .ok [⟨soloTx.nodeId, 2000, none⟩]) := by
    decide +kernel
  obtain ⟨s, hs, hread⟩ := map_eq_ok_iff.mp hload
  simp only [Prod.mk.injEq] at hread
  exact ⟨s, hs, hread⟩

end State

end StakingLedger
