import StakingLedger.Proofs.Answer
import StakingLedger.Proofs.Ledger.Edits
import StakingLedger.Proofs.State.StoredStakers

/-! # What a flush leaves in the store

A flush writes one batch, of one part for each space of keys. For every kind of
record it is said here what the store has afterwards, in terms of what waited
in memory and of what the store had before.
-/

namespace StakingLedger

open OrderedMap

/-! ## The history entries -/

/-- A slot records the net change of weight, unless it is zero, and the previous key, if there is
one to record. -/
theorem SlotDiff.mem_historyWrites_iff {d : SlotDiff} {height : UInt64} {slot : Slot}
    {writes : List (Bytes × Bytes)} (h : d.historyWrites height slot = .ok writes) :
    ∃ change, d.weightChange = .ok change ∧ ∀ e, e ∈ writes ↔
      (change.isZero = false ∧ e = (Key.change .weightChange slot.supernetId height slot.nodeId,
        toCanonical change)) ∨
      ∃ old, d.previousKey? = some old ∧
        e = (Key.change .publicKeyChange slot.supernetId height slot.nodeId, toCanonical old) := by
  obtain ⟨change, hchange, h⟩ := bind_eq_ok_iff.mp h
  obtain ⟨_, _, h⟩ := bind_eq_ok_iff.mp h
  cases h
  refine ⟨change, hchange, fun e => ?_⟩
  rw [List.mem_append]
  refine or_congr ?_ ?_
  · cases change.isZero <;> simp
  · cases d.previousKey? <;> simp

theorem SlotDiff.key_of_mem_historyWrites {d : SlotDiff} {height : UInt64} {slot : Slot}
    {writes : List (Bytes × Bytes)} (h : d.historyWrites height slot = .ok writes)
    {e : Bytes × Bytes} (he : e ∈ writes) :
    e.1 = Key.change .weightChange slot.supernetId height slot.nodeId ∨
      e.1 = Key.change .publicKeyChange slot.supernetId height slot.nodeId := by
  obtain ⟨_, _, hmem⟩ := mem_historyWrites_iff h
  rcases (hmem e).mp he with ⟨_, rfl⟩ | ⟨_, _, rfl⟩
  · exact Or.inl rfl
  · exact Or.inr rfl

theorem SlotDiffs.mem_historyWrites_iff {diffs : SlotDiffs} {height : UInt64}
    {history : List (Bytes × Bytes)} (h : diffs.historyWrites height = .ok history)
    {e : Bytes × Bytes} :
    e ∈ history ↔ ∃ slot d writes, diffs.get? slot = some d ∧
      d.historyWrites height slot = .ok writes ∧ e ∈ writes := by
  obtain ⟨parts, hparts, h⟩ := bind_eq_ok_iff.mp h
  cases h
  rw [List.mem_flatten]
  constructor
  · rintro ⟨part, hmem, he⟩
    obtain ⟨⟨slot, d⟩, hentry, hpart⟩ := (mem_of_mapM_eq_ok hparts).1 part hmem
    exact ⟨slot, d, part, OrderedMap.get?_eq_some_iff.mpr hentry, hpart, he⟩
  · rintro ⟨slot, d, part, hget, hpart, he⟩
    obtain ⟨part', hmem, hpart'⟩ :=
      (mem_of_mapM_eq_ok hparts).2 (slot, d) (OrderedMap.get?_eq_some_iff.mp hget)
    rw [hpart] at hpart'
    cases hpart'
    exact ⟨part, hmem, he⟩

theorem SlotDiffs.names_historyWrites {diffs : SlotDiffs} {height : UInt64}
    {history : List (Bytes × Bytes)} (h : diffs.historyWrites height = .ok history)
    {e : Bytes × Bytes} (he : e ∈ history) :
    KeySpace.weightChange.Names e.1 ∨ KeySpace.publicKeyChange.Names e.1 := by
  obtain ⟨slot, d, writes, _, hwrites, he⟩ := (mem_historyWrites_iff h).mp he
  rcases SlotDiff.key_of_mem_historyWrites hwrites he with hkey | hkey
  · rw [hkey]
    exact Or.inl (KeySpace.Names.change rfl _ _ _)
  · rw [hkey]
    exact Or.inr (KeySpace.Names.change rfl _ _ _)

/-! ## The record writes -/

namespace RecordEdits

theorem names_putsIn (e : RecordEdits) (space : KeySpace) : space.NamesAll (e.putsIn space) := by
  intro entry hentry
  cases space with
  | utxo =>
      obtain ⟨⟨id, utxo?⟩, _, hmap⟩ := List.mem_filterMap.mp hentry
      obtain ⟨utxo, _, rfl⟩ := Option.map_eq_some_iff.mp hmap
      exact KeySpace.Names.utxo id
  | rewardUtxo =>
      obtain ⟨⟨stakerTx, utxos⟩, _, hmap⟩ := List.mem_flatMap.mp hentry
      obtain ⟨utxo, _, rfl⟩ := List.mem_map.mp hmap
      exact KeySpace.Names.rewardUtxo stakerTx _
  | supernet =>
      obtain ⟨⟨id, _⟩, _, rfl⟩ := List.mem_map.mp hentry
      exact KeySpace.Names.idKey rfl id
  | transformation =>
      obtain ⟨⟨id, _⟩, _, rfl⟩ := List.mem_map.mp hentry
      exact KeySpace.Names.idKey rfl id
  | chain =>
      obtain ⟨⟨supernet, chains⟩, _, hmap⟩ := List.mem_flatMap.mp hentry
      obtain ⟨⟨id, _⟩, _, rfl⟩ := List.mem_map.mp hmap
      exact KeySpace.Names.chain supernet id
  | tx =>
      obtain ⟨⟨id, _⟩, _, rfl⟩ := List.mem_map.mp hentry
      exact KeySpace.Names.idKey rfl id
  | _ => cases hentry

/-- A map whose entries are put under keys of their own gives each key its value. -/
theorem lastValue?_map_entries {α β : Type} [Ord α] [Std.LawfulEqOrd α] {key : α → Bytes}
    (hinj : ∀ a b, key a = key b ↔ a = b) (m : OrderedMap α β) (f : β → Bytes) (k : α) :
    lastValue? (m.entries.map fun e => (key e.1, f e.2)) (key k) = (m.get? k).map f := by
  refine lastValue?_eq_of_graph fun v => ?_
  simp only [List.mem_map, Prod.exists, ← OrderedMap.get?_eq_some_iff, Prod.mk.injEq, hinj,
    Option.map_eq_some_iff]
  constructor
  · rintro ⟨_, b, hget, rfl, rfl⟩
    exact ⟨b, hget, rfl⟩
  · rintro ⟨b, hget, rfl⟩
    exact ⟨k, b, hget, rfl, rfl⟩

theorem lastValue?_utxos (e : RecordEdits) (id : UtxoId) :
    lastValue? (e.putsIn .utxo) (Key.utxo id) = (e.utxos.get? id).join.map toCanonical := by
  refine lastValue?_eq_of_graph fun v => ?_
  simp only [putsIn, List.mem_filterMap, Prod.exists, ← OrderedMap.get?_eq_some_iff,
    Option.map_eq_some_iff, Prod.mk.injEq, Key.utxo_inj, Option.join_eq_some_iff]
  constructor
  · rintro ⟨_, _, hget, utxo, rfl, rfl, rfl⟩
    exact ⟨utxo, hget, rfl⟩
  · rintro ⟨utxo, hget, rfl⟩
    exact ⟨id, some utxo, hget, utxo, rfl, rfl, rfl⟩

theorem mem_spentKeys_iff (e : RecordEdits) (id : UtxoId) :
    Key.utxo id ∈ e.spentKeys ↔ e.utxos.get? id = some none := by
  simp only [spentKeys, List.mem_filterMap, Prod.exists, ← OrderedMap.get?_eq_some_iff]
  constructor
  · rintro ⟨id', utxo?, hget, hkey⟩
    cases utxo? with
    | none => rwa [Key.utxo_inj.mp (Option.some.inj hkey)] at hget
    | some utxo => cases hkey
  · exact fun hget => ⟨id, none, hget, rfl⟩

theorem names_spentKeys (e : RecordEdits) {key : Bytes} (h : key ∈ e.spentKeys) :
    KeySpace.utxo.Names key := by
  obtain ⟨⟨id, utxo?⟩, _, hkey⟩ := List.mem_filterMap.mp h
  cases utxo? with
  | none => exact Option.some.inj hkey ▸ KeySpace.Names.utxo id
  | some utxo => cases hkey

theorem mem_chainPuts_iff (e : RecordEdits) {key value : Bytes} :
    (key, value) ∈ e.putsIn .chain ↔ ∃ supernet id chain,
      (e.heldChains supernet).get? id = some chain ∧ key = Key.chain supernet id ∧
        value = toCanonical chain := by
  simp only [putsIn, List.mem_flatMap, List.mem_map, Prod.exists, ← OrderedMap.get?_eq_some_iff,
    Prod.mk.injEq, heldChains]
  constructor
  · rintro ⟨supernet, chains, hget, id, chain, hchain, rfl, rfl⟩
    rw [← Option.getD_some (a := chains) (b := .empty), ← hget] at hchain
    exact ⟨supernet, id, chain, hchain, rfl, rfl⟩
  · rintro ⟨supernet, id, chain, hchain, rfl, rfl⟩
    cases hget : e.chains.get? supernet with
    | none =>
        rw [hget] at hchain
        cases hchain
    | some chains =>
        rw [hget] at hchain
        exact ⟨supernet, chains, hget, id, chain, hchain, rfl, rfl⟩

theorem lastValue?_chains (e : RecordEdits) (supernet id : EntityId) :
    lastValue? (e.putsIn .chain) (Key.chain supernet id) =
      ((e.heldChains supernet).get? id).map toCanonical := by
  refine lastValue?_eq_of_graph fun v => ?_
  simp only [mem_chainPuts_iff, Key.chain_inj, Option.map_eq_some_iff]
  constructor
  · rintro ⟨_, _, chain, hchain, ⟨rfl, rfl⟩, rfl⟩
    exact ⟨chain, hchain, rfl⟩
  · rintro ⟨chain, hchain, rfl⟩
    exact ⟨supernet, id, chain, hchain, ⟨rfl, rfl⟩, rfl⟩

theorem mem_rewardPuts_iff (e : RecordEdits) {key value : Bytes} :
    (key, value) ∈ e.putsIn .rewardUtxo ↔ ∃ stakerTx, ∃ utxo ∈ e.heldRewards stakerTx,
      key = Key.rewardUtxo stakerTx utxo.id.outputIndex ∧ value = toCanonical utxo := by
  simp only [putsIn, List.mem_flatMap, List.mem_map, Prod.exists, ← OrderedMap.get?_eq_some_iff,
    Prod.mk.injEq, heldRewards]
  constructor
  · rintro ⟨stakerTx, utxos, hget, utxo, hutxo, rfl, rfl⟩
    rw [← Option.getD_some (a := utxos) (b := []), ← hget] at hutxo
    exact ⟨stakerTx, utxo, hutxo, rfl, rfl⟩
  · rintro ⟨stakerTx, utxo, hutxo, rfl, rfl⟩
    cases hget : e.rewardUtxos.get? stakerTx with
    | none =>
        rw [hget] at hutxo
        cases hutxo
    | some utxos =>
        rw [hget] at hutxo
        exact ⟨stakerTx, utxos, hget, utxo, hutxo, rfl, rfl⟩

theorem fits_heldChain {e : RecordEdits} (h : e.encodable = true) {supernet id : EntityId}
    {chain : ChainRecord} (hget : (e.heldChains supernet).get? id = some chain) :
    Codec.fits chain = true := by
  unfold heldChains at hget
  cases hchains : e.chains.get? supernet with
  | none =>
      rw [hchains] at hget
      cases hget
  | some chains =>
      rw [hchains] at hget
      have hall := List.all_eq_true.mp (Bool.and_eq_true_iff.mp h).1 chains
        (OrderedMap.mem_values_iff.mpr ⟨supernet, hchains⟩)
      exact List.all_eq_true.mp hall chain (OrderedMap.mem_values_iff.mpr ⟨id, hget⟩)

theorem fits_tx {e : RecordEdits} (h : e.encodable = true) {id : EntityId}
    {tx : StoredTx × TxStatus} (hget : e.txs.get? id = some tx) : Codec.fits tx = true :=
  List.all_eq_true.mp (Bool.and_eq_true_iff.mp h).2 tx (OrderedMap.mem_values_iff.mpr ⟨id, hget⟩)

end RecordEdits

/-! ## What waits -/

theorem RecordEdits.eq_default_of_isEmpty {e : RecordEdits} (h : e.isEmpty = true) : e = {} := by
  obtain ⟨utxos, rewardUtxos, supernets, transformations, chains, txs⟩ := e
  simp only [RecordEdits.isEmpty, Bool.and_eq_true] at h
  obtain ⟨⟨⟨⟨⟨hutxos, hrewards⟩, hsupernets⟩, htransformations⟩, hchains⟩, htxs⟩ := h
  rw [eq_empty_of_isEmpty hutxos, eq_empty_of_isEmpty hrewards, eq_empty_of_isEmpty hsupernets,
    eq_empty_of_isEmpty htransformations, eq_empty_of_isEmpty hchains, eq_empty_of_isEmpty htxs]

theorem Unflushed.eq_default_of_isEmpty {u : Unflushed} (h : u.isEmpty = true) : u = {} := by
  obtain ⟨metadata, supplies, rewardPools, edits⟩ := u
  simp only [Unflushed.isEmpty, Bool.and_eq_true, Bool.not_eq_true'] at h
  obtain ⟨⟨⟨hmetadata, hsupplies⟩, hrewardPools⟩, hedits⟩ := h
  rw [hmetadata, eq_empty_of_isEmpty hsupplies, eq_empty_of_isEmpty hrewardPools,
    RecordEdits.eq_default_of_isEmpty hedits]

theorem Registry.clearDiffs_of_unchanged {r : Registry} (h : r.hasChanges = false) :
    r.clearDiffs = r := by
  obtain ⟨slots, stakers, diffs⟩ := r
  simp only [Registry.hasChanges, Bool.not_eq_false'] at h
  rw [eq_empty_of_isEmpty h]
  rfl

namespace State

variable {s s' : State} {height : UInt64} {history : List (Bytes × Bytes)} {space : KeySpace}
  {key : Bytes}

/-! ## The batch by its parts -/

/-- What a flush does, given the history entries of the height. -/
structure Flushed (s : State) (height : UInt64) (history : List (Bytes × Bytes)) (s' : State) :
    Prop where
  encodable : s.encodable = true
  recorded : s.registries.current.diffs.historyWrites height = .ok history
  result : s' = { s with
    store := s.store.write (s.batch height history)
    height := height
    registries := ⟨s.registries.current.clearDiffs, s.registries.pending.clearDiffs⟩
    unflushed := {} }

theorem flushed_of_flush (h : s.flush height = .ok s') : ∃ history, s.Flushed height history s' := by
  obtain ⟨batch, hbatch, h⟩ := bind_eq_ok_iff.mp h
  obtain ⟨_, hencodable, hbatch⟩ := bind_eq_ok_iff.mp hbatch
  obtain ⟨history, hhistory, hbatch⟩ := bind_eq_ok_iff.mp hbatch
  cases hbatch
  cases h
  refine ⟨history, ?_, hhistory, rfl⟩
  unfold requireEncodable at hencodable
  split at hencodable
  next htrue => exact htrue
  next => cases hencodable

namespace Flushed

theorem registries (h : s.Flushed height history s') (phase : Phase) :
    s'.registries.get phase = (s.registries.get phase).clearDiffs := by
  rw [h.result]
  cases phase <;> rfl

theorem unflushed (h : s.Flushed height history s') : s'.unflushed = {} := by
  rw [h.result]

theorem figures (h : s.Flushed height history s') : s'.height = height ∧
    s'.timestamp = s.timestamp ∧ s'.feePool = s.feePool ∧ s'.supplies = s.supplies ∧
      s'.rewardPools = s.rewardPools := by
  rw [h.result]
  exact ⟨rfl, rfl, rfl, rfl, rfl⟩

end Flushed

theorem mem_balanceWrites_iff {key : EntityId → Bytes} {touched : IdSet}
    {balances : OrderedMap EntityId UInt64} {e : Bytes × Bytes} :
    e ∈ balanceWrites key touched balances ↔ ∃ id amount, touched.contains id = true ∧
      balances.get? id = some amount ∧ e = (key id, wordBytes amount) := by
  simp only [balanceWrites, List.mem_filterMap, OrderedMap.mem_keys_iff, Option.map_eq_some_iff,
    OrderedMap.contains_eq_true_iff]
  constructor
  · rintro ⟨id, htouched, amount, hget, rfl⟩
    exact ⟨id, amount, htouched, hget, rfl⟩
  · rintro ⟨id, amount, htouched, hget, rfl⟩
    exact ⟨id, htouched, amount, hget, rfl⟩

theorem names_figuresIn (s : State) (height : UInt64) (space : KeySpace) :
    space.NamesAll (s.figuresIn height space) := by
  intro e he
  cases space with
  | height | timestamp | feePool =>
      rw [List.mem_singleton.mp he]
      exact KeySpace.Names.single rfl
  | supply | rewardPool =>
      obtain ⟨id, _, _, _, rfl⟩ := mem_balanceWrites_iff.mp he
      exact KeySpace.Names.idKey rfl id
  | _ => cases he

/-- The part of a batch that writes to a space. -/
def putsIn (s : State) (height : UInt64) (history : List (Bytes × Bytes)) :
    KeySpace → List (Bytes × Bytes)
  | .currentStaker => (s.registries.current.diffs.stakerWrites .currentStaker).puts
  | .pendingStaker => (s.registries.pending.diffs.stakerWrites .pendingStaker).puts
  | .weightChange | .publicKeyChange => history
  | space => s.figuresIn height space ++ s.unflushed.edits.putsIn space

/-- The keys of a space that a batch deletes. -/
def deletesIn (s : State) : KeySpace → List Bytes
  | .currentStaker => (s.registries.current.diffs.stakerWrites .currentStaker).deletes
  | .pendingStaker => (s.registries.pending.diffs.stakerWrites .pendingStaker).deletes
  | .utxo => s.unflushed.edits.spentKeys
  | _ => []

theorem lastValue?_batch
    (hhistory : s.registries.current.diffs.historyWrites height = .ok history)
    (hkey : space.Names key) :
    lastValue? (s.batch height history).puts key = lastValue? (s.putsIn height history space) key := by
  have hfigures : lastValue?
      ([.height, .timestamp, .feePool, .supply, .rewardPool].flatMap (s.figuresIn height)) key = _ :=
    KeySpace.lastValue?_flatMap (by decide) (fun space _ => s.names_figuresIn height space) hkey
  have hedits : lastValue? ([.utxo, .rewardUtxo, .supernet, .transformation, .chain, .tx].flatMap
      s.unflushed.edits.putsIn) key = _ :=
    KeySpace.lastValue?_flatMap (by decide)
      (fun space _ => s.unflushed.edits.names_putsIn space) hkey
  have hcurrent : space ≠ .currentStaker → lastValue?
      (s.registries.current.diffs.stakerWrites .currentStaker).puts key = none := fun hne =>
    (SlotDiffs.names_puts rfl).lastValue?_eq_none hkey (Ne.symm hne)
  have hpending : space ≠ .pendingStaker → lastValue?
      (s.registries.pending.diffs.stakerWrites .pendingStaker).puts key = none := fun hne =>
    (SlotDiffs.names_puts rfl).lastValue?_eq_none hkey (Ne.symm hne)
  have hchanges : space ≠ .weightChange → space ≠ .publicKeyChange →
      lastValue? history key = none := fun hweight hpublicKey =>
    lastValue?_eq_none_iff.mpr fun v hmem => by
      rcases SlotDiffs.names_historyWrites hhistory hmem with hnames | hnames
      · exact hweight (hkey.unique hnames)
      · exact hpublicKey (hkey.unique hnames)
  have hparts : (s.batch height history).puts =
      [.height, .timestamp, .feePool, .supply, .rewardPool].flatMap (s.figuresIn height) ++
        (s.registries.current.diffs.stakerWrites .currentStaker).puts ++
        (s.registries.pending.diffs.stakerWrites .pendingStaker).puts ++ history ++
        [.utxo, .rewardUtxo, .supernet, .transformation, .chain, .tx].flatMap
          s.unflushed.edits.putsIn := rfl
  rw [hparts, lastValue?_append, lastValue?_append, lastValue?_append, lastValue?_append, hfigures,
    hedits]
  cases space <;> simp [putsIn, figuresIn, RecordEdits.putsIn, hcurrent, hpending, hchanges]

theorem mem_deletes_batch_iff (hkey : space.Names key) :
    key ∈ (s.batch height history).deletes ↔ key ∈ s.deletesIn space := by
  have hparts : (s.batch height history).deletes =
      [] ++ (s.registries.current.diffs.stakerWrites .currentStaker).deletes ++
        (s.registries.pending.diffs.stakerWrites .pendingStaker).deletes ++ [] ++
        s.unflushed.edits.spentKeys := rfl
  have hcurrent : space ≠ .currentStaker →
      key ∉ (s.registries.current.diffs.stakerWrites .currentStaker).deletes := fun hne hmem =>
    hne (hkey.unique (SlotDiffs.names_deletes rfl hmem))
  have hpending : space ≠ .pendingStaker →
      key ∉ (s.registries.pending.diffs.stakerWrites .pendingStaker).deletes := fun hne hmem =>
    hne (hkey.unique (SlotDiffs.names_deletes rfl hmem))
  have hspent : space ≠ .utxo → key ∉ s.unflushed.edits.spentKeys := fun hne hmem =>
    hne (hkey.unique (s.unflushed.edits.names_spentKeys hmem))
  rw [hparts]
  simp only [List.mem_append, List.not_mem_nil, false_or, or_false]
  cases space <;> simp [deletesIn, hcurrent, hpending, hspent]

namespace Flushed

/-- After a flush only the part of its own space counts for a key. -/
theorem get?_of_names (h : s.Flushed height history s') (hkey : space.Names key) :
    s'.store.get? key = (lastValue? (s.putsIn height history space) key).or
      (if key ∈ s.deletesIn space then none else s.store.get? key) := by
  have hstore : s'.store = s.store.write (s.batch height history) := by rw [h.result]
  rw [hstore, Store.get?_write, lastValue?_batch h.recorded hkey]
  simp only [mem_deletes_batch_iff hkey]

theorem get?_of_puts (h : s.Flushed height history s') (hkey : space.Names key)
    (hdeletes : s.deletesIn space = []) :
    s'.store.get? key =
      (lastValue? (s.putsIn height history space) key).or (s.store.get? key) := by
  rw [h.get?_of_names hkey, hdeletes, if_neg List.not_mem_nil]

/-- A flush puts nothing under a key of no space. -/
theorem named (h : s.Flushed height history s') :
    ∀ e ∈ (s.batch height history).puts, ∃ space : KeySpace, space.Names e.1 := by
  intro e he
  change e ∈ [.height, .timestamp, .feePool, .supply, .rewardPool].flatMap (s.figuresIn height) ++
    (s.registries.current.diffs.stakerWrites .currentStaker).puts ++
    (s.registries.pending.diffs.stakerWrites .pendingStaker).puts ++ history ++
    [.utxo, .rewardUtxo, .supernet, .transformation, .chain, .tx].flatMap
      s.unflushed.edits.putsIn at he
  simp only [List.mem_append, or_assoc] at he
  rcases he with he | he | he | he | he
  · obtain ⟨space, _, he⟩ := List.mem_flatMap.mp he
    exact ⟨space, s.names_figuresIn height space e he⟩
  · exact ⟨_, SlotDiffs.names_puts rfl e he⟩
  · exact ⟨_, SlotDiffs.names_puts rfl e he⟩
  · rcases SlotDiffs.names_historyWrites h.recorded he with hnames | hnames
    · exact ⟨_, hnames⟩
    · exact ⟨_, hnames⟩
  · obtain ⟨space, _, he⟩ := List.mem_flatMap.mp he
    exact ⟨space, s.unflushed.edits.names_putsIn space e he⟩

theorem store_eq (h : s.Flushed height history s') :
    s'.store = s.store.write (s.batch height history) := by
  rw [h.result]

theorem keyed (h : s.Flushed height history s') (hkeyed : s.store.Keyed) : s'.store.Keyed := by
  rw [h.store_eq]
  exact hkeyed.write h.named

theorem idKeyed (h : s.Flushed height history s') (hwidth : space.width = 32)
    (hkeyed : s.store.IdKeyed space) : s'.store.IdKeyed space := by
  rw [h.store_eq]
  exact hkeyed.write hwidth h.named

/-! ## The kinds of records -/

theorem get?_height (h : s.Flushed height history s') :
    s'.store.get? KeySpace.height.bytes = some (wordBytes height) := by
  rw [h.get?_of_puts (KeySpace.Names.single rfl) rfl]
  simp [putsIn, figuresIn, RecordEdits.putsIn, lastValue?_singleton]

theorem get?_timestamp (h : s.Flushed height history s') :
    s'.store.get? KeySpace.timestamp.bytes = some (wordBytes s.timestamp) := by
  rw [h.get?_of_puts (KeySpace.Names.single rfl) rfl]
  simp [putsIn, figuresIn, RecordEdits.putsIn, lastValue?_singleton]

theorem get?_feePool (h : s.Flushed height history s') :
    s'.store.get? KeySpace.feePool.bytes = some (wordBytes s.feePool) := by
  rw [h.get?_of_puts (KeySpace.Names.single rfl) rfl]
  simp [putsIn, figuresIn, RecordEdits.putsIn, lastValue?_singleton]

/-- The balances that were set since the last flush are stored, and the others are as they were. -/
theorem get?_balance (h : s.Flushed height history s') {space : KeySpace}
    (hwidth : space.width = 32) {touched : IdSet}
    {balances : OrderedMap EntityId UInt64}
    (hputs : s.putsIn height history space = balanceWrites space.idKey touched balances ++ [])
    (hdeletes : s.deletesIn space = []) (id : EntityId) :
    s'.store.get? (space.idKey id) =
      (lastValue? (balanceWrites space.idKey touched balances) (space.idKey id)).or
        (s.store.get? (space.idKey id)) := by
  rw [h.get?_of_puts (KeySpace.Names.idKey hwidth id) hdeletes, hputs, List.append_nil]

theorem get?_utxo (h : s.Flushed height history s') (id : UtxoId) :
    s'.store.get? (Key.utxo id) =
      match s.unflushed.edits.utxos.get? id with
      | some utxo? => utxo?.map toCanonical
      | none => s.store.get? (Key.utxo id) := by
  have hputs : s.putsIn height history .utxo = s.unflushed.edits.putsIn .utxo := rfl
  have hdeletes : s.deletesIn .utxo = s.unflushed.edits.spentKeys := rfl
  rw [h.get?_of_names (KeySpace.Names.utxo id), hputs, hdeletes, RecordEdits.lastValue?_utxos]
  simp only [RecordEdits.mem_spentKeys_iff]
  cases s.unflushed.edits.utxos.get? id with
  | none => simp
  | some utxo? => cases utxo? <;> simp

/-- The records of a space that are kept one by one under an identifier: those that waited are
stored, and the others are as they were. -/
theorem get?_record {α : Type} [Codec α] (h : s.Flushed height history s') {space : KeySpace}
    (hwidth : space.width = 32) {waiting : OrderedMap EntityId α}
    (hputs : s.putsIn height history space =
      waiting.entries.map fun e => (space.idKey e.1, toCanonical e.2))
    (hdeletes : s.deletesIn space = []) (id : EntityId) :
    s'.store.get? (space.idKey id) =
      ((waiting.get? id).map toCanonical).or (s.store.get? (space.idKey id)) := by
  rw [h.get?_of_puts (KeySpace.Names.idKey hwidth id) hdeletes, hputs,
    RecordEdits.lastValue?_map_entries (fun _ _ => KeySpace.idKey_inj) waiting toCanonical id]

theorem get?_supernet (h : s.Flushed height history s') (id : EntityId) :
    s'.store.get? (KeySpace.supernet.idKey id) =
      ((s.unflushed.edits.supernets.get? id).map toCanonical).or
        (s.store.get? (KeySpace.supernet.idKey id)) :=
  h.get?_record rfl rfl rfl id

theorem get?_transformation (h : s.Flushed height history s') (id : EntityId) :
    s'.store.get? (KeySpace.transformation.idKey id) =
      ((s.unflushed.edits.transformations.get? id).map toCanonical).or
        (s.store.get? (KeySpace.transformation.idKey id)) :=
  h.get?_record rfl rfl rfl id

theorem get?_tx (h : s.Flushed height history s') (id : EntityId) :
    s'.store.get? (KeySpace.tx.idKey id) =
      ((s.unflushed.edits.txs.get? id).map toCanonical).or
        (s.store.get? (KeySpace.tx.idKey id)) :=
  h.get?_record rfl rfl rfl id

theorem get?_chain (h : s.Flushed height history s') (supernet id : EntityId) :
    s'.store.get? (Key.chain supernet id) =
      (((s.unflushed.edits.heldChains supernet).get? id).map toCanonical).or
        (s.store.get? (Key.chain supernet id)) := by
  rw [h.get?_of_puts (KeySpace.Names.chain supernet id) rfl]
  exact congrArg (Option.or · _) (s.unflushed.edits.lastValue?_chains supernet id)

end Flushed

/-! ## Roots in which nothing waits -/

/-- Without uncommitted changes nothing is held back, in memory or as a diff. -/
theorem of_clean (h : s.hasUncommittedChanges = false) :
    s.unflushed = {} ∧ ∀ phase, (s.registries.get phase).hasChanges = false := by
  simp only [hasUncommittedChanges, Bool.or_eq_false_iff, Bool.not_eq_false'] at h
  obtain ⟨⟨hunflushed, hcurrent⟩, hpending⟩ := h
  refine ⟨Unflushed.eq_default_of_isEmpty hunflushed, fun phase => ?_⟩
  cases phase with
  | current => exact hcurrent
  | pending => exact hpending

end State

end StakingLedger
