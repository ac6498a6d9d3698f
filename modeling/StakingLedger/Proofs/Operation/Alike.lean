import StakingLedger.Proofs.Codec.Canonical
import StakingLedger.Proofs.Operation.Reopening
import StakingLedger.Proofs.ValidatorSet.SameChange

/-! # Flushes of the same contents

Two roots may hold the same contents over the same store and still wait to write
different things, since each has the traces of its own past. A flush writes the
same store for both, and it is refused for both or for none.
-/

namespace StakingLedger

open OrderedMap

/-! ## Contents are told by what is read -/

/-- Chains that stand under their identifiers are told by their list. -/
theorem indexes_chains {held : OrderedMap EntityId ChainRecord}
    (h : ∀ id chain, held.get? id = some chain → chain.id = id) :
    held.Indexes ChainRecord.id {chain | chain ∈ held.values} := by
  intro id chain
  constructor
  · exact fun hget => ⟨mem_values_iff.mpr ⟨id, hget⟩, h id chain hget⟩
  · rintro ⟨hmem, rfl⟩
    obtain ⟨id, hget⟩ := mem_values_iff.mp hmem
    rwa [h id chain hget]

theorem View.Shows.contents_unique {v : View} {c c' : Contents} {book book' : Book}
    (h : v.Shows c) (h' : v.Shows c') (hproper : c.Proper book) (hproper' : c'.Proper book') :
    c = c' := by
  have hstakers : c.stakers = c'.stakers := by
    funext phase
    ext t
    obtain ⟨held, hread, hheld⟩ := h.stakers phase
    rw [← hheld.mem_iff, h'.mem_of_read hread]
  -- Only the chains are read in another form, sorted by identifier; the two maps index the same
  -- list.
  have hchains : c.chains = c'.chains := by
    funext supernet
    have hread := (h.chains supernet).symm.trans (h'.chains supernet)
    cases hleft : c.chains supernet with
    | error e =>
        cases hright : c'.chains supernet with
        | error e' =>
            rw [hleft, hright] at hread
            exact congrArg Except.error (Except.error.inj hread)
        | ok held' =>
            rw [hleft, hright] at hread
            cases hread
    | ok held =>
        cases hright : c'.chains supernet with
        | error e' =>
            rw [hleft, hright] at hread
            cases hread
        | ok held' =>
            rw [hleft, hright] at hread
            have hvalues : held.values = held'.values := Except.ok.inj hread
            have hindexes := indexes_chains (hproper.chains supernet held hleft)
            rw [hvalues] at hindexes
            exact congrArg Except.ok
              (hindexes.unique (indexes_chains (hproper'.chains supernet held' hright)))
  exact Contents.ext (h.utxo.symm.trans h'.utxo) (h.rewardUtxos.symm.trans h'.rewardUtxos)
    (h.supernet.symm.trans h'.supernet) (h.transformation.symm.trans h'.transformation) hchains
    (h.tx.symm.trans h'.tx) (h.timestamp.symm.trans h'.timestamp)
    (h.feePool.symm.trans h'.feePool) (h.supply.symm.trans h'.supply)
    (h.rewardPool.symm.trans h'.rewardPool) hstakers

/-! ## Stores that agree in part -/

/-- The keys of the space tell the height or belong to one height. -/
def KeySpace.isPerHeight : KeySpace → Bool
  | .height | .weightChange | .publicKeyChange => true
  | _ => false

/-- The space has records that stand one by one under keys of their own and are rewritten as a
whole. -/
def KeySpace.isRecord : KeySpace → Bool
  | .utxo | .supernet | .transformation | .tx => true
  | _ => false

namespace Store

/-- The stores have the same under every key that does not depend on heights. -/
def AgreesOffHeights (store store' : Store) : Prop :=
  ∀ key, (∀ space : KeySpace, space.Names key → space.isPerHeight = false) →
    store.get? key = store'.get? key

/-- The stores have the same records of the kinds that stand one by one. -/
def AgreesOnRecords (store store' : Store) : Prop :=
  ∀ space : KeySpace, space.isRecord = true → ∀ key, space.Names key →
    store.get? key = store'.get? key

theorem AgreesOffHeights.onRecords {store store' : Store} (h : store.AgreesOffHeights store') :
    store.AgreesOnRecords store' := by
  intro space hrecord key hnames
  apply h key
  intro space' hnames'
  cases hnames.unique hnames'
  cases space <;> first | rfl | cases hrecord

theorem AgreesOnRecords.trans {store store' store'' : Store} (h : store.AgreesOnRecords store')
    (h' : store'.AgreesOnRecords store'') : store.AgreesOnRecords store'' :=
  fun space hrecord key hnames => (h space hrecord key hnames).trans (h' space hrecord key hnames)

theorem Keyed.get?_eq_none {store : Store} (h : store.Keyed) {key : Bytes}
    (hunnamed : ¬ ∃ space : KeySpace, space.Names key) : store.get? key = none := by
  cases hget : store.get? key with
  | none => rfl
  | some value => exact absurd (h key value hget) hunnamed

end Store

/-! ## What can be flushed -/

theorem RecordEdits.encodable_of_fits {e : RecordEdits}
    (hchains : ∀ supernet id chain, (e.heldChains supernet).get? id = some chain →
      Codec.fits chain = true)
    (htxs : ∀ id tx, e.txs.get? id = some tx → Codec.fits tx = true) : e.encodable = true := by
  apply Bool.and_eq_true_iff.mpr
  constructor
  · apply List.all_eq_true.mpr
    intro chains hmem
    obtain ⟨supernet, hget⟩ := mem_values_iff.mp hmem
    apply List.all_eq_true.mpr
    intro chain hchain
    obtain ⟨id, hid⟩ := mem_values_iff.mp hchain
    apply hchains supernet id chain
    rw [heldChains, hget]
    exact hid
  · apply List.all_eq_true.mpr
    intro tx hmem
    obtain ⟨id, hget⟩ := mem_values_iff.mp hmem
    exact htxs id tx hget

/-- The records whose byte form may be too long for its length to be written have one. -/
structure Contents.Encodable (c : Contents) : Prop where
  stakers : ∀ phase, ∀ t ∈ c.stakers phase, Codec.fits t = true
  chains : ∀ supernet held, c.chains supernet = .ok held → ∀ id chain, held.get? id = some chain →
    Codec.fits chain = true
  txs : ∀ id tx, c.tx id = .ok (some tx) → Codec.fits tx = true

namespace State

variable {s s' t t' : State} {book book' : Book} {were : Phase → Set Staker} {c : Contents}
  {height : UInt64} {history history' : List (Bytes × Bytes)} {key : Bytes}

theorem get?_of_stored {α : Type} [Codec α] [LawfulCodec α] [CanonicalCodec α] {what : String}
    {a? : Option α} (h : s.stored key what = .ok a?) : s.store.get? key = a?.map toCanonical := by
  unfold stored at h
  cases hget : s.store.get? key with
  | none =>
      rw [hget] at h
      cases h
      rfl
  | some bytes =>
      rw [hget] at h
      obtain ⟨a, hread, h⟩ := bind_eq_ok_iff.mp h
      cases h
      exact congrArg some (eq_toCanonical_of_ofCanonical hread).1

theorem fits_of_stored {α : Type} [Codec α] [LawfulCodec α] [CanonicalCodec α] {what : String}
    {a : α} (h : s.stored key what = .ok (some a)) : Codec.fits a = true := by
  unfold stored at h
  cases hget : s.store.get? key with
  | none =>
      rw [hget] at h
      cases h
  | some bytes =>
      rw [hget] at h
      obtain ⟨a, hread, h⟩ := bind_eq_ok_iff.mp h
      cases h
      exact (eq_toCanonical_of_ofCanonical hread).2

/-- Every stored chain is read. -/
theorem get?_of_filesChains {store : Store} (hfiles : store.FilesChains) {supernet id : EntityId}
    {chain? : Option ChainRecord}
    (h : chain? = (store.get? (Key.chain supernet id)).bind Codec.decodeAll) :
    store.get? (Key.chain supernet id) = chain?.map toCanonical := by
  rw [h]
  cases hget : store.get? (Key.chain supernet id) with
  | none => rfl
  | some value =>
      obtain ⟨chain, _, rfl, hfits⟩ := hfiles _ value hget (KeySpace.Names.chain supernet id)
      rw [Option.bind_some, decodeAll_toCanonical hfits]
      rfl

namespace Durable

theorem encodable_of_encodable (h : s.Durable book were c) (hproper : c.Proper book)
    (hencodable : c.Encodable) : s.encodable = true := by
  have hdiffs : ∀ phase, (s.registries.get phase).diffs.encodable = true := fun phase =>
    ((h.diffs phase).encodable_iff (hproper.slots phase) (h.encoded phase)).mpr
      (hencodable.stakers phase)
  refine Bool.and_eq_true_iff.mpr ⟨Bool.and_eq_true_iff.mpr ⟨hdiffs .current, hdiffs .pending⟩, ?_⟩
  apply RecordEdits.encodable_of_fits
  · intro supernet id chain hget
    obtain ⟨held, hheld, _⟩ := chains_of_filesChains h.keyed h.storedChains supernet
    have hread := h.edits.chains supernet
    rw [hheld] at hread
    apply hencodable.chains supernet _ hread id chain
    rw [get?_insertMany, lastValue?_entries, hget, Option.some_or]
  · intro id tx hget
    apply hencodable.txs id tx
    rw [h.edits.tx, hget]
    rfl

theorem contents_encodable (h : s.Durable book were c) (hproper : c.Proper book)
    (hencodable : s.encodable = true) : c.Encodable := by
  obtain ⟨hboth, hedits⟩ := Bool.and_eq_true_iff.mp hencodable
  obtain ⟨hcurrent, hpending⟩ := Bool.and_eq_true_iff.mp hboth
  constructor
  · intro phase
    apply ((h.diffs phase).encodable_iff (hproper.slots phase) (h.encoded phase)).mp
    cases phase with
    | current => exact hcurrent
    | pending => exact hpending
  · intro supernet held hread id chain hget
    obtain ⟨before, hbefore, hstored⟩ := chains_of_filesChains h.keyed h.storedChains supernet
    rw [h.edits.chains, hbefore] at hread
    cases hread
    rw [get?_insertMany, lastValue?_entries, Option.or_eq_some_iff, hstored] at hget
    cases hget with
    | inl hheld => exact RecordEdits.fits_heldChain hedits hheld
    | inr hkept =>
        obtain ⟨_, _, hdecode⟩ := Option.bind_eq_some_iff.mp hkept.2
        exact (eq_toCanonical_of_decodeAll hdecode).2
  · intro id tx hread
    rw [h.edits.tx] at hread
    cases hget : s.unflushed.edits.txs.get? id with
    | none =>
        rw [hget] at hread
        exact fits_of_stored hread
    | some held =>
        rw [hget] at hread
        cases hread
        exact RecordEdits.fits_tx hedits hget

/-- The records that wait have byte forms if all records do: the stored ones have them anyway. -/
theorem encodable_iff (h : s.Durable book were c) (hproper : c.Proper book) :
    s.encodable = true ↔ c.Encodable :=
  ⟨h.contents_encodable hproper, h.encodable_of_encodable hproper⟩

end Durable

theorem exists_flush_iff : (∃ s', s.flush height = .ok s') ↔
    s.encodable = true ∧ ∃ history, s.registries.current.diffs.historyWrites height = .ok history := by
  constructor
  · rintro ⟨s', h⟩
    obtain ⟨history, hflushed⟩ := flushed_of_flush h
    exact ⟨hflushed.encodable, history, hflushed.recorded⟩
  · rintro ⟨hencodable, history, hhistory⟩
    refine ⟨_, bind_eq_ok_iff.mpr ⟨s.batch height history, ?_, rfl⟩⟩
    refine bind_eq_ok_iff.mpr ⟨(), ?_, bind_eq_ok_iff.mpr ⟨history, hhistory, rfl⟩⟩
    rw [requireEncodable, if_pos hencodable]

/-- Of two roots with the same contents one can be flushed if the other can. -/
theorem exists_flush_of_alike (h : s.Durable book were c) (h' : t.Durable book' were c)
    (hproper : c.Proper book) (hproper' : c.Proper book') (hflush : ∃ s', s.flush height = .ok s') :
    ∃ t', t.flush height = .ok t' := by
  obtain ⟨hencodable, history, hhistory⟩ := exists_flush_iff.mp hflush
  apply exists_flush_iff.mpr
  constructor
  · rwa [h'.encodable_iff hproper', ← h.encodable_iff hproper]
  · exact (h.diffs .current).exists_historyWrites (h'.diffs .current) hhistory

/-! ## What a flush leaves -/

/-- What stands under the key of a record after a flush. -/
def leftUnder {α : Type} [Codec α] (held : Option (Option α)) (stored? : Option Bytes) :
    Option Bytes :=
  match held with
  | some a? => a?.map toCanonical
  | none => stored?

theorem leftUnder_map_some {α : Type} [Codec α] (held : Option α) (stored? : Option Bytes) :
    leftUnder (held.map some) stored? = (held.map toCanonical).or stored? := by
  cases held <;> rfl

theorem Flushed.leftUnder_utxo (h : s.Flushed height history s') (id : UtxoId) :
    s'.store.get? (Key.utxo id) =
      leftUnder (s.unflushed.edits.utxos.get? id) (s.store.get? (Key.utxo id)) := by
  rw [h.get?_utxo]
  cases s.unflushed.edits.utxos.get? id <;> rfl

/-- A flush leaves the records that stand one by one as they are if none was edited. -/
theorem Flushed.agreesOnRecords (h : s.Flushed height history s')
    (hedits : s.unflushed.edits = {}) : s'.store.AgreesOnRecords s.store := by
  intro space hrecord key hnames
  have hputs : s.putsIn height history space = s.unflushed.edits.putsIn space := by
    cases space <;> first | rfl | cases hrecord
  have hnone : ({} : RecordEdits).putsIn space = [] := by
    cases space <;> rfl
  have hdeletes : s.deletesIn space = [] := by
    cases space with
    | utxo => exact congrArg RecordEdits.spentKeys hedits
    | supernet | transformation | tx => rfl
    | _ => cases hrecord
  rw [h.get?_of_puts hnames hdeletes, hputs, hedits, hnone]
  rfl

/-- A record that is written again as it was stored leaves the bytes that stood there. -/
theorem leftUnder_eq {α : Type} [Codec α] [LawfulCodec α] [CanonicalCodec α] {what : String}
    {held held' : Option (Option α)} (hstore : s.store.get? key = t.store.get? key)
    (h : overlaid held (s.stored key what) = overlaid held' (t.stored key what)) :
    leftUnder held (s.store.get? key) = leftUnder held' (t.store.get? key) := by
  cases held with
  | none =>
      cases held' with
      | none => exact hstore
      | some a? => exact get?_of_stored h
  | some a? =>
      cases held' with
      | none => exact (get?_of_stored h.symm).symm
      | some a'? => exact congrArg (Option.map toCanonical) (Except.ok.inj h)

/-- Balances that are read alike, and of which none waits, are stored alike. -/
theorem get?_balance_of_settled {space : KeySpace} {touched touched' : IdSet}
    {balances balances' : OrderedMap EntityId UInt64} {what : EntityId → Missing}
    (h : s.store.KeepsBalances space touched balances)
    (h' : t.store.KeepsBalances space touched' balances') (hnone : touched = .empty)
    (hnone' : touched' = .empty)
    (hread : (fun id => orNotFound (balances.get? id) (what id)) =
      fun id => orNotFound (balances'.get? id) (what id)) (id : EntityId) :
    s.store.get? (space.idKey id) = t.store.get? (space.idKey id) := by
  subst hnone hnone'
  rw [h.untouched id rfl, h'.untouched id rfl, orNotFound_inj (congrFun hread id)]

section Settled

-- Two roots in which nothing waits, with the same contents.
variable (h : s.Durable book c.stakers c) (hs : s.unflushed = {})
  (h' : t.Durable book' c.stakers c) (ht : t.unflushed = {})

include h hs h' ht

theorem get?_rewardUtxo_of_settled (stakerTx : EntityId) (index : UInt32) :
    s.store.get? (Key.rewardUtxo stakerTx index) = t.store.get? (Key.rewardUtxo stakerTx index) := by
  obtain ⟨paid, hpaid, hread, _⟩ := h.numbered stakerTx
  obtain ⟨paid', hpaid', hread', _⟩ := h'.numbered stakerTx
  rw [hs, hread'] at hread
  rw [ht] at hread
  have hsame : paid = paid' := by
    have hlists := Except.ok.inj hread
    change paid' ++ [] = paid ++ [] at hlists
    rw [List.append_nil, List.append_nil] at hlists
    exact hlists.symm
  have hscan : s.store.scan (KeySpace.rewardUtxo.idKey stakerTx) =
      t.store.scan (KeySpace.rewardUtxo.idKey stakerTx) := by
    rw [hpaid, hpaid', hsame]
  have hlead : KeySpace.rewardUtxo.idKey stakerTx <+: Key.rewardUtxo stakerTx index :=
    List.prefix_append _ _
  apply Option.ext
  intro value
  have hread : ∀ store : Store, (Key.rewardUtxo stakerTx index, value) ∈
      store.scan (KeySpace.rewardUtxo.idKey stakerTx) ↔
        store.get? (Key.rewardUtxo stakerTx index) = some value := fun store =>
    Store.mem_scan.trans (and_iff_left hlead)
  rw [← hread, ← hread, hscan]

theorem get?_chain_of_settled (supernet id : EntityId) :
    s.store.get? (Key.chain supernet id) = t.store.get? (Key.chain supernet id) := by
  have hread : ∀ {u : State} {book : Book}, u.Durable book c.stakers c → u.unflushed = {} →
      ∃ held, c.chains supernet = .ok held ∧
        u.store.get? (Key.chain supernet id) = (held.get? id).map toCanonical := by
    intro u book hu hempty
    obtain ⟨held, hheld, hstored⟩ := chains_of_filesChains hu.keyed hu.storedChains supernet
    refine ⟨held, ?_, get?_of_filesChains hu.storedChains (hstored id)⟩
    rw [hu.edits.chains, hheld, hempty]
    rfl
  obtain ⟨held, hheld, hleft⟩ := hread h hs
  obtain ⟨held', hheld', hright⟩ := hread h' ht
  rw [hheld] at hheld'
  cases hheld'
  rw [hleft, hright]

omit hs ht in
theorem get?_staker_of_settled (phase : Phase) (id : EntityId) :
    s.store.get? ((KeySpace.staker phase).idKey id) =
      t.store.get? ((KeySpace.staker phase).idKey id) :=
  Option.ext fun value => (h.stored phase id value).trans (h'.stored phase id value).symm

end Settled

section Flushes

-- Two flushes of roots with the same contents, maybe at different heights.
variable {were' : Phase → Set Staker} {height' : UInt64} (h : s.Durable book were c)
  (hproper : c.Proper book) (hflushed : s.Flushed height history s')
  (h' : t.Durable book' were' c) (hproper' : c.Proper book')
  (hflushed' : t.Flushed height' history' t')

include h hproper hflushed h' hproper' hflushed'

/-- What belongs to no height is the same after the two flushes, where the records that are kept one
by one were the same before. -/
theorem get?_of_flushed_off_heights {space : KeySpace} (hnames : space.Names key)
    (hspace : space.isPerHeight = false)
    (hstore : space.isRecord = true → s.store.get? key = t.store.get? key) :
    s'.store.get? key = t'.store.get? key := by
  have hafter := h.of_flushed hproper hflushed
  have hafter' := h'.of_flushed hproper' hflushed'
  have hs := hflushed.unflushed
  have ht := hflushed'.unflushed
  cases space with
  | timestamp =>
      rw [hnames.eq_bytes rfl, hflushed.get?_timestamp, hflushed'.get?_timestamp, ← h.timestamp,
        h'.timestamp]
  | feePool =>
      rw [hnames.eq_bytes rfl, hflushed.get?_feePool, hflushed'.get?_feePool, ← h.feePool,
        h'.feePool]
  | height | weightChange | publicKeyChange => cases hspace
  | supply =>
      obtain ⟨id, rfl⟩ := hnames.exists_id rfl
      exact get?_balance_of_settled hafter.supplies hafter'.supplies
        (congrArg Unflushed.supplies hs) (congrArg Unflushed.supplies ht)
        (hafter.supply.symm.trans hafter'.supply) id
  | rewardPool =>
      obtain ⟨id, rfl⟩ := hnames.exists_id rfl
      exact get?_balance_of_settled hafter.rewardPools hafter'.rewardPools
        (congrArg Unflushed.rewardPools hs) (congrArg Unflushed.rewardPools ht)
        (hafter.rewardPool.symm.trans hafter'.rewardPool) id
  | currentStaker =>
      obtain ⟨id, rfl⟩ := hnames.exists_id rfl
      exact get?_staker_of_settled hafter hafter' .current id
  | pendingStaker =>
      obtain ⟨id, rfl⟩ := hnames.exists_id rfl
      exact get?_staker_of_settled hafter hafter' .pending id
  | utxo =>
      obtain ⟨id, rfl⟩ := hnames.exists_utxo
      rw [hflushed.leftUnder_utxo, hflushed'.leftUnder_utxo]
      exact leftUnder_eq (hstore rfl) ((h.edits.utxo id).symm.trans (h'.edits.utxo id))
  | rewardUtxo =>
      obtain ⟨stakerTx, index, rfl⟩ := hnames.exists_rewardUtxo
      exact get?_rewardUtxo_of_settled hafter hs hafter' ht stakerTx index
  | supernet =>
      obtain ⟨id, rfl⟩ := hnames.exists_id rfl
      rw [hflushed.get?_supernet, hflushed'.get?_supernet, ← leftUnder_map_some, ← leftUnder_map_some]
      exact leftUnder_eq (hstore rfl) ((h.edits.supernet id).symm.trans (h'.edits.supernet id))
  | transformation =>
      obtain ⟨id, rfl⟩ := hnames.exists_id rfl
      rw [hflushed.get?_transformation, hflushed'.get?_transformation, ← leftUnder_map_some,
        ← leftUnder_map_some]
      exact leftUnder_eq (hstore rfl)
        ((h.edits.transformation id).symm.trans (h'.edits.transformation id))
  | chain =>
      obtain ⟨supernet, id, rfl⟩ := hnames.exists_chain
      exact get?_chain_of_settled hafter hs hafter' ht supernet id
  | tx =>
      obtain ⟨id, rfl⟩ := hnames.exists_id rfl
      rw [hflushed.get?_tx, hflushed'.get?_tx, ← leftUnder_map_some, ← leftUnder_map_some]
      exact leftUnder_eq (hstore rfl) ((h.edits.tx id).symm.trans (h'.edits.tx id))

/-- The two flushes leave stores that agree off what belongs to a height. -/
theorem agreesOffHeights_of_flushed (hstore : s.store.AgreesOnRecords t.store) :
    s'.store.AgreesOffHeights t'.store := by
  intro key hoff
  by_cases hnamed : ∃ space : KeySpace, space.Names key
  · obtain ⟨space, hnames⟩ := hnamed
    exact get?_of_flushed_off_heights h hproper hflushed h' hproper' hflushed' hnames
      (hoff space hnames) fun hrecord => hstore space hrecord key hnames
  · have hkeyed := (h.of_flushed hproper hflushed).keyed
    have hkeyed' := (h'.of_flushed hproper' hflushed').keyed
    rw [hkeyed.get?_eq_none hnamed, hkeyed'.get?_eq_none hnamed]

end Flushes

section FlushesAtOnce

-- Two flushes at the same height, of roots with the same contents over the same store.
variable (h : s.Durable book were c) (hproper : c.Proper book)
  (hflushed : s.Flushed height history s') (h' : t.Durable book' were c)
  (hproper' : c.Proper book') (hflushed' : t.Flushed height history' t') (hstore : s.store = t.store)

include h hproper hflushed h' hproper' hflushed' hstore

/-- Whatever kind of record a key belongs to, the two flushes leave the same under it. -/
theorem get?_of_flushed_alike {space : KeySpace} (hnames : space.Names key) :
    s'.store.get? key = t'.store.get? key := by
  -- The history is what differs most on the way: the diffs are not the same.
  have hhistory : ∀ {space : KeySpace}, space.Names key →
      space = .weightChange ∨ space = .publicKeyChange → s'.store.get? key = t'.store.get? key := by
    intro space hnames hspace
    have hleft : s'.store.get? key = (lastValue? history key).or (s.store.get? key) := by
      cases hspace with
      | inl heq => cases heq; exact hflushed.get?_of_puts hnames rfl
      | inr heq => cases heq; exact hflushed.get?_of_puts hnames rfl
    have hright : t'.store.get? key = (lastValue? history' key).or (t.store.get? key) := by
      cases hspace with
      | inl heq => cases heq; exact hflushed'.get?_of_puts hnames rfl
      | inr heq => cases heq; exact hflushed'.get?_of_puts hnames rfl
    rw [hleft, hright, hstore, (h.diffs .current).lastValue?_historyWrites (h'.diffs .current)
      hflushed.recorded hflushed'.recorded]
  cases hspace : space.isPerHeight with
  | false =>
      apply get?_of_flushed_off_heights h hproper hflushed h' hproper' hflushed' hnames hspace
      intro _
      rw [hstore]
  | true =>
      cases space with
      | height => rw [hnames.eq_bytes rfl, hflushed.get?_height, hflushed'.get?_height]
      | weightChange => exact hhistory hnames (Or.inl rfl)
      | publicKeyChange => exact hhistory hnames (Or.inr rfl)
      | _ => cases hspace

/-- The two flushes leave the same store. -/
theorem store_of_flushed_alike : s'.store = t'.store := by
  have hkeyed := (h.of_flushed hproper hflushed).keyed
  have hkeyed' := (h'.of_flushed hproper' hflushed').keyed
  apply congrArg Store.mk
  apply ext_get?
  intro key
  change s'.store.get? key = t'.store.get? key
  by_cases hnamed : ∃ space : KeySpace, space.Names key
  · obtain ⟨space, hnames⟩ := hnamed
    exact get?_of_flushed_alike h hproper hflushed h' hproper' hflushed' hstore hnames
  · rw [hkeyed.get?_eq_none hnamed, hkeyed'.get?_eq_none hnamed]

end FlushesAtOnce

end State

end StakingLedger
