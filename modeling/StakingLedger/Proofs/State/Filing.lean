import StakingLedger.Proofs.State.Genesis
import StakingLedger.Proofs.State.Reload

/-! # Filed records

The records of a root are those of its store with the writes that wait laid over them, whatever
is done to its stakers. A root archives its records when its store has each under a key of its
own and can be loaded. Every write keeps this. So does a flush of reward outputs that stand by
ascending index, and the store that it leaves loads with the same records.
-/

namespace StakingLedger

/-! ## Record writes that are held back -/

namespace RecordEdits

variable {e : RecordEdits} {below : Records}

/-- The chains of a supernet can be read, each under its own identifier, if those below can. -/
theorem Carries.exists_chains {above : Records} {supernet : EntityId} (h : e.Carries below above)
    (hfiled : e.Filed)
    (hbelow : ∃ held, below.chains supernet = .ok held ∧
      ∀ id chain, held.get? id = some chain → chain.id = id) :
    ∃ held, above.chains supernet = .ok held ∧
      ∀ id chain, held.get? id = some chain → chain.id = id := by
  obtain ⟨held, hheld, hkeyed⟩ := hbelow
  refine ⟨held.insertMany (e.heldChains supernet).entries, ?_, fun id chain hget => ?_⟩
  · rw [h.chains, hheld]
    rfl
  · rw [OrderedMap.get?_insertMany_entries, Option.or_eq_some_iff] at hget
    rcases hget with hown | ⟨_, hfound⟩
    · exact (hfiled.chains supernet id chain hown).1
    · exact hkeyed id chain hfound

end RecordEdits

/-- The reward outputs of every staking transaction can be read and stand by ascending index. -/
def Records.OrdersRewards (r : Records) : Prop :=
  ∀ stakerTx, ∃ paid, r.rewardUtxos stakerTx = .ok paid ∧ State.ByIndex paid

/-! ## Stores -/

namespace Store

/-- Every stored reward output stands under its own index. -/
def FilesRewards (store : Store) : Prop :=
  ∀ key value, store.get? key = some value → KeySpace.rewardUtxo.Names key →
    ∃ (stakerTx : EntityId) (utxo : Utxo), (key, value) = rewardEntry stakerTx utxo

/-- Every key is one of a ledger, and the records that are read in lists stand under their own. -/
structure FilesRecords (store : Store) : Prop where
  keyed : store.Keyed
  chains : store.FilesChains
  rewards : store.FilesRewards

/-- The stakers of a space can all be read. -/
def ReadsStakers (store : Store) (space : KeySpace) : Prop :=
  ∀ e ∈ store.scan space.bytes, ∃ t, State.loadStaker space e.1 e.2 = .ok t

theorem filesRecords_empty : ({} : Store).FilesRecords where
  keyed := keyed_empty
  chains _ _ hget := by cases hget
  rewards _ _ hget := by cases hget

theorem FilesRecords.keepsRewards {store : Store} (h : store.FilesRecords) (stakerTx : EntityId) :
    ∃ paid, store.KeepsRewards stakerTx paid ∧ State.ByIndex paid := by
  obtain ⟨paid, hpaid⟩ := State.exists_map_eq (f := rewardEntry stakerTx)
    (l := store.scan (KeySpace.rewardUtxo.idKey stakerTx)) fun (key, value) he => by
      obtain ⟨hget, hlead⟩ := mem_scan.mp he
      obtain ⟨space, hnames⟩ := h.keyed key value hget
      cases hnames.of_prefix hlead
      obtain ⟨stakerTx', utxo, heq⟩ := h.rewards key value hget hnames
      cases heq
      cases KeySpace.idKey_prefix_append.mp hlead
      exact ⟨utxo, rfl⟩
  have hascending : Store.Ascending (paid.map (rewardEntry stakerTx)) :=
    hpaid ▸ store.scan_ascending _
  exact ⟨paid, hpaid.symm, State.ascending_iff_byIndex.mp hascending⟩

end Store

namespace State

variable {s s' : State} {store : Store} {space : KeySpace} {phase : Phase} {height : UInt64}
  {history : List (Bytes × Bytes)} {r : Records} {c : Contents}

theorem exists_loadSteps {entries : List (Bytes × Bytes)}
    (h : ∀ e ∈ entries, ∃ t, loadStaker space e.1 e.2 = .ok t) (registry : Registry) :
    ∃ registry', entries.foldlM (loadStep space) registry = .ok registry' := by
  induction entries generalizing registry with
  | nil => exact ⟨registry, rfl⟩
  | cons e rest ih =>
      obtain ⟨t, ht⟩ := h e List.mem_cons_self
      obtain ⟨registry', hrest⟩ :=
        ih (fun e' he' => h e' (List.mem_cons_of_mem _ he')) (registry.put t)
      exact ⟨registry', bind_eq_ok_iff.mpr ⟨_, bind_eq_ok_iff.mpr ⟨t, ht, rfl⟩, hrest⟩⟩

/-- A registry loads just when every staker of its space can be read. -/
theorem exists_loadRegistry_iff :
    (∃ registry, loadRegistry store space = .ok registry) ↔ store.ReadsStakers space := by
  constructor
  · rintro ⟨registry, h⟩
    obtain ⟨_, hsteps, _⟩ := loadSteps_of_loadRegistry h
    exact exists_loadStaker_of_loadSteps hsteps
  · intro h
    obtain ⟨registry, hsteps⟩ := exists_loadSteps h {}
    exact ⟨registry.clearDiffs, bind_eq_ok_iff.mpr ⟨registry, hsteps, rfl⟩⟩

namespace Flushed

theorem filesRewards (h : s.Flushed height history s') (hfiles : s.store.FilesRewards) :
    s'.store.FilesRewards := by
  intro key value hget hnames
  have hputs : s.putsIn height history .rewardUtxo = s.unflushed.edits.putsIn .rewardUtxo := rfl
  rw [h.get?_of_puts hnames rfl, hputs, Option.or_eq_some_iff] at hget
  rcases hget with hput | ⟨_, hkept⟩
  · obtain ⟨stakerTx, utxo, _, rfl, rfl⟩ :=
      (RecordEdits.mem_rewardPuts_iff _).mp (OrderedMap.mem_of_lastValue?_eq_some hput)
    exact ⟨stakerTx, utxo, rfl⟩
  · exact hfiles key value hkept hnames

theorem fits_adds (h : s.Flushed height history s') {slot : Slot} {d : SlotDiff} {t : Staker}
    (hget : (s.registries.get phase).diffs.get? slot = some d) (hadds : d.Adds t) :
    Codec.fits t = true := by
  have hstakers := Bool.and_eq_true_iff.mp (Bool.and_eq_true_iff.mp h.encodable).1
  have hphase : (s.registries.get phase).diffs.encodable = true := by
    cases phase with
    | current => exact hstakers.1
    | pending => exact hstakers.2
  exact SlotDiff.fits_of_encodable
    (List.all_eq_true.mp hphase d (OrderedMap.mem_values_iff.mpr ⟨slot, hget⟩)) hadds

theorem readsStakers (h : s.Flushed height history s') (hkeyed : s.store.Keyed)
    (hreads : s.store.ReadsStakers (KeySpace.staker phase)) :
    s'.store.ReadsStakers (KeySpace.staker phase) := by
  rintro ⟨key, value⟩ he
  obtain ⟨id, rfl, hget⟩ := key_of_mem_scan (h.keyed hkeyed) (KeySpace.width_staker phase) he
  have hputs : s.putsIn height history (KeySpace.staker phase) =
      ((s.registries.get phase).diffs.stakerWrites (KeySpace.staker phase)).puts := by
    cases phase <;> rfl
  rw [h.get?_of_names (KeySpace.Names.idKey (KeySpace.width_staker phase) id), hputs,
    Option.or_eq_some_iff] at hget
  rcases hget with hput | ⟨_, hkept⟩
  · obtain ⟨slot, d, t, hslot, hadds, heq⟩ :=
      SlotDiffs.mem_puts_iff.mp (OrderedMap.mem_of_lastValue?_eq_some hput)
    obtain ⟨hkey, rfl⟩ := Prod.mk.inj heq
    exact ⟨t, hkey ▸ loadStaker_toCanonical (h.fits_adds hslot hadds)⟩
  · split at hkept
    · cases hkept
    · exact hreads (_, value) (Store.mem_scan.mpr ⟨hkept, List.prefix_append _ _⟩)

end Flushed

/-! ## Roots -/

/-- The root tells the records, and its store files them and can be loaded after a flush. -/
structure Archives (s : State) (r : Records) : Prop where
  edits : s.unflushed.edits.Carries s.persisted r
  filed : s.unflushed.edits.Filed
  files : s.store.FilesRecords
  supplies : s.store.KeepsBalances .supply s.unflushed.supplies s.supplies
  rewardPools : s.store.KeepsBalances .rewardPool s.unflushed.rewardPools s.rewardPools
  stakers : ∀ phase, s.store.ReadsStakers (KeySpace.staker phase)

namespace Archives

/-- The chains of every supernet can be read, each under its own identifier. -/
theorem chains (h : s.Archives r) (supernet : EntityId) :
    ∃ held, r.chains supernet = .ok held ∧
      ∀ id chain, held.get? id = some chain → chain.id = id := by
  obtain ⟨stored, hstored, _⟩ := chains_of_filesChains h.files.keyed h.files.chains supernet
  exact h.edits.exists_chains h.filed ⟨stored, hstored, s.persisted_chains_filed hstored⟩

theorem write (h : s.Archives c.toRecords) (w : Write) :
    (s.write w).Archives (c.write w).toRecords := by
  have hedits : (s.write w).unflushed.edits.Carries (s.write w).persisted
      (c.write w).toRecords := by
    rw [edits_write, persisted_write]
    exact h.edits.record w
  have hfiled : (s.write w).unflushed.edits.Filed := by
    rw [edits_write]
    exact h.filed.record w
  cases w with
  | setSupply supernet amount =>
      exact { h with edits := hedits, supplies := h.supplies.insert supernet amount }
  | setRewardPool supernet amount =>
      exact { h with edits := hedits, rewardPools := h.rewardPools.insert supernet amount }
  | _ => exact { h with edits := hedits, filed := hfiled }

theorem writeAll (h : s.Archives c.toRecords) (writes : List Write) :
    (s.writeAll writes).Archives (c.writeAll writes).toRecords := by
  induction writes generalizing s c with
  | nil => exact h
  | cons w rest ih => exact ih (h.write w)

/-! ### Flushes -/

/-- Stored and waiting reward outputs together stand by ascending index. -/
theorem byIndex (h : s.Archives r) (horder : r.OrdersRewards) (stakerTx : EntityId) :
    ∃ paid, s.store.KeepsRewards stakerTx paid ∧
      ByIndex (paid ++ s.unflushed.edits.heldRewards stakerTx) := by
  obtain ⟨stored, hstored, _⟩ := h.files.keepsRewards stakerTx
  obtain ⟨paid, hread, hindex⟩ := horder stakerTx
  rw [h.edits.rewardUtxos, rewardUtxos_of_keepsRewards hstored] at hread
  cases hread
  exact ⟨stored, hstored, hindex⟩

theorem of_flushed (h : s.Archives r) (horder : r.OrdersRewards)
    (hflushed : s.Flushed height history s') : s'.Archives r := by
  have hpersisted := hflushed.persisted h.edits h.filed h.files.keyed h.files.chains
    (h.byIndex horder)
  exact {
    edits := by
      rw [hflushed.unflushed, hpersisted]
      exact RecordEdits.Carries.refl _
    filed := by
      rw [hflushed.unflushed]
      exact .empty
    files := ⟨hflushed.keyed h.files.keyed, hflushed.filesChains h.files.chains h.filed,
      hflushed.filesRewards h.files.rewards⟩
    supplies := hflushed.keepsSupplies h.supplies
    rewardPools := hflushed.keepsRewardPools h.rewardPools
    stakers := fun phase => hflushed.readsStakers h.files.keyed (h.stakers phase) }

/-- The store of a flush loads, and the root that it loads as has the same records. -/
theorem load_of_flushed (h : s.Archives r) (horder : r.OrdersRewards)
    (hflushed : s.Flushed height history s') :
    ∃ loaded, load s'.store = .ok loaded ∧ loaded.Archives r := by
  have hafter := h.of_flushed horder hflushed
  have hsupplies := hafter.supplies
  have hrewardPools := hafter.rewardPools
  rw [hflushed.unflushed] at hsupplies hrewardPools
  obtain ⟨current, hcurrent⟩ := exists_loadRegistry_iff.mpr (hafter.stakers .current)
  obtain ⟨pending, hpending⟩ := exists_loadRegistry_iff.mpr (hafter.stakers .pending)
  obtain ⟨hheight, htimestamp, hfeePool, _, _⟩ := hflushed.figures
  refine ⟨{ s' with registries := ⟨current, pending⟩ }, load_eq_ok_iff.mpr ⟨rfl, ?_, ?_, ?_, ?_, ?_,
    fun phase => ?_, hflushed.unflushed⟩, { hafter with }⟩
  · exact hheight ▸ hflushed.get?_height
  · exact htimestamp ▸ hflushed.get?_timestamp
  · exact hfeePool ▸ hflushed.get?_feePool
  · exact loadBalances_eq_ok_iff.mpr ⟨hafter.files.keyed.listed _ rfl, hsupplies⟩
  · exact loadBalances_eq_ok_iff.mpr ⟨hafter.files.keyed.listed _ rfl, hrewardPools⟩
  · cases phase with
    | current => exact hcurrent
    | pending => exact hpending

end Archives

/-! ## Where archives come from -/

theorem ordersRewards_persisted (h : s.store.FilesRecords) : s.persisted.OrdersRewards := by
  intro stakerTx
  obtain ⟨paid, hpaid, hindex⟩ := h.keepsRewards stakerTx
  exact ⟨paid, rewardUtxos_of_keepsRewards hpaid, hindex⟩

/-- A root archives the records of the filed store that it was loaded from. -/
theorem archives_of_load (h : load store = .ok s) (hfiles : store.FilesRecords) :
    s.Archives s.persisted ∧ s.persisted.OrdersRewards := by
  have hloads := load_eq_ok_iff.mp h
  obtain rfl := hloads.store_eq
  refine ⟨?_, ordersRewards_persisted hfiles⟩
  exact {
    edits := by
      rw [hloads.unflushed]
      exact RecordEdits.Carries.refl _
    filed := by
      rw [hloads.unflushed]
      exact .empty
    files := hfiles
    supplies := by
      rw [hloads.unflushed]
      exact (loadBalances_eq_ok_iff.mp hloads.supplies).2
    rewardPools := by
      rw [hloads.unflushed]
      exact (loadBalances_eq_ok_iff.mp hloads.rewardPools).2
    stakers := fun phase => exists_loadRegistry_iff.mp ⟨_, hloads.registries phase⟩ }

theorem archives_fresh :
    ({ store := {} } : State).Archives ({ store := {} } : State).persisted where
  edits := RecordEdits.Carries.refl _
  filed := .empty
  files := Store.filesRecords_empty
  supplies := ⟨fun _ _ => rfl, fun _ h => by cases h⟩
  rewardPools := ⟨fun _ _ => rfl, fun _ h => by cases h⟩
  stakers _ _ he := by cases he

/-- The root of a genesis in an empty store archives what the genesis wrote. -/
theorem archives_of_fromGenesis {g : Genesis} {config : StakingConfig}
    (h : fromGenesis {} g config = .ok s) : ∃ r, s.Archives r ∧ r.OrdersRewards := by
  obtain ⟨record⟩ := genesisRecord_of_fromGenesis h
  obtain ⟨_, hflushed⟩ := flushed_of_flush record.flushed
  have hwritten := Archives.writeAll (c := ({ store := {} } : State).settled fun _ => ∅)
    archives_fresh (genesisWrites g record.placed record.supply record.pool)
  have hunpaid : ∀ w ∈ genesisWrites g record.placed record.supply record.pool,
      ∀ c : Contents, (c.write w).rewardUtxos = c.rewardUtxos := fun w hw c => by
    cases w with
    | addRewardUtxo stakerTx utxo => simp [genesisWrites, Placement.writes] at hw
    | _ => rfl
  have hrewards := Contents.get_writeAll (c := ({ store := {} } : State).settled fun _ => ∅)
    (·.rewardUtxos) hunpaid
  have horder : Records.OrdersRewards (Contents.toRecords
      ((({ store := {} } : State).settled fun _ => ∅).writeAll
        (genesisWrites g record.placed record.supply record.pool))) := by
    intro stakerTx
    rw [hrewards]
    exact ordersRewards_persisted Store.filesRecords_empty stakerTx
  exact ⟨_, hwritten.of_flushed horder hflushed, horder⟩

end State

end StakingLedger
