import StakingLedger.Proofs.State.Commit
import StakingLedger.Proofs.State.Loading

/-! # Loading what a commit stored

A root whose writes are all flushed is found again by loading its store: the
balances and the stakers are read one by one, each from the key of its own, and
every other record is read from the same store.
-/

namespace StakingLedger

open OrderedMap

namespace State

variable {store : Store} {space : KeySpace}

/-- A list of values that all come from somewhere is the image of a list. -/
theorem exists_map_eq {α β : Type} {f : α → β} {l : List β} (h : ∀ b ∈ l, ∃ a, f a = b) :
    ∃ as : List α, as.map f = l := by
  induction l with
  | nil => exact ⟨[], rfl⟩
  | cons b l ih =>
      obtain ⟨a, rfl⟩ := h b List.mem_cons_self
      obtain ⟨as, rfl⟩ := ih fun b' hb' => h b' (List.mem_cons_of_mem _ hb')
      exact ⟨a :: as, rfl⟩

/-- The keys of a space with one identifier are scanned by identifier. -/
theorem id_of_mem_scan (hkeyed : store.IdKeyed space) {key value : Bytes}
    (h : (key, value) ∈ store.scan space.bytes) :
    ∃ id, key = space.idKey id ∧ store.get? (space.idKey id) = some value := by
  obtain ⟨hget, hlead⟩ := Store.mem_scan.mp h
  obtain ⟨id, rfl⟩ := hkeyed key value hget hlead
  exact ⟨id, rfl, hget⟩

theorem key_of_mem_scan (hkeyed : store.Keyed) (hwidth : space.width = 32) {key value : Bytes}
    (h : (key, value) ∈ store.scan space.bytes) :
    ∃ id, key = space.idKey id ∧ store.get? (space.idKey id) = some value :=
  id_of_mem_scan (hkeyed.idKeyed hwidth) h

/-! ## Balances -/

/-- The entry of a stored balance. -/
def balanceEntry (space : KeySpace) (p : EntityId × UInt64) : Bytes × Bytes :=
  (space.idKey p.1, wordBytes p.2)

/-- Puts one stored balance into a family. -/
def balanceStep (space : KeySpace) (balances : OrderedMap EntityId UInt64)
    (entry : Bytes × Bytes) : Answer (OrderedMap EntityId UInt64) := do
  let supernet ← Key.parseId space entry.1
  let amount ← Key.decodeWord entry.2
  return balances.insert supernet amount

/-- Balances are read from their entries and from nothing else. -/
theorem balanceSteps_eq_ok_iff {entries : List (Bytes × Bytes)}
    {init balances : OrderedMap EntityId UInt64} :
    entries.foldlM (balanceStep space) init = .ok balances ↔
      ∃ pairs, pairs.map (balanceEntry space) = entries ∧ init.insertMany pairs = balances := by
  induction entries generalizing init with
  | nil =>
      constructor
      · intro h
        cases h
        exact ⟨[], rfl, rfl⟩
      · rintro ⟨pairs, hpairs, rfl⟩
        rw [List.map_eq_nil_iff.mp hpairs]
        rfl
  | cons e rest ih =>
      rw [List.foldlM_cons, bind_eq_ok_iff]
      constructor
      · rintro ⟨next, hstep, hrest⟩
        obtain ⟨supernet, hkey, hstep⟩ := bind_eq_ok_iff.mp hstep
        obtain ⟨amount, hvalue, hstep⟩ := bind_eq_ok_iff.mp hstep
        cases hstep
        obtain ⟨pairs, rfl, hbalances⟩ := ih.mp hrest
        refine ⟨(supernet, amount) :: pairs, ?_, hbalances⟩
        rw [List.map_cons, balanceEntry, ← Key.parseId_eq_ok_iff.mp hkey,
          ← Key.decodeWord_eq_ok_iff.mp hvalue]
      · rintro ⟨pairs, hpairs, hbalances⟩
        obtain ⟨p, more, rfl, rfl, rfl⟩ := List.map_eq_cons_iff.mp hpairs
        refine ⟨init.insert p.1 p.2, ?_, ih.mpr ⟨more, rfl, hbalances⟩⟩
        rw [balanceStep, balanceEntry, Key.parseId_idKey, bind_ok, Key.decodeWord_wordBytes]
        rfl

/-- The balances of the entries of a space are those that the store keeps. -/
theorem keepsBalances_of_entries {pairs : List (EntityId × UInt64)}
    (h : pairs.map (balanceEntry space) = store.scan space.bytes) :
    store.KeepsBalances space .empty (OrderedMap.empty.insertMany pairs) := by
  have hentry : ∀ id value, store.get? (space.idKey id) = some value ↔
      ∃ amount, (id, amount) ∈ pairs ∧ wordBytes amount = value := by
    intro id value
    have hlead : space.bytes <+: space.idKey id := List.prefix_append _ _
    rw [← and_iff_left (a := store.get? (space.idKey id) = some value) hlead, ← Store.mem_scan, ← h,
      List.mem_map]
    constructor
    · rintro ⟨⟨id', amount⟩, hmem, heq⟩
      obtain ⟨hkey, hvalue⟩ := Prod.mk.inj heq
      cases KeySpace.idKey_inj.mp hkey
      exact ⟨amount, hmem, hvalue⟩
    · rintro ⟨amount, hmem, rfl⟩
      exact ⟨_, hmem, rfl⟩
  refine ⟨fun id _ => ?_, fun id htouched => by cases htouched⟩
  rw [OrderedMap.get?_insertMany, OrderedMap.get?_empty, Option.or_none]
  cases hget : store.get? (space.idKey id) with
  | none =>
      have hnone : lastValue? pairs id = none := lastValue?_eq_none_iff.mpr fun amount hmem => by
        rw [(hentry id _).mpr ⟨amount, hmem, rfl⟩] at hget
        cases hget
      rw [hnone]
      rfl
  | some value =>
      obtain ⟨amount, hmem, rfl⟩ := (hentry id value).mp hget
      have hlast : lastValue? pairs id = some amount :=
        lastValue?_eq_of_graph fun amount' => by
          constructor
          · intro hmem'
            have hsame := hget.symm.trans ((hentry id _).mpr ⟨amount', hmem', rfl⟩)
            exact congrArg some (wordBytes_inj (Option.some.inj hsame))
          · rintro ⟨⟩
            exact hmem
      rw [hlast]
      rfl

theorem keepsBalances_unique {balances balances' : OrderedMap EntityId UInt64}
    (h : store.KeepsBalances space .empty balances)
    (h' : store.KeepsBalances space .empty balances') : balances = balances' := by
  apply OrderedMap.ext_get?
  intro id
  have hsame := (h.untouched id rfl).symm.trans (h'.untouched id rfl)
  exact Option.map_injective (fun _ _ => wordBytes_inj) hsame

/-- What is loaded of a family are just the balances that the store keeps. -/
theorem loadBalances_eq_ok_iff {balances : OrderedMap EntityId UInt64} :
    loadBalances store space = .ok balances ↔
      store.IdKeyed space ∧ store.KeepsBalances space .empty balances := by
  have hsteps : loadBalances store space =
      (store.scan space.bytes).foldlM (balanceStep space) .empty := rfl
  rw [hsteps, balanceSteps_eq_ok_iff]
  constructor
  · rintro ⟨pairs, hpairs, rfl⟩
    refine ⟨fun key value hget hlead => ?_, keepsBalances_of_entries hpairs⟩
    have hmem := Store.mem_scan.mpr ⟨hget, hlead⟩
    rw [← hpairs] at hmem
    obtain ⟨p, _, heq⟩ := List.mem_map.mp hmem
    exact ⟨p.1, (congrArg Prod.fst heq).symm⟩
  · rintro ⟨hkeyed, hkept⟩
    obtain ⟨pairs, hpairs⟩ := exists_map_eq (f := balanceEntry space) (l := store.scan space.bytes)
      fun e he => by
        obtain ⟨id, hkey, hget⟩ := id_of_mem_scan hkeyed he
        rw [hkept.untouched id rfl] at hget
        obtain ⟨amount, _, hvalue⟩ := Option.map_eq_some_iff.mp hget
        exact ⟨(id, amount), Prod.ext hkey.symm hvalue⟩
    exact ⟨pairs, hpairs, keepsBalances_unique (keepsBalances_of_entries hpairs) hkept⟩

/-! ## Stakers -/

/-- The entry of a stored staker. -/
def stakerEntry (space : KeySpace) (t : Staker) : Bytes × Bytes :=
  (space.idKey t.txId, toCanonical t)

theorem loadStaker_toCanonical {t : Staker} (hfits : Codec.fits t = true) :
    loadStaker space (space.idKey t.txId) (toCanonical t) = .ok t := by
  refine bind_eq_ok_iff.mpr ⟨t.txId, Key.parseId_idKey space t.txId,
    bind_eq_ok_iff.mpr ⟨t, ofCanonical_toCanonical hfits _, ?_⟩⟩
  rw [if_neg (not_not.mpr rfl)]
  rfl

theorem loadStep_stakerEntry {t : Staker} (hfits : Codec.fits t = true) (r : Registry) :
    loadStep space r (stakerEntry space t) = .ok (r.put t) :=
  bind_eq_ok_iff.mpr ⟨t, loadStaker_toCanonical hfits, rfl⟩

theorem loadSteps_holds {stakers : List Staker} {r : Registry} {held : Set Staker}
    (h : r.Holds held) (hone : OneValidatorPerSlot (held ∪ {t | t ∈ stakers}))
    (hapart : stakers.Pairwise fun t u => t.txId ≠ u.txId)
    (habsent : ∀ t ∈ stakers, ∀ u ∈ held, u.txId ≠ t.txId)
    (hfits : ∀ t ∈ stakers, Codec.fits t = true) :
    ∃ r', (stakers.map (stakerEntry space)).foldlM (loadStep space) r = .ok r' ∧
      r'.Holds (held ∪ {t | t ∈ stakers}) := by
  -- Entries are apart by transaction, so each staker is absent when its turn comes.
  induction stakers generalizing r held with
  | nil =>
      refine ⟨r, rfl, ?_⟩
      have hsame : held ∪ {t | t ∈ ([] : List Staker)} = held := by simp
      rwa [hsame]
  | cons t rest ih =>
      obtain ⟨hhead, htail⟩ := List.pairwise_cons.mp hapart
      have hunion : insert t held ∪ {u | u ∈ rest} = held ∪ {u | u ∈ t :: rest} := by
        ext u
        simp only [Set.mem_union, Set.mem_insert_iff, Set.mem_ofPred_eq, List.mem_cons]
        tauto
      have hput : (r.put t).Holds (insert t held) :=
        h.put_free (hone.subset Set.subset_union_left) (habsent t List.mem_cons_self) fun hv =>
          occupant_eq_none_iff.mpr fun u hu huv hslot => by
            have heq := hone u (Or.inl hu) t (Or.inr List.mem_cons_self) huv hv hslot
            exact habsent t List.mem_cons_self u hu (congrArg Staker.txId heq)
      obtain ⟨r', hload, hholds⟩ := ih hput (by rwa [hunion]) htail
        (fun u hu v hv => by
          rcases hv with rfl | hv
          · exact hhead u hu
          · exact habsent u (List.mem_cons_of_mem _ hu) v hv)
        fun u hu => hfits u (List.mem_cons_of_mem _ hu)
      refine ⟨r', ?_, hunion ▸ hholds⟩
      rw [List.map_cons, List.foldlM_cons, loadStep_stakerEntry (hfits t List.mem_cons_self)]
      exact hload

/-- What a scan finds of a space of stakers are their entries, by transaction. -/
theorem exists_stakers_of_keepsStakers {members : Set Staker} (hkeyed : store.IdKeyed space)
    (hkeeps : store.KeepsStakers space members) (hfits : ∀ t ∈ members, Codec.fits t = true) :
    ∃ stakers : List Staker, stakers.map (stakerEntry space) = store.scan space.bytes ∧
      (∀ t, t ∈ stakers ↔ t ∈ members) ∧ stakers.Pairwise fun t u => t.txId ≠ u.txId := by
  obtain ⟨found, hfound⟩ := exists_map_eq
    (f := fun t : members => stakerEntry space t.1)
    (l := store.scan space.bytes) fun e he => by
      obtain ⟨id, hkey, hget⟩ := id_of_mem_scan hkeyed he
      obtain ⟨t, ht, rfl, hvalue⟩ := (hkeeps id e.2).mp hget
      exact ⟨⟨t, ht⟩, Prod.ext hkey.symm hvalue.symm⟩
  have hscan : (found.map Subtype.val).map (stakerEntry space) = store.scan space.bytes := by
    rw [List.map_map]
    exact hfound
  refine ⟨found.map Subtype.val, hscan, fun t => ⟨fun ht => ?_, fun ht => ?_⟩, ?_⟩
  · obtain ⟨u, _, rfl⟩ := List.mem_map.mp ht
    exact u.2
  · have hget := (hkeeps t.txId (toCanonical t)).mpr ⟨t, ht, rfl, rfl⟩
    have hentry := Store.mem_scan.mpr ⟨hget, List.prefix_append _ _⟩
    rw [← hscan] at hentry
    obtain ⟨u, hu, heq⟩ := List.mem_map.mp hentry
    obtain ⟨v, _, rfl⟩ := List.mem_map.mp hu
    -- The bytes are those of one staker only.
    have hvalue : toCanonical v.1 = toCanonical t := congrArg Prod.snd heq
    have hread := decodeAll_toCanonical (hfits t ht)
    rw [← hvalue, decodeAll_toCanonical (hfits v.1 v.2)] at hread
    exact Option.some.inj hread ▸ hu
  · have hascending := store.scan_ascending space.bytes
    rw [← hscan] at hascending
    refine (List.pairwise_map.mp hascending).imp fun hlt heq => ?_
    exact OrderedMap.ne_of_compare_lt hlt (KeySpace.idKey_inj.mpr heq)

theorem loadRegistry_holds {members : Set Staker} (hkeyed : store.IdKeyed space)
    (hkeeps : store.KeepsStakers space members)
    (hone : OneValidatorPerSlot members) (hfits : ∀ t ∈ members, Codec.fits t = true) :
    ∃ r, loadRegistry store space = .ok r ∧ r.Holds members ∧ r.diffs = .empty := by
  obtain ⟨stakers, hscan, hmembers, hapart⟩ := exists_stakers_of_keepsStakers hkeyed hkeeps hfits
  have hset : (∅ : Set Staker) ∪ {t | t ∈ stakers} = members := by
    ext t
    rw [Set.empty_union]
    exact hmembers t
  obtain ⟨r, hload, hholds⟩ := @loadSteps_holds space _ _ _ Registry.Holds.empty
    (hset.symm ▸ hone) hapart (fun t _ u hu => absurd hu (Set.notMem_empty u))
    fun t ht => hfits t ((hmembers t).mp ht)
  rw [hset] at hholds
  rw [hscan] at hload
  refine ⟨r.clearDiffs, ?_, hholds.clearDiffs, rfl⟩
  change (do
    let registry ← (store.scan space.bytes).foldlM (loadStep space) {}
    return registry.clearDiffs) = _
  rw [hload]
  rfl

/-! ## The whole root -/

variable {s s' : State} {height : UInt64} {history : List (Bytes × Bytes)} {book : Book}
  {were : Phase → Set Staker} {c : Contents}

/-- A store that has the figures, the balances and the stakers of a ledger is loaded. -/
theorem load_of_stored {height timestamp feePool : UInt64}
    {supplies rewardPools : OrderedMap EntityId UInt64} {members : Phase → Set Staker}
    (hkeyed : ∀ space : KeySpace, space.isListed = true → store.IdKeyed space)
    (hheight : store.get? KeySpace.height.bytes = some (wordBytes height))
    (htimestamp : store.get? KeySpace.timestamp.bytes = some (wordBytes timestamp))
    (hfeePool : store.get? KeySpace.feePool.bytes = some (wordBytes feePool))
    (hsupplies : store.KeepsBalances .supply .empty supplies)
    (hrewardPools : store.KeepsBalances .rewardPool .empty rewardPools)
    (hstakers : ∀ phase, store.KeepsStakers (KeySpace.staker phase) (members phase))
    (hslots : ∀ phase, OneValidatorPerSlot (members phase))
    (hfits : ∀ phase, ∀ t ∈ members phase, Codec.fits t = true) :
    ∃ registries : ByPhase Registry,
      load store = .ok {
        store := store, height := height, timestamp := timestamp, feePool := feePool
        supplies := supplies, rewardPools := rewardPools, registries := registries } ∧
      ∀ phase, (registries.get phase).Holds (members phase) ∧
        (registries.get phase).diffs = .empty := by
  have hregistry := fun phase => loadRegistry_holds (hkeyed _ (KeySpace.isListed_staker phase))
    (hstakers phase) (hslots phase) (hfits phase)
  obtain ⟨current, hcurrent, hcurrentHolds, hcurrentDiffs⟩ := hregistry .current
  obtain ⟨pending, hpending, hpendingHolds, hpendingDiffs⟩ := hregistry .pending
  refine ⟨⟨current, pending⟩, load_eq_ok_iff.mpr ?_, fun phase => ?_⟩
  · refine ⟨rfl, hheight, htimestamp, hfeePool, loadBalances_eq_ok_iff.mpr ⟨hkeyed _ rfl, hsupplies⟩,
      loadBalances_eq_ok_iff.mpr ⟨hkeyed _ rfl, hrewardPools⟩, fun phase => ?_, rfl⟩
    cases phase with
    | current => exact hcurrent
    | pending => exact hpending
  · cases phase with
    | current => exact ⟨hcurrentHolds, hcurrentDiffs⟩
    | pending => exact ⟨hpendingHolds, hpendingDiffs⟩

/-- The store of a flushed root loads as a root of the same height with the same contents. -/
theorem load_of_flushed (h : s.Durable book were c) (hproper : c.Proper book)
    (hflushed : s.Flushed height history s') :
    ∃ loaded, load s'.store = .ok loaded ∧ loaded.store = s'.store ∧ loaded.height = height ∧
      loaded.hasUncommittedChanges = false ∧ loaded.Mirrors c := by
  have hdurable := h.of_flushed hproper hflushed
  obtain ⟨_, _, _, hsameSupplies, hsamePools⟩ := hflushed.figures
  have hsupplies := hdurable.supplies
  have hrewardPools := hdurable.rewardPools
  rw [hflushed.unflushed, hsameSupplies] at hsupplies
  rw [hflushed.unflushed, hsamePools] at hrewardPools
  obtain ⟨registries, hload, hregistries⟩ := load_of_stored hdurable.keyed.listed hflushed.get?_height
    hflushed.get?_timestamp hflushed.get?_feePool hsupplies hrewardPools hdurable.stored
    hproper.slots hdurable.encoded
  exact ⟨_, hload, rfl, rfl, clean_of_load hload, {
    timestamp := h.timestamp
    feePool := h.feePool
    supply := h.supply
    rewardPool := h.rewardPool
    registries := fun phase => (hregistries phase).1
    edits := by
      rw [← h.persisted_of_flushed hflushed]
      exact RecordEdits.Carries.refl _ }⟩

end State

end StakingLedger
