import Mathlib.Data.List.Nodup
import StakingLedger.Proofs.State.Durable
import StakingLedger.Proofs.State.Flushing
import StakingLedger.Proofs.Store.Scan

/-! # What a commit changes

A commit moves what waits in memory to the store. Every read answers as before,
and the root is durable again, now with the stakers in memory as the stored
ones.
-/

namespace StakingLedger

open OrderedMap

namespace State

variable {s s' : State} {height : UInt64} {history : List (Bytes × Bytes)} {space : KeySpace}
  {book : Book} {were : Phase → Set Staker} {c : Contents}

/-! ## Single records -/

theorem stored_of_get? {α : Type} [Codec α] [LawfulCodec α] {key : Bytes} (held : Option α)
    (hget : s'.store.get? key = (held.map toCanonical).or (s.store.get? key))
    (hfits : ∀ a, held = some a → Codec.fits a = true) (what : String) :
    s'.stored key what = overlaid (held.map some) (s.stored key what) := by
  cases held with
  | none =>
      unfold stored
      rw [hget]
      rfl
  | some a =>
      have hread := ofCanonical_toCanonical (hfits a rfl) what
      unfold stored
      rw [hget]
      change (do let value ← ofCanonical (toCanonical a) what; return some value) = _
      rw [hread]
      rfl

theorem Flushed.stored_utxo (h : s.Flushed height history s') (id : UtxoId) :
    s'.persisted.utxo id = overlaid (s.unflushed.edits.utxos.get? id) (s.persisted.utxo id) := by
  have hget := h.get?_utxo id
  change s'.stored (Key.utxo id) "utxo" = overlaid _ (s.stored (Key.utxo id) "utxo")
  cases hheld : s.unflushed.edits.utxos.get? id with
  | none =>
      rw [hheld] at hget
      exact stored_of_get? (none : Option Utxo) hget (fun _ hnone => by cases hnone) _
  | some utxo? =>
      rw [hheld] at hget
      cases utxo? with
      | none =>
          unfold stored
          rw [hget]
          rfl
      | some utxo => exact stored_of_get? (some utxo) hget (fun _ _ => rfl) _

/-! ## Balances -/

theorem keepsBalances_of_get? {store store' : Store} {touched : IdSet}
    {balances : OrderedMap EntityId UInt64} (h : store.KeepsBalances space touched balances)
    (hget : ∀ id, store'.get? (space.idKey id) =
      (lastValue? (balanceWrites space.idKey touched balances) (space.idKey id)).or
        (store.get? (space.idKey id))) : store'.KeepsBalances space .empty balances := by
  refine ⟨fun id _ => ?_, fun id htouched => ?_⟩
  · have hlast : lastValue? (balanceWrites space.idKey touched balances) (space.idKey id) =
        if touched.contains id = true then (balances.get? id).map wordBytes else none := by
      refine lastValue?_eq_of_graph fun v => ?_
      simp only [mem_balanceWrites_iff, Prod.mk.injEq, KeySpace.idKey_inj]
      split
      next htouched =>
        rw [Option.map_eq_some_iff]
        constructor
        · rintro ⟨_, amount, _, hamount, rfl, rfl⟩
          exact ⟨amount, hamount, rfl⟩
        · rintro ⟨amount, hamount, rfl⟩
          exact ⟨id, amount, htouched, hamount, rfl, rfl⟩
      next huntouched =>
        constructor
        · rintro ⟨_, _, htouched, _, rfl, _⟩
          exact absurd htouched huntouched
        · intro hnone
          cases hnone
    rw [hget, hlast]
    split
    next htouched =>
      obtain ⟨amount, hamount⟩ := Option.isSome_iff_exists.mp (h.touched id htouched)
      rw [hamount]
      rfl
    next huntouched => rw [Option.none_or, h.untouched id (Bool.eq_false_iff.mpr huntouched)]
  · cases htouched

namespace Flushed

/-- After a flush the store has all balances of a family. -/
theorem keepsBalances (hflushed : s.Flushed height history s') {space : KeySpace}
    (hwidth : space.width = 32) {touched : IdSet} {balances : OrderedMap EntityId UInt64}
    (hputs : s.putsIn height history space = balanceWrites space.idKey touched balances ++ [])
    (hdeletes : s.deletesIn space = []) (h : s.store.KeepsBalances space touched balances) :
    s'.store.KeepsBalances space .empty balances :=
  keepsBalances_of_get? h (hflushed.get?_balance hwidth hputs hdeletes)

theorem keepsSupplies (hflushed : s.Flushed height history s')
    (h : s.store.KeepsBalances .supply s.unflushed.supplies s.supplies) :
    s'.store.KeepsBalances .supply s'.unflushed.supplies s'.supplies := by
  rw [hflushed.unflushed, show s'.supplies = s.supplies from hflushed.figures.2.2.2.1]
  exact hflushed.keepsBalances rfl rfl rfl h

theorem keepsRewardPools (hflushed : s.Flushed height history s')
    (h : s.store.KeepsBalances .rewardPool s.unflushed.rewardPools s.rewardPools) :
    s'.store.KeepsBalances .rewardPool s'.unflushed.rewardPools s'.rewardPools := by
  rw [hflushed.unflushed, show s'.rewardPools = s.rewardPools from hflushed.figures.2.2.2.2]
  exact hflushed.keepsBalances rfl rfl rfl h

end Flushed

/-! ## Reward outputs -/

/-- The outputs are listed by ascending index. -/
def ByIndex (paid : List Utxo) : Prop :=
  paid.Pairwise fun u v => u.id.outputIndex < v.id.outputIndex

theorem byIndex_of_numbered {paid : List Utxo} (h : Numbered paid) : ByIndex paid := by
  refine List.pairwise_iff_getElem.mpr fun i j hi hj hlt => ?_
  rw [UInt32.lt_iff_toNat_lt, h i _ (List.getElem?_eq_getElem hi),
    h j _ (List.getElem?_eq_getElem hj)]
  exact hlt

theorem compare_rewardUtxo_eq_lt {stakerTx : EntityId} {i j : UInt32} :
    compare (Key.rewardUtxo stakerTx i) (Key.rewardUtxo stakerTx j) = .lt ↔ i < j := by
  change compare (KeySpace.rewardUtxo.idKey stakerTx ++ bigEndian 4 i.toNat)
    (KeySpace.rewardUtxo.idKey stakerTx ++ bigEndian 4 j.toNat) = .lt ↔ _
  rw [Bytes.compare_append_left,
    @compare_bigEndian 4 _ _ (UInt32.toNat_lt _) (UInt32.toNat_lt _), Nat.compare_eq_lt,
    UInt32.lt_iff_toNat_lt]

/-- The keys of outputs ascend just as their indices do. -/
theorem ascending_iff_byIndex {paid : List Utxo} {stakerTx : EntityId} :
    Store.Ascending (paid.map (rewardEntry stakerTx)) ↔ ByIndex paid :=
  List.pairwise_map.trans (by simp only [rewardEntry, compare_rewardUtxo_eq_lt, ByIndex])

theorem eq_of_byIndex {paid : List Utxo} (h : ByIndex paid) {u v : Utxo} (hu : u ∈ paid)
    (hv : v ∈ paid) (heq : u.id.outputIndex = v.id.outputIndex) : u = v := by
  have hapart : (paid.map fun u => u.id.outputIndex).Nodup :=
    List.pairwise_map.mpr (h.imp UInt32.ne_of_lt)
  exact List.inj_on_of_nodup_map hapart hu hv heq

namespace Flushed

theorem mem_scan_rewards (h : s.Flushed height history s') (hkeyed : s.store.Keyed)
    {stakerTx : EntityId} {paid : List Utxo} (hpaid : s.store.KeepsRewards stakerTx paid)
    (hindex : ByIndex (paid ++ s.unflushed.edits.heldRewards stakerTx)) (e : Bytes × Bytes) :
    e ∈ s'.store.scan (KeySpace.rewardUtxo.idKey stakerTx) ↔
      e ∈ (paid ++ s.unflushed.edits.heldRewards stakerTx).map (rewardEntry stakerTx) := by
  obtain ⟨key, value⟩ := e
  have hputs : s.putsIn height history .rewardUtxo = s.unflushed.edits.putsIn .rewardUtxo := rfl
  rw [Store.mem_scan, List.map_append, List.mem_append]
  constructor
  · rintro ⟨hget, hlead⟩
    obtain ⟨space, hnames⟩ := h.keyed hkeyed key value hget
    cases hnames.of_prefix hlead
    rw [h.get?_of_puts hnames rfl, hputs, Option.or_eq_some_iff] at hget
    rcases hget with hput | ⟨_, hkept⟩
    · obtain ⟨stakerTx', utxo, hutxo, rfl, rfl⟩ :=
        (RecordEdits.mem_rewardPuts_iff _).mp (mem_of_lastValue?_eq_some hput)
      cases KeySpace.idKey_prefix_append.mp hlead
      exact Or.inr (List.mem_map.mpr ⟨utxo, hutxo, rfl⟩)
    · exact Or.inl (hpaid ▸ Store.mem_scan.mpr ⟨hkept, hlead⟩)
  · rw [← List.mem_append, ← List.map_append]
    intro hmem
    obtain ⟨utxo, hutxo, heq⟩ := List.mem_map.mp hmem
    cases heq
    refine ⟨?_, List.prefix_append _ _⟩
    rw [h.get?_of_puts (KeySpace.Names.rewardUtxo stakerTx _) rfl, hputs]
    -- An index is taken once over what was stored and what was held back.
    cases hlast : lastValue? (s.unflushed.edits.putsIn .rewardUtxo)
        (Key.rewardUtxo stakerTx utxo.id.outputIndex) with
    | some value =>
        obtain ⟨stakerTx', utxo', hutxo', hkey, rfl⟩ :=
          (RecordEdits.mem_rewardPuts_iff _).mp (mem_of_lastValue?_eq_some hlast)
        obtain ⟨rfl, hsame⟩ := Key.rewardUtxo_inj.mp hkey
        rw [eq_of_byIndex hindex hutxo (List.mem_append_right _ hutxo') hsame]
        rfl
    | none =>
        rcases List.mem_append.mp hutxo with hstored | hheld
        · have hscan : rewardEntry stakerTx utxo ∈ s.store.scan (KeySpace.rewardUtxo.idKey stakerTx) :=
            hpaid ▸ List.mem_map_of_mem hstored
          exact (Store.mem_scan.mp hscan).1
        · exact absurd ((RecordEdits.mem_rewardPuts_iff _).mpr ⟨stakerTx, utxo, hheld, rfl, rfl⟩)
            (lastValue?_eq_none_iff.mp hlast _)

theorem keepsRewards (h : s.Flushed height history s') (hkeyed : s.store.Keyed)
    {stakerTx : EntityId} {paid : List Utxo} (hpaid : s.store.KeepsRewards stakerTx paid)
    (hindex : ByIndex (paid ++ s.unflushed.edits.heldRewards stakerTx)) :
    s'.store.KeepsRewards stakerTx (paid ++ s.unflushed.edits.heldRewards stakerTx) :=
  Enumerates.unique ⟨s'.store.scan_ascending _, h.mem_scan_rewards hkeyed hpaid hindex⟩
    ⟨ascending_iff_byIndex.mpr hindex, fun _ => Iff.rfl⟩

/-! ## Chains -/

theorem filesChains (h : s.Flushed height history s') (hfiles : s.store.FilesChains)
    (hfiled : s.unflushed.edits.Filed) : s'.store.FilesChains := by
  intro key value hget hnames
  have hputs : s.putsIn height history .chain = s.unflushed.edits.putsIn .chain := rfl
  rw [h.get?_of_puts hnames rfl, hputs, Option.or_eq_some_iff] at hget
  rcases hget with hput | ⟨_, hkept⟩
  · obtain ⟨supernet, id, chain, hheld, rfl, rfl⟩ :=
      (RecordEdits.mem_chainPuts_iff _).mp (mem_of_lastValue?_eq_some hput)
    obtain ⟨rfl, rfl⟩ := hfiled.chains supernet id chain hheld
    have hencodable := (Bool.and_eq_true_iff.mp h.encodable).2
    exact ⟨chain, rfl, rfl, RecordEdits.fits_heldChain hencodable hheld⟩
  · exact hfiles key value hkept hnames

end Flushed

/-- The chains of a supernet are read one by one. -/
theorem chains_of_filesChains (hkeyed : s.store.Keyed) (hfiles : s.store.FilesChains)
    (supernet : EntityId) :
    ∃ held, s.persisted.chains supernet = .ok held ∧
      ∀ id, held.get? id = (s.store.get? (Key.chain supernet id)).bind Codec.decodeAll := by
  have hscan : ∀ e ∈ s.store.scan (KeySpace.chain.idKey supernet), ∃ chain : ChainRecord,
      e = (Key.chain supernet chain.id, toCanonical chain) ∧ Codec.fits chain = true := by
    rintro ⟨key, value⟩ he
    obtain ⟨hget, hlead⟩ := Store.mem_scan.mp he
    obtain ⟨space, hnames⟩ := hkeyed key value hget
    cases hnames.of_prefix hlead
    obtain ⟨chain, rfl, rfl, hfits⟩ := hfiles key value hget hnames
    cases KeySpace.idKey_prefix_append.mp hlead
    exact ⟨chain, rfl, hfits⟩
  obtain ⟨found, hfound⟩ := exists_mapM_eq_ok (f := fun e : Bytes × Bytes =>
      (ofCanonical e.2 "chain" : Answer ChainRecord)) fun e he => by
    obtain ⟨chain, rfl, hfits⟩ := hscan e he
    exact ⟨chain, ofCanonical_toCanonical hfits _⟩
  refine ⟨.ofList (found.map fun c => (c.id, c)), ?_, fun id => ?_⟩
  · change (s.storedAll (KeySpace.chain.idKey supernet) "chain").map _ = _
    rw [storedAll, hfound]
    rfl
  rw [OrderedMap.ofList, OrderedMap.get?_insertMany, OrderedMap.get?_empty, Option.or_none]
  refine lastValue?_eq_of_graph fun chain => ?_
  rw [List.mem_map, Option.bind_eq_some_iff]
  constructor
  · rintro ⟨_, hmem, heq⟩
    cases heq
    obtain ⟨e, he, hread⟩ := (mem_of_mapM_eq_ok hfound).1 chain hmem
    obtain ⟨chain', rfl, hfits⟩ := hscan e he
    rw [ofCanonical_toCanonical hfits] at hread
    cases hread
    exact ⟨_, (Store.mem_scan.mp he).1, decodeAll_toCanonical hfits⟩
  · rintro ⟨value, hget, hdecode⟩
    have he : (Key.chain supernet id, value) ∈ s.store.scan (KeySpace.chain.idKey supernet) :=
      Store.mem_scan.mpr ⟨hget, List.prefix_append _ _⟩
    obtain ⟨chain', heq, hfits⟩ := hscan _ he
    obtain ⟨hkey, rfl⟩ := Prod.mk.inj heq
    rw [decodeAll_toCanonical hfits] at hdecode
    cases hdecode
    obtain ⟨read, hmem, hread⟩ := (mem_of_mapM_eq_ok hfound).2 _ he
    rw [ofCanonical_toCanonical hfits] at hread
    cases hread
    exact ⟨chain, hmem, by rw [(Key.chain_inj.mp hkey).2]⟩

theorem Flushed.stored_chains (h : s.Flushed height history s') (hkeyed : s.store.Keyed)
    (hfiles : s.store.FilesChains) (hfiled : s.unflushed.edits.Filed) (supernet : EntityId) :
    s'.persisted.chains supernet = (s.persisted.chains supernet).map
      (·.insertMany (s.unflushed.edits.heldChains supernet).entries) := by
  obtain ⟨before, hbefore, hstored⟩ := chains_of_filesChains hkeyed hfiles supernet
  obtain ⟨after, hafter, hstored'⟩ :=
    chains_of_filesChains (h.keyed hkeyed) (h.filesChains hfiles hfiled) supernet
  rw [hbefore, hafter]
  refine congrArg Except.ok (OrderedMap.ext_get? fun id => ?_)
  rw [hstored', h.get?_chain, OrderedMap.get?_insertMany, OrderedMap.lastValue?_entries, hstored]
  cases hheld : (s.unflushed.edits.heldChains supernet).get? id with
  | none => rfl
  | some chain =>
      have hencodable := (Bool.and_eq_true_iff.mp h.encodable).2
      exact decodeAll_toCanonical (RecordEdits.fits_heldChain hencodable hheld)

/-! ## All records -/

/-- A flush stores just the records that were read before it. -/
theorem Flushed.persisted {r : Records} (h : s.Flushed height history s')
    (hedits : s.unflushed.edits.Carries s.persisted r) (hfiled : s.unflushed.edits.Filed)
    (hkeyed : s.store.Keyed) (hfiles : s.store.FilesChains)
    (hrewards : ∀ stakerTx, ∃ paid, s.store.KeepsRewards stakerTx paid ∧
      ByIndex (paid ++ s.unflushed.edits.heldRewards stakerTx)) : s'.persisted = r := by
  have hencodable := (Bool.and_eq_true_iff.mp h.encodable).2
  refine Records.ext ?_ ?_ ?_ ?_ ?_ ?_
  · funext id
    rw [hedits.utxo, h.stored_utxo]
  · funext stakerTx
    obtain ⟨paid, hpaid, hindex⟩ := hrewards stakerTx
    rw [hedits.rewardUtxos, rewardUtxos_of_keepsRewards hpaid,
      rewardUtxos_of_keepsRewards (h.keepsRewards hkeyed hpaid hindex)]
    rfl
  · funext id
    rw [hedits.supernet]
    exact stored_of_get? _ (h.get?_supernet id) (fun _ _ => rfl) _
  · funext id
    rw [hedits.transformation]
    exact stored_of_get? _ (h.get?_transformation id) (fun _ _ => rfl) _
  · funext supernet
    rw [hedits.chains, h.stored_chains hkeyed hfiles hfiled]
  · funext id
    rw [hedits.tx]
    exact stored_of_get? _ (h.get?_tx id) (fun _ hget => RecordEdits.fits_tx hencodable hget) _

/-! ## Stakers -/

namespace Flushed

variable {phase : Phase} {before are : Set Staker}

theorem keepsStakers (h : s.Flushed height history s')
    (hdiffs : (s.registries.get phase).diffs.Net before are) (hbefore : OneValidatorPerSlot before)
    (hare : OneValidatorPerSlot are) (htx : before.InjOn Staker.txId) (htx' : are.InjOn Staker.txId)
    (hstored : s.store.KeepsStakers (KeySpace.staker phase) before) :
    s'.store.KeepsStakers (KeySpace.staker phase) are := by
  refine hdiffs.keepsStakers hbefore hare htx htx' hstored fun id => ?_
  rw [h.get?_of_names (KeySpace.Names.idKey (KeySpace.width_staker phase) id)]
  cases phase <;> rfl

theorem fits (h : s.Flushed height history s')
    (hdiffs : (s.registries.get phase).diffs.Net before are) (hare : OneValidatorPerSlot are)
    (hfits : ∀ t ∈ before, Codec.fits t = true) : ∀ t ∈ are, Codec.fits t = true := by
  obtain ⟨hcurrent, hpending⟩ :=
    Bool.and_eq_true_iff.mp (Bool.and_eq_true_iff.mp h.encodable).1
  refine hdiffs.fits hare ?_ hfits
  cases phase with
  | current => exact hcurrent
  | pending => exact hpending

end Flushed

/-! ## The whole ledger -/

namespace Durable

/-- The outputs of a staking transaction are stored and held back by ascending index. -/
theorem byIndex (h : s.Durable book were c) (stakerTx : EntityId) :
    ∃ paid, s.store.KeepsRewards stakerTx paid ∧
      ByIndex (paid ++ s.unflushed.edits.heldRewards stakerTx) := by
  obtain ⟨paid, hpaid, hnumbered⟩ := h.rewards stakerTx
  exact ⟨paid, hpaid, byIndex_of_numbered hnumbered⟩

theorem persisted_of_flushed (h : s.Durable book were c) (hflushed : s.Flushed height history s') :
    s'.persisted = c.toRecords :=
  hflushed.persisted h.edits h.filed h.keyed h.storedChains h.byIndex

theorem keepsStakers_of_flushed (h : s.Durable book were c) (hproper : c.Proper book)
    (hflushed : s.Flushed height history s') (phase : Phase) :
    s'.store.KeepsStakers (KeySpace.staker phase) (c.stakers phase) :=
  hflushed.keepsStakers (h.diffs phase) (h.slots phase) (hproper.slots phase)
    ((book.injOn phase).mono (h.recorded phase)) ((book.injOn phase).mono (hproper.recorded phase))
    (h.stored phase)

theorem fits_of_flushed (h : s.Durable book were c) (hproper : c.Proper book)
    (hflushed : s.Flushed height history s') (phase : Phase) :
    ∀ t ∈ c.stakers phase, Codec.fits t = true :=
  hflushed.fits (h.diffs phase) (hproper.slots phase) (h.encoded phase)

/-- A flush keeps the contents, and afterwards the stakers in memory are the stored ones. -/
theorem of_flushed (h : s.Durable book were c) (hproper : c.Proper book)
    (hflushed : s.Flushed height history s') : s'.Durable book c.stakers c := by
  have hkeyed := hflushed.keyed h.keyed
  have hpersisted := h.persisted_of_flushed hflushed
  have hstores := h.keepsStakers_of_flushed hproper hflushed
  have hchains := hflushed.filesChains h.storedChains h.filed
  have hrewards : ∀ stakerTx, ∃ paid, s'.store.KeepsRewards stakerTx paid ∧ Numbered paid := by
    intro stakerTx
    obtain ⟨paid, hpaid, hnumbered⟩ := h.rewards stakerTx
    exact ⟨_, hflushed.keepsRewards h.keyed hpaid (byIndex_of_numbered hnumbered), hnumbered⟩
  have hresult := hflushed.result
  have hedits : s'.unflushed.edits = {} := by rw [hflushed.unflushed]
  have hheld : ∀ stakerTx, s'.unflushed.edits.heldRewards stakerTx = [] := by
    intro stakerTx
    rw [hedits]
    rfl
  have hdiffs : ∀ phase, (s'.registries.get phase).diffs = .empty := by
    intro phase
    rw [hflushed.registries]
    rfl
  exact {
    timestamp := by rw [hresult]; exact h.timestamp
    feePool := by rw [hresult]; exact h.feePool
    supply := by rw [hresult]; exact h.supply
    rewardPool := by rw [hresult]; exact h.rewardPool
    registries := fun phase => by
      rw [hflushed.registries]
      exact (h.registries phase).clearDiffs
    edits := by
      rw [hedits, hpersisted]
      exact RecordEdits.Carries.refl _
    filed := by rw [hedits]; exact RecordEdits.Filed.empty
    keyed := hkeyed
    supplies := hflushed.keepsSupplies h.supplies
    rewardPools := hflushed.keepsRewardPools h.rewardPools
    rewards := fun stakerTx => by
      obtain ⟨paid, hpaid, hnumbered⟩ := hrewards stakerTx
      exact ⟨paid, hpaid, by rw [hheld, List.append_nil]; exact hnumbered⟩
    storedChains := hchains
    diffs := fun phase => by rw [hdiffs]; exact SlotDiffs.Net.refl _
    stored := hstores
    recorded := hproper.recorded
    slots := hproper.slots
    encoded := h.fits_of_flushed hproper hflushed }

end Durable

end State

end StakingLedger
