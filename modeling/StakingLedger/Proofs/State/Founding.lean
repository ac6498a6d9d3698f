import StakingLedger.Proofs.State.Genesis
import StakingLedger.Proofs.Store.Computation

/-! # Founding a ledger

A genesis is carried out on a store: it is checked, the root is made up in
memory, and all of it is written as one batch. So it leaves the store alone when
it fails. The validators may be listed in any order, since the rewards are paid
in full whatever is left in the pool, and what is minted for them depends on
their sum only.
-/

namespace StakingLedger

namespace State

variable {faults : Store.Faults} {g : Genesis} {config : StakingConfig} {store store' : Store}
  {s : State}

open StoreM

/-- Flushes a root into the store: the batch is made first, and is then written at once. -/
def flushInto (faults : Store.Faults) (s : State) (height : UInt64) : StoreM State := do
  let batch ← ask fun _ => s.flushBatch height
  writeBatch faults batch
  ask fun store => .ok { s with
    store := store
    height := height
    registries := ⟨s.registries.current.clearDiffs, s.registries.pending.clearDiffs⟩
    unflushed := {} }

/-- A genesis as it is carried out on a store. -/
def found (faults : Store.Faults) (g : Genesis) (config : StakingConfig) : StoreM State := do
  ask fun _ => config.validate
  ask fun _ => g.validate
  let held ← lookUp faults KeySpace.height.bytes
  ask fun _ => if held.isSome then throw (.invariantViolation .ledgerPresent) else pure ()
  let s ← ask fun store => unflushedGenesis store g config
  s.flushInto faults 0

theorem allOrNothing_flushInto (s : State) (height : UInt64) :
    AllOrNothing (s.flushInto faults height) := by
  apply (leavesAlone_ask _).bind
  intro batch
  exact (allOrNothing_writeBatch faults batch).bind fun _ store => ⟨_, rfl⟩

/-- A genesis that fails, for whatever reason, leaves the store alone. -/
theorem allOrNothing_found (faults : Store.Faults) (g : Genesis) (config : StakingConfig) :
    AllOrNothing (found faults g config) := by
  apply (leavesAlone_ask _).bind
  intro _
  apply (leavesAlone_ask _).bind
  intro _
  apply (leavesAlone_lookUp faults _).bind
  intro held
  apply (leavesAlone_ask _).bind
  intro _
  apply (leavesAlone_ask _).bind
  intro s
  exact allOrNothing_flushInto s 0

theorem store_of_unflushedGenesis (h : unflushedGenesis store g config = .ok s) :
    s.store = store := by
  obtain ⟨p, hfold, h⟩ := bind_eq_ok_iff.mp h
  obtain ⟨placed, _, hstate, _⟩ := placements_of_foldlM hfold
  cases h
  rw [store_writeAll, hstate, store_writeAll, store_writeAll]

/-- On a store that does not fail this is the genesis. -/
theorem run_found (g : Genesis) (config : StakingConfig) (store : Store) :
    (found {} g config).run store =
      match fromGenesis store g config with
      | .ok s => (.ok s, s.store)
      | .error e => (.error e, store) := by
  rw [found, fromGenesis, run_ask_bind]
  cases config.validate with
  | error e => rfl
  | ok =>
  dsimp only
  rw [run_ask_bind, bind_ok]
  cases g.validate with
  | error e => rfl
  | ok =>
  dsimp only
  rw [bind_ok, run_bind]
  change (ask _ >>= fun _ => ask _ >>= _).run store = _
  rw [run_ask_bind]
  cases hheld : (store.get? KeySpace.height.bytes).isSome with
  | true => rfl
  | false =>
  change (ask _ >>= _).run store = _
  rw [run_ask_bind]
  cases hgenesis : unflushedGenesis store g config with
  | error e => rfl
  | ok s =>
  have hstore := store_of_unflushedGenesis hgenesis
  change (ask _ >>= _).run store = match s.flush 0 with
    | .ok s => (.ok s, s.store)
    | .error e => (.error e, store)
  rw [run_ask_bind, flush]
  cases s.flushBatch 0 with
  | error e => rfl
  | ok batch =>
  rw [bind_ok, hstore]
  rfl

end State

/-! ## Placing validators in any order -/

namespace State

variable {curve : RewardConfig} {p p' p₁ p₂ : GenesisProgress} {u v : StakerTx}
  {reward reward' : UInt64} {validators validators' : List StakerTx}

/-- Neither the node nor the transaction is the same. -/
def Apart (u v : StakerTx) : Prop := u.nodeId ≠ v.nodeId ∧ u.txId ≠ v.txId

/-- The slot of the transaction has no current validator yet. -/
def Vacant (s : State) (tx : StakerTx) : Prop :=
  s.registries.current.validator? ⟨tx.supernetId, tx.nodeId⟩ = none

/-- Two validators may be placed in either order. -/
theorem placements_comm {s : State} (hapart : Apart u v) (hu : s.Vacant u) (hv : s.Vacant v) :
    (s.writeAll (Placement.mk u reward).writes).writeAll (Placement.mk v reward').writes =
      (s.writeAll (Placement.mk v reward').writes).writeAll (Placement.mk u reward).writes := by
  obtain ⟨hnode, htx⟩ := hapart
  have hregistry : (s.registries.current.putValidator (currentStaker u reward)).putValidator
      (currentStaker v reward') =
        (s.registries.current.putValidator (currentStaker v reward')).putValidator
          (currentStaker u reward) := by
    have hslot : (currentStaker u reward).slot ≠ (currentStaker v reward').slot :=
      fun hslot => hnode (congrArg Slot.nodeId hslot)
    have hkey : (currentStaker u reward).key ≠ (currentStaker v reward').key :=
      fun hkey => htx (congrArg StakerKey.txId hkey)
    exact Registry.putValidator_comm hslot hkey hu hv
  have htxs := OrderedMap.insert_comm s.unflushed.edits.txs
    (⟨u.txId, .addStaker u⟩, TxStatus.committed) (⟨v.txId, .addStaker v⟩, .committed) htx
  change { s with
    registries := ⟨(s.registries.current.putValidator (currentStaker u reward)).putValidator
      (currentStaker v reward'), s.registries.pending⟩
    unflushed := { s.unflushed with
      edits := { s.unflushed.edits with
        txs := (s.unflushed.edits.txs.insert u.txId (⟨u.txId, .addStaker u⟩, .committed)).insert
          v.txId (⟨v.txId, .addStaker v⟩, .committed) } } } = _
  rw [hregistry, htxs]
  rfl

/-- What it takes to place a validator, and what comes of it. -/
structure Places (curve : RewardConfig) (p : GenesisProgress) (tx : StakerTx) (reward : UInt64)
    (p' : GenesisProgress) : Prop where
  calculated : curve.reward tx.duration tx.startTime tx.weight = .ok reward
  window : Staker.checkWindow tx = .ok ()
  pool : p'.pool.toNat = p.pool.toNat - reward.toNat
  supply : p'.supply.toNat = p.supply.toNat + (reward.toNat - p.pool.toNat)
  state : p'.state = p.state.writeAll (Placement.mk tx reward).writes

theorem addGenesisValidator_eq_ok_iff :
    addGenesisValidator curve p u = .ok p' ↔ ∃ reward, Places curve p u reward p' := by
  constructor
  · intro h
    obtain ⟨reward, hcalculated, h⟩ := bind_eq_ok_iff.mp h
    obtain ⟨funding, hfunding, h⟩ := bind_eq_ok_iff.mp h
    obtain ⟨staker, hstaker, h⟩ := bind_eq_ok_iff.mp h
    obtain ⟨hcredited, hpool, hsupply⟩ := fundReward_primary_eq_ok_iff.mp hfunding
    obtain ⟨⟨⟩, hwindow, _⟩ := bind_eq_ok_iff.mp hstaker
    obtain rfl := eq_currentStaker hstaker
    cases h
    exact ⟨reward, hcalculated, hwindow, hpool, hsupply, hcredited ▸ rfl⟩
  · rintro ⟨reward, hcalculated, hwindow, hpool, hsupply, hstate⟩
    have hfunding : fundReward .primaryNetwork reward p.pool p.supply =
        .ok ⟨reward, p'.pool, p'.supply⟩ := fundReward_primary_eq_ok_iff.mpr ⟨rfl, hpool, hsupply⟩
    refine bind_eq_ok_iff.mpr ⟨reward, hcalculated, bind_eq_ok_iff.mpr ⟨_, hfunding, ?_⟩⟩
    refine bind_eq_ok_iff.mpr ⟨currentStaker u reward, ?_, ?_⟩
    · exact bind_eq_ok_iff.mpr ⟨(), hwindow, rfl⟩
    · obtain ⟨state, supply, pool⟩ := p'
      cases hstate
      rfl

namespace Places

theorem vacant (h : Places curve p u reward p') (hapart : Apart u v) (hv : p.state.Vacant v) :
    p'.state.Vacant v := by
  have hslot : (⟨v.supernetId, v.nodeId⟩ : Slot) ≠ (currentStaker u reward).slot :=
    fun hslot => hapart.1 (congrArg Slot.nodeId hslot).symm
  rw [Vacant, h.state]
  change (p.state.registries.current.putValidator (currentStaker u reward)).validator? _ = none
  rw [Registry.validator?, Registry.slotStakers_putValidator_ne _ _ hslot]
  exact hv

/-- Two validators that are placed one after the other may change places: the pool pays for the
same sum, and the same rest is minted. -/
theorem swap (h : Places curve p u reward p₁) (h' : Places curve p₁ v reward' p₂)
    (hapart : Apart u v) (hu : p.state.Vacant u) (hv : p.state.Vacant v) :
    ∃ p₁', Places curve p v reward' p₁' ∧ Places curve p₁' u reward p₂ := by
  have hpool := h.pool
  have hsupply := h.supply
  have hpool' := h'.pool
  have hsupply' := h'.supply
  have hsize := p₂.supply.toNat_lt_size
  have hpoolSize := p.pool.toNat_lt_size
  have hsupplyFits : p.supply.toNat + (reward'.toNat - p.pool.toNat) < UInt64.size := by omega
  have hpoolFits : p.pool.toNat - reward'.toNat < UInt64.size := by omega
  refine ⟨⟨p.state.writeAll (Placement.mk v reward').writes,
    .ofNat (p.supply.toNat + (reward'.toNat - p.pool.toNat)),
    .ofNat (p.pool.toNat - reward'.toNat)⟩, ⟨h'.calculated, h'.window, ?_, ?_, rfl⟩,
    ⟨h.calculated, h.window, ?_, ?_, ?_⟩⟩
  · exact UInt64.toNat_ofNat_of_lt' hpoolFits
  · exact UInt64.toNat_ofNat_of_lt' hsupplyFits
  · rw [UInt64.toNat_ofNat_of_lt' hpoolFits]
    omega
  · rw [UInt64.toNat_ofNat_of_lt' hpoolFits, UInt64.toNat_ofNat_of_lt' hsupplyFits]
    omega
  · rw [h'.state, h.state]
    exact placements_comm hapart hu hv

end Places

/-- The validators of a genesis may be placed in any order. -/
theorem foldlM_of_perm (hperm : validators.Perm validators') (hapart : validators.Pairwise Apart)
    (hvacant : ∀ tx ∈ validators, p.state.Vacant tx)
    (h : validators.foldlM (addGenesisValidator curve) p = .ok p') :
    validators'.foldlM (addGenesisValidator curve) p = .ok p' := by
  -- Two neighbours may change places, as neither takes the slot or the transaction of the other.
  induction hperm generalizing p with
  | nil => exact h
  | cons tx _ ih =>
      obtain ⟨hhead, htail⟩ := List.pairwise_cons.mp hapart
      rw [List.foldlM_cons] at h ⊢
      obtain ⟨p₁, hplaced, hrest⟩ := bind_eq_ok_iff.mp h
      obtain ⟨reward, hplaces⟩ := addGenesisValidator_eq_ok_iff.mp hplaced
      refine bind_eq_ok_iff.mpr ⟨p₁, hplaced, ih htail (fun v hv => ?_) hrest⟩
      exact hplaces.vacant (hhead v hv) (hvacant v (List.mem_cons_of_mem _ hv))
  | swap v u rest =>
      obtain ⟨hhead, _⟩ := List.pairwise_cons.mp hapart
      simp only [List.foldlM_cons] at h ⊢
      obtain ⟨p₁, hfirst, h⟩ := bind_eq_ok_iff.mp h
      obtain ⟨p₂, hsecond, hrest⟩ := bind_eq_ok_iff.mp h
      obtain ⟨reward, hplaces⟩ := addGenesisValidator_eq_ok_iff.mp hfirst
      obtain ⟨reward', hplaces'⟩ := addGenesisValidator_eq_ok_iff.mp hsecond
      obtain ⟨p₁', hv, hu⟩ := hplaces.swap hplaces' (hhead v List.mem_cons_self)
        (hvacant u List.mem_cons_self) (hvacant v (List.mem_cons_of_mem _ List.mem_cons_self))
      exact bind_eq_ok_iff.mpr ⟨p₁', addGenesisValidator_eq_ok_iff.mpr ⟨_, hv⟩,
        bind_eq_ok_iff.mpr ⟨p₂, addGenesisValidator_eq_ok_iff.mpr ⟨_, hu⟩, hrest⟩⟩
  | trans hperm _ ih ih' =>
      have hsymm : ∀ {u v : StakerTx}, Apart u v → Apart v u := fun h => ⟨h.1.symm, h.2.symm⟩
      exact ih' ((hperm.pairwise_iff hsymm).mp hapart)
        (fun tx htx => hvacant tx (hperm.mem_iff.mpr htx)) (ih hapart hvacant h)

end State

/-! ## The order of the genesis validators -/

/-- The genesis values differ in the order of their validators only. -/
structure Genesis.Reorders (g g' : Genesis) : Prop where
  perm : g.validators.Perm g'.validators
  same : { g with validators := g'.validators } = g'

theorem Genesis.Reorders.symm {g g' : Genesis} (h : g.Reorders g') : g'.Reorders g where
  perm := h.perm.symm
  same := by
    rw [← h.same]

namespace State

open StoreM

variable {faults : Store.Faults} {g g' : Genesis} {config : StakingConfig}
  {store store' : Store} {s : State}

theorem unflushedGenesis_of_reorders (h : g.Reorders g') (hvalid : g.validate = .ok ())
    (hs : unflushedGenesis store g config = .ok s) :
    unflushedGenesis store g' config = .ok s := by
  obtain ⟨p, hfold, hs⟩ := bind_eq_ok_iff.mp hs
  have hvacant : ∀ tx ∈ g.validators,
      (({ store := store } : State).writeAll [.setTimestamp g.timestamp, .setFeePool 0]).Vacant tx :=
    fun _ _ => rfl
  have hfold' := foldlM_of_perm h.perm (checked_of_checkValidators hvalid).apart hvacant hfold
  rw [← h.same]
  exact bind_eq_ok_iff.mpr ⟨p, hfold', hs⟩

theorem run_found_of_reorders (h : g.Reorders g') (hvalid : g.validate = .ok ())
    (hvalid' : g'.validate = .ok ()) (hrun : (found faults g config).run store = (.ok s, store')) :
    (found faults g' config).run store = (.ok s, store') := by
  obtain ⟨⟨⟩, hconfig, hrun⟩ := run_ask_bind_eq_ok_iff.mp hrun
  obtain ⟨⟨⟩, _, hrun⟩ := run_ask_bind_eq_ok_iff.mp hrun
  obtain ⟨held, between, hlookUp, hrun⟩ := run_bind_eq_ok_iff.mp hrun
  obtain ⟨⟨⟩, habsent, hrun⟩ := run_ask_bind_eq_ok_iff.mp hrun
  obtain ⟨s₀, hs₀, hflush⟩ := run_ask_bind_eq_ok_iff.mp hrun
  refine run_ask_bind_eq_ok_iff.mpr ⟨(), hconfig, run_ask_bind_eq_ok_iff.mpr ⟨(), hvalid', ?_⟩⟩
  refine run_bind_eq_ok_iff.mpr ⟨held, between, hlookUp, ?_⟩
  refine run_ask_bind_eq_ok_iff.mpr ⟨(), habsent, run_ask_bind_eq_ok_iff.mpr ⟨s₀, ?_, hflush⟩⟩
  exact unflushedGenesis_of_reorders h hvalid hs₀

/-- A genesis that fails, be it for a fault of the store, leaves the store as it was. Of two
accepted genesis values that list the same validators in another order both succeed or neither
does, and they come to the same root and the same store. -/
theorem found_in_any_order (faults : Store.Faults) (config : StakingConfig) :
    (∀ g store e store', (found faults g config).run store = (.error e, store') →
      store' = store) ∧
    ∀ g g', g.validate = .ok () → g'.validate = .ok () → g.Reorders g' → ∀ store s store',
      ((found faults g config).run store = (.ok s, store') ↔
        (found faults g' config).run store = (.ok s, store')) := by
  refine ⟨fun g => allOrNothing_found faults g config, ?_⟩
  intro g g' hvalid hvalid' h store s store'
  exact ⟨run_found_of_reorders h hvalid hvalid', run_found_of_reorders h.symm hvalid' hvalid⟩

end State

/-- Another validator of the primary network. -/
def duoTx : StakerTx :=
  { soloTx with txId := .ofWord 2, nodeId := ⟨1 :: List.replicate 19 0, rfl⟩ }

/-- Two validators and a pool that pays for the reward of one of them. -/
def Genesis.duo : Genesis :=
  { timestamp := 5, initialSupply := 10, initialRewardPool := 1, validators := [soloTx, duoTx] }

/-- The two validators the other way round. -/
def Genesis.duoReversed : Genesis := { Genesis.duo with validators := [duoTx, soloTx] }

/-- The root that this genesis makes in an empty store. -/
def State.duo : State :=
  match State.fromGenesis {} .duo {} with
  | .ok s => s
  | .error _ => default

/-- The two orders come to the same; a second genesis is refused and leaves the store as it is. -/
theorem State.found_in_any_order_duo :
    (found {} .duo {}).run {} = (.ok duo, duo.store) ∧
      (found {} .duoReversed {}).run {} = (.ok duo, duo.store) ∧
      ∃ e store', (found {} .solo {}).run duo.store = (.error e, store') ∧ store' = duo.store := by
  have hfirst : fromGenesis {} .duo {} = .ok duo := by decide +kernel
  have hsecond : fromGenesis duo.store .solo {} = .error (.invariantViolation .ledgerPresent) := by
    decide +kernel
  have hrun : (found {} .duo {}).run {} = (.ok duo, duo.store) := by
    rw [run_found, hfirst]
  have hagain : (found {} .solo {}).run duo.store =
      (.error (.invariantViolation .ledgerPresent), duo.store) := by
    rw [run_found, hsecond]
  obtain ⟨hkeeps, hsame⟩ := found_in_any_order {} {}
  refine ⟨hrun, ?_, _, _, hagain, hkeeps _ _ _ _ hagain⟩
  exact (hsame .duo .duoReversed (by decide +kernel) (by decide +kernel)
    ⟨.swap _ _ _, rfl⟩ {} duo duo.store).mp hrun

end StakingLedger
