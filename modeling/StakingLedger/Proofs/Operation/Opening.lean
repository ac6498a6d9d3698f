import StakingLedger.Proofs.Operation.Upheld
import StakingLedger.Proofs.State.Genesis

/-! # The ledger of a genesis

In an empty store no staker, transaction or output is recorded. A genesis places
its validators on the primary network one by one and then sets its balances, so
it upholds contents with these validators as the current stakers and without a
pending staker or a transformation.
-/

namespace StakingLedger

variable {g : Genesis} {config : StakingConfig} {l : Ledger} {c c' : Contents} {s : State}
  {writes : List Write} {p q : Placement} {placed : List Placement}

/-! ## The empty root -/

/-- The contents of a root over an empty store. -/
def Contents.fresh : Contents := ({ store := {} } : State).settled fun _ => ∅

theorem Ledger.upholds_fresh : (root { store := {} }).Upholds .fresh := by
  refine ⟨⟨fun _ => ∅, fun _ => Set.injOn_empty _⟩,
    ⟨State.proper_fresh _, _, State.durable_fresh _⟩, ?_⟩
  exact {
    answered := fun _ => ⟨none, rfl⟩
    staking := fun _ _ hs => absurd hs (Set.notMem_empty _)
    unpromoted := fun _ hs => absurd hs (Set.notMem_empty _)
    vacant := fun _ hs => absurd hs (Set.notMem_empty _)
    unrewarded := fun _ hs => absurd hs (Set.notMem_empty _)
    numbered := fun _ => ⟨[], rfl, fun _ _ hget => by cases hget⟩
    unpaid := fun _ _ => rfl }

/-! ## Writes on a root -/

theorem Ledger.writeAll_root (s : State) (writes : List Write) :
    (root s).writeAll writes = root (s.writeAll writes) := by
  induction writes generalizing s with
  | nil => rfl
  | cons w rest ih => exact ih (s.write w)

/-- A root takes chains that are registered already. -/
theorem Ledger.Upholds.plains_root (h : (root s).Upholds c) (hplain : ∀ w ∈ writes, w.IsPlain) :
    (root (s.writeAll writes)).Upholds (c.writeAll writes) := by
  obtain ⟨book, ⟨hproper, flushed, hdurable⟩, hstaked⟩ := h
  obtain ⟨hstakers, htx, hrewards⟩ := Contents.same_of_plains hplain c
  have hallowed : c.Accepts (Contents.Allows book) writes :=
    Contents.accepts_of_forall fun w hw c => by
      have hw := hplain w hw
      cases w <;> trivial
  have hnext : c.Accepts Contents.NextOutput writes :=
    Contents.accepts_of_forall fun w hw c => by
      have hw := hplain w hw
      cases w <;> trivial
  exact ⟨book, ⟨hproper.writeAll hallowed, flushed, hdurable.writeAll hproper hallowed hnext⟩,
    hstaked.of_same hstakers htx hrewards⟩

theorem Ledger.Upholds.flush (h : (root s).Upholds c) {s' : State} (height : UInt64)
    (hflush : s.flush height = .ok s') : (root s').Upholds c := by
  obtain ⟨book, ⟨hproper, flushed, hdurable⟩, hstaked⟩ := h
  obtain ⟨history, hflushed⟩ := State.flushed_of_flush hflush
  exact ⟨book, ⟨hproper, _, hdurable.of_flushed hproper hflushed⟩, hstaked⟩

/-! ## Placing validators -/

/-- A validator of a genesis, still to be placed. -/
structure Placement.Fits (p : Placement) (c : Contents) : Prop where
  kind : p.tx.kind = .primaryValidator
  primary : p.tx.supernetId = .primaryNetwork
  unrecorded : c.tx p.tx.txId = .ok none
  free : ∀ phase, ∀ s ∈ c.stakers phase, s.nodeId ≠ p.tx.nodeId

theorem Placement.writes_eq (hkind : p.tx.kind = .primaryValidator) :
    p.writes = [.put .current p.staker, .addTx ⟨p.tx.txId, .addStaker p.tx⟩ .committed] := by
  have hv : p.staker.isValidator = true := by
    change (Priority.current p.tx.kind).isValidator = true
    rw [hkind]
    rfl
  rw [writes, Write.put, if_pos hv]

theorem Placement.Fits.enrolls (h : p.Fits c) :
    c.Enrolls ⟨p.tx.txId, .addStaker p.tx⟩ p.staker where
  unrecorded := h.unrecorded
  txId := rfl
  staked := rfl
  free _ phase := occupant_eq_none_iff.mpr fun t ht _ hslot =>
    h.free phase t ht (congrArg Slot.nodeId hslot)

/-- Validators that can be placed one after the other. -/
structure Contents.Placeable (c : Contents) (placed : List Placement) : Prop where
  fits : ∀ p ∈ placed, p.Fits c
  apart : placed.Pairwise fun p q => p.tx.nodeId ≠ q.tx.nodeId ∧ p.tx.txId ≠ q.tx.txId

/-- The other validators still fit once the first one is placed. -/
theorem Contents.Placeable.rest (h : c.Placeable (p :: placed)) :
    (c.writeAll p.writes).Placeable placed where
  fits q hq := by
    obtain ⟨hnode, htx⟩ := (List.pairwise_cons.mp h.apart).1 q hq
    have hfits := h.fits q (List.mem_cons_of_mem _ hq)
    rw [Placement.writes_eq (h.fits p List.mem_cons_self).kind, writeAll_enroll]
    refine ⟨hfits.kind, hfits.primary, ?_, fun phase s hs => ?_⟩
    · exact (Function.update_of_ne htx.symm _ _).trans hfits.unrecorded
    · rcases mem_stakers_insert.mp hs with ⟨_, rfl⟩ | hs
      · exact hnode
      · exact hfits.free phase s hs
  apart := (List.pairwise_cons.mp h.apart).2

theorem Ledger.Upholds.place (h : l.Upholds c) (hp : p.Fits c) :
    (l.writeAll p.writes).Upholds (c.writeAll p.writes) := by
  have hpermissioned : p.staker.priority.isPermissioned = false := by
    change (Priority.current p.tx.kind).isPermissioned = false
    rw [hp.kind]
    rfl
  rw [Placement.writes_eq hp.kind]
  exact h.enroll hp.enrolls
    (fun _ htrue => absurd (hpermissioned.symm.trans htrue) Bool.false_ne_true) .committed

theorem Ledger.Upholds.placeAll (h : l.Upholds c) (hplaceable : c.Placeable placed) :
    (l.writeAll (placed.flatMap Placement.writes)).Upholds
      (c.writeAll (placed.flatMap Placement.writes)) := by
  induction placed generalizing l c with
  | nil => exact h
  | cons p rest ih =>
      rw [List.flatMap_cons, Ledger.writeAll_append, Contents.writeAll_append]
      exact ih (h.place (hplaceable.fits p List.mem_cons_self)) hplaceable.rest

/-! ## What a genesis makes -/

/-- Time, balances and transformations. -/
def Contents.figures (c : Contents) :=
  (c.timestamp, c.supply, c.rewardPool, c.transformation)

theorem Placement.figures_write {w : Write} (hw : w ∈ placed.flatMap Placement.writes)
    (c : Contents) : (c.write w).figures = c.figures := by
  obtain ⟨p, _, hw⟩ := List.mem_flatMap.mp hw
  rcases List.mem_pair.mp hw with rfl | rfl <;> rfl

namespace State

theorem plain_clock (g : Genesis) :
    ∀ w ∈ ([.setTimestamp g.timestamp, .setFeePool 0] : List Write), w.IsPlain := by
  simp [Write.IsPlain]

theorem plain_balances (supply pool : UInt64) : ∀ w ∈ ([.setSupply .primaryNetwork supply,
    .setRewardPool .primaryNetwork pool] : List Write), w.IsPlain := by
  simp [Write.IsPlain]

theorem plain_of_genesisRecords {w : Write}
    (hw : w ∈ g.utxos.map .addUtxo ++ g.chains.map .addChain) :
    w.IsPlain ∧ ∀ c : Contents, (c.write w).figures = c.figures := by
  rcases List.mem_append.mp hw with hw | hw
  · obtain ⟨utxo, _, rfl⟩ := List.mem_map.mp hw
    exact ⟨trivial, fun _ => rfl⟩
  · obtain ⟨chain, _, rfl⟩ := List.mem_map.mp hw
    exact ⟨trivial, fun _ => rfl⟩

/-- The rules of the primary network were checked. -/
theorem validate_of_fromGenesis {store : Store} (h : fromGenesis store g config = .ok s) :
    config.validate = .ok () := by
  obtain ⟨_, hvalid, _⟩ := bind_eq_ok_iff.mp h
  exact hvalid

namespace GenesisRecord

/-- The contents that a genesis writes into an empty store. -/
def contents (r : GenesisRecord {} g s) : Contents :=
  Contents.fresh.writeAll (genesisWrites g r.placed r.supply r.pool)

theorem contents_eq (r : GenesisRecord {} g s) :
    r.contents = (((Contents.fresh.writeAll [.setTimestamp g.timestamp, .setFeePool 0]).writeAll
      (r.placed.flatMap Placement.writes)).writeAll
        [.setSupply .primaryNetwork r.supply, .setRewardPool .primaryNetwork r.pool]).writeAll
          (g.utxos.map .addUtxo ++ g.chains.map .addChain) := by
  simp only [contents, genesisWrites, Contents.writeAll, List.foldl_append]

theorem figures_contents (r : GenesisRecord {} g s) :
    r.contents.figures = (g.timestamp,
      Function.update Contents.fresh.supply .primaryNetwork (.ok r.supply),
      Function.update Contents.fresh.rewardPool .primaryNetwork (.ok r.pool),
      fun _ => .ok none) := by
  have hplaced := Contents.get_writeAll
    (c := Contents.fresh.writeAll [.setTimestamp g.timestamp, .setFeePool 0])
    Contents.figures fun w (hw : w ∈ r.placed.flatMap Placement.writes) c =>
      Placement.figures_write hw c
  simp only [Contents.figures, Prod.mk.injEq] at hplaced
  obtain ⟨htime, hsupply, hpool, htransformation⟩ := hplaced
  rw [contents_eq, Contents.get_writeAll Contents.figures fun w hw c =>
    (plain_of_genesisRecords (g := g) hw).2 c]
  simp only [Contents.figures, Prod.mk.injEq]
  exact ⟨htime, congrArg (Function.update · _ _) hsupply, congrArg (Function.update · _ _) hpool,
    htransformation⟩

theorem stakers_contents (r : GenesisRecord {} g s) : r.contents.stakers = r.stakers :=
  (r.accepts (Set.Subset.refl (r.book.records .current)) (c := Contents.fresh) rfl).2

theorem placeable (r : GenesisRecord {} g s) :
    (Contents.fresh.writeAll [.setTimestamp g.timestamp, .setFeePool 0]).Placeable r.placed where
  fits _ hp := ⟨(r.kind hp).1, (r.kind hp).2, rfl, fun _ _ hs => absurd hs (Set.notMem_empty _)⟩
  apart := r.apart

/-- Before its flush the root upholds what the genesis wrote. -/
theorem upholds_unflushed (r : GenesisRecord {} g s) :
    (Ledger.root (writeAll { store := {} } (genesisWrites g r.placed r.supply r.pool))).Upholds
      r.contents := by
  have hplaced := (Ledger.upholds_fresh.plains_root (plain_clock g)).placeAll r.placeable
  rw [Ledger.writeAll_root] at hplaced
  have hrecords := (hplaced.plains_root (plain_balances r.supply r.pool)).plains_root fun w hw =>
    (plain_of_genesisRecords (g := g) hw).1
  rw [contents_eq]
  simpa only [genesisWrites, writeAll, List.foldl_append] using hrecords

/-- So does the flushed root. -/
theorem upholds_contents (r : GenesisRecord {} g s) : (Ledger.root s).Upholds r.contents :=
  r.upholds_unflushed.flush 0 r.flushed

end GenesisRecord

end State

end StakingLedger
