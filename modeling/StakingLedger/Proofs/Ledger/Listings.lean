import StakingLedger.Proofs.Ledger.LayerRefinement
import StakingLedger.Proofs.State.Filing
import StakingLedger.Proofs.State.History

/-! # Records through folds and commits

The records that a ledger tells stay what they are when its layers are folded down, when the root
is committed and when its store is loaded, whatever happens to the stakers meanwhile. Two kinds of
records are read in lists, and these have to be written with care: a layer registers chains that
are not registered below it, and reward outputs are recorded by ascending index.
-/

namespace StakingLedger

variable {r : Records} {c : Contents} {w : Write}

/-- Balances and stakers are nothing to the records. -/
theorem Records.exists_contents (r : Records) : ∃ c : Contents, c.toRecords = r :=
  ⟨{ r with
      timestamp := 0, feePool := 0, supply := fun _ => .ok 0, rewardPool := fun _ => .ok 0
      stakers := fun _ => ∅ }, rfl⟩

/-- A reward output is recorded after those of smaller index. -/
def Contents.RecordsNext (c : Contents) : Write → Prop
  | .addRewardUtxo stakerTx utxo => ∀ paid, c.rewardUtxos stakerTx = .ok paid →
    ∀ u ∈ paid, u.id.outputIndex < utxo.id.outputIndex
  | _ => True

theorem Records.OrdersRewards.write (h : c.toRecords.OrdersRewards) (hnext : c.RecordsNext w) :
    (c.write w).toRecords.OrdersRewards := by
  cases w with
  | addRewardUtxo stakerTx utxo =>
      intro stakerTx'
      obtain ⟨paid, hpaid, hindex⟩ := h stakerTx'
      by_cases heq : stakerTx' = stakerTx
      · subst heq
        refine ⟨paid ++ [utxo], ?_, List.pairwise_append.mpr
          ⟨hindex, List.pairwise_singleton _ _, fun u hu v hv => ?_⟩⟩
        · change Function.update c.rewardUtxos stakerTx' _ stakerTx' = _
          rw [Function.update_self, hpaid]
          rfl
        · rw [List.mem_singleton.mp hv]
          exact hnext paid hpaid u hu
      · exact ⟨paid, (Function.update_of_ne heq _ _).trans hpaid, hindex⟩
  | _ => exact h

namespace Ledger

variable {l : Ledger}

/-- What the ledger tells of records: the root archives its own, and each layer adds to those
below, with chains that are new to them. -/
def Archives : Ledger → Records → Prop
  | .root s, r => s.Archives r
  | .layer parent _ reachable ch, r =>
    reachable = true ∧ ch.edits.Filed ∧ ∃ below, parent.Archives below ∧ ch.edits.Carries below r ∧
      ∀ supernet held, below.chains supernet = .ok held →
        ∀ id, (ch.edits.heldChains supernet).contains id = true → held.get? id = none

/-- A chain that is added is not registered below the top level. -/
def RegistersNewBelow (l : Ledger) (w : Write) : Prop :=
  match l with
  | root _ => True
  | layer parent _ _ _ => parent.view.RegistersNewChain w

/-- A reward output is recorded after those of smaller index, as far as the writer can read. -/
def RecordsNext (l : Ledger) : Write → Prop
  | .addRewardUtxo stakerTx utxo => ∀ paid, l.rewardUtxos stakerTx = .ok paid →
    ∀ u ∈ paid, u.id.outputIndex < utxo.id.outputIndex
  | _ => True

namespace Archives

theorem chains (h : l.Archives r) (supernet : EntityId) :
    ∃ held, r.chains supernet = .ok held ∧
      ∀ id chain, held.get? id = some chain → chain.id = id := by
  induction l generalizing r with
  | root s => exact State.Archives.chains h supernet
  | layer parent id reachable ch ih =>
      obtain ⟨_, hfiled, below, hparent, hedits, _⟩ := h
      exact hedits.exists_chains hfiled (ih hparent)

theorem keyed (h : l.Archives r) {supernet : EntityId} {held : OrderedMap EntityId ChainRecord}
    (hheld : r.chains supernet = .ok held) (id : EntityId) (chain : ChainRecord)
    (hget : held.get? id = some chain) : chain.id = id := by
  obtain ⟨held', hheld', hkeyed⟩ := h.chains supernet
  cases hheld.symm.trans hheld'
  exact hkeyed id chain hget

theorem tells (h : l.Archives r) : l.view.Tells r := by
  induction l generalizing r with
  | root s => exact State.tells_of_carries h.edits
  | layer parent id reachable ch ih =>
      obtain ⟨rfl, hfiled, below, hparent, hedits, hnew⟩ := h
      exact (ih hparent).layer hedits hfiled (fun _ _ => hparent.keyed) hnew

theorem opened (h : l.Archives r) (id : EntityId) :
    (layer l id true (.untouched l.timestamp l.feePool)).Archives r :=
  ⟨rfl, .empty, r, h, RecordEdits.Carries.refl r, fun _ _ _ _ hcontains => by cases hcontains⟩

theorem recordsNext (h : l.Archives c.toRecords) (hnext : l.RecordsNext w) : c.RecordsNext w := by
  cases w with
  | addRewardUtxo stakerTx utxo =>
      intro paid hpaid
      exact hnext paid ((congrFun h.tells.rewardUtxos stakerTx).trans hpaid)
  | _ => trivial

/-! ## Writes and folds -/

theorem write (h : l.Archives c.toRecords) (hnew : l.RegistersNewBelow w) :
    (l.write w).Archives (c.write w).toRecords := by
  cases l with
  | root s => exact State.Archives.write h w
  | layer parent id reachable ch =>
      obtain ⟨hreachable, hfiled, below, hparent, hedits, hchains⟩ := h
      refine ⟨hreachable, ?_, below, hparent, ?_, fun supernet held hheld id => ?_⟩
      · rw [ch.edits_write]
        exact hfiled.record w
      · rw [ch.edits_write]
        exact hedits.record w
      · have hbefore := hchains supernet held hheld id
        cases w with
        | addChain chain =>
            refine RecordEdits.get?_eq_none_of_addChain hbefore ?_
            rintro rfl
            exact hparent.tells.get?_chain_eq_none hheld (hparent.keyed hheld) hnew
        | _ => exact hbefore

/-- A chain that is new to a ledger is new below its top level. -/
theorem registersNewBelow (h : l.Archives c.toRecords) (hnew : c.RegistersNewChain w) :
    l.RegistersNewBelow w := by
  cases l with
  | root s => trivial
  | layer parent id reachable ch =>
      obtain ⟨_, _, below, hparent, hedits, _⟩ := h
      cases w with
      | addChain chain =>
          intro listed hlisted x hx hid
          obtain ⟨held, hheld, hkeyed⟩ := hparent.chains chain.supernetId
          have hread := hparent.tells.chains chain.supernetId
          rw [hlisted, hheld] at hread
          cases hread
          obtain ⟨id', hget⟩ := OrderedMap.mem_values_iff.mp hx
          rw [← hkeyed id' x hget, hid] at hget
          have habove := hedits.chains chain.supernetId
          rw [hheld] at habove
          have hfree := hnew _ habove
          rw [OrderedMap.get?_insertMany, Option.or_eq_none_iff, hget] at hfree
          cases hfree.2
      | _ => trivial

theorem writeAll {writes : List Write} (h : l.Archives c.toRecords)
    (hnew : c.Accepts Contents.RegistersNewChain writes) :
    (l.writeAll writes).Archives (c.writeAll writes).toRecords := by
  induction writes generalizing l c with
  | nil => exact h
  | cons w rest ih => exact ih (h.write (h.registersNewBelow hnew.1)) hnew.2

/-- Folding a layer changes no record. -/
theorem fold {parent : Ledger} {id : EntityId} {reachable : Bool} {ch : Changes}
    (h : (layer parent id reachable ch).Archives r) : (parent.fold ch).Archives r := by
  obtain ⟨_, hfiled, below, hparent, hedits, hnew⟩ := h
  obtain ⟨c, rfl⟩ := below.exists_contents
  have hwrites : ch.writes = ch.balanceWrites ++ ch.registries.current.writes .current ++
      ch.registries.pending.writes .pending ++ ch.edits.replay := rfl
  -- the writes of time, balances and stakers come first and leave the records as they are
  have hother : ∀ w ∈ ch.balanceWrites ++ ch.registries.current.writes .current ++
      ch.registries.pending.writes .pending, ∀ c : Contents,
      (c.write w).toRecords = c.toRecords := fun w hw =>
    Contents.toRecords_write (Changes.not_isRecord_of_mem_front hw)
  have hfront := Contents.get_writeAll (c := c) (·.toRecords) hother
  have hresult : (c.writeAll ch.writes).toRecords = r := by
    rw [hwrites, Contents.writeAll_append,
      RecordEdits.writeAll_replay (hfront.symm ▸ hedits) hfiled]
  have haccepts : c.Accepts Contents.RegistersNewChain ch.writes := by
    rw [hwrites]
    refine Contents.accepts_append.mpr ⟨Contents.accepts_of_forall fun w hw c =>
      Contents.registersNewChain_of_registersNothing (Changes.registersNothing_of_mem_front hw) c,
      RecordEdits.accepts_replay hfiled ?_⟩
    exact (congrArg Records.chains hfront).symm ▸ hnew
  rw [← hresult]
  exact hparent.writeAll haccepts

theorem collapsed (h : l.Archives r) : l.collapse.Archives r :=
  collapse_induction (fun l => l.Archives r) Archives.fold h

end Archives

/-! ## All ledgers -/

/-- The ledgers that there can be: a root made by a genesis or loaded, and layers opened on top,
written to and folded from the top; a root on its own may be committed. Layers register chains
that are new below them, and reward outputs are recorded by ascending index. -/
inductive Appended : Ledger → Prop
  | genesis {g : Genesis} {config : StakingConfig} {s : State}
    (h : State.fromGenesis {} g config = .ok s) : Appended (.root s)
  /-- The store of a loaded root has its records under their own keys. -/
  | loaded {store : Store} {s : State} (h : State.load store = .ok s)
    (hfiles : store.FilesRecords) : Appended (.root s)
  | opened {l l' : Ledger} {versions : Versions} {block : EntityId} (h : Appended l)
    (hparent : versions.resolve? block = some l) (hopen : versions.openLayer block = .ok l') :
    Appended l'
  | written {l : Ledger} {w : Write} (h : Appended l) (hnew : l.RegistersNewBelow w)
    (hnext : l.RecordsNext w) : Appended (l.write w)
  | folded {parent : Ledger} {id : EntityId} {reachable : Bool} {changes : Changes}
    (h : Appended (.layer parent id reachable changes)) : Appended (parent.fold changes)
  | committed {s s' : State} {height : UInt64} (h : Appended (.root s))
    (hcommit : s.commit height = .ok s') : Appended (.root s')

theorem Appended.archives (h : Appended l) : ∃ r, l.Archives r ∧ r.OrdersRewards := by
  induction h with
  | genesis h => exact State.archives_of_fromGenesis h
  | loaded h hfiles => exact ⟨_, State.archives_of_load h hfiles⟩
  | opened _ hparent hopen ih =>
      obtain ⟨r, hl, horder⟩ := ih
      rw [Versions.openLayer, hparent] at hopen
      cases hopen
      exact ⟨r, hl.opened _, horder⟩
  | written _ hnew hnext ih =>
      obtain ⟨r, hl, horder⟩ := ih
      obtain ⟨c, rfl⟩ := r.exists_contents
      exact ⟨_, hl.write hnew, horder.write (hl.recordsNext hnext)⟩
  | folded _ ih =>
      obtain ⟨r, hl, horder⟩ := ih
      exact ⟨r, hl.fold, horder⟩
  | committed _ hcommit ih =>
      obtain ⟨r, hl, horder⟩ := ih
      obtain ⟨_, hflushed⟩ := State.flushed_of_flush (State.flush_of_commit hcommit).1
      exact ⟨r, State.Archives.of_flushed hl horder hflushed, horder⟩

/-- The two ledgers answer every read of a record alike. -/
def SameRecords (l l' : Ledger) : Prop :=
  l.chains = l'.chains ∧ l.rewardUtxos = l'.rewardUtxos ∧ l.utxo = l'.utxo ∧
    l.supernet = l'.supernet ∧ l.transformation = l'.transformation ∧ l.tx = l'.tx

theorem sameRecords_of_tells {l' : Ledger} (h : l.view.Tells r) (h' : l'.view.Tells r) :
    l.SameRecords l' :=
  ⟨funext fun supernet => (h.chains supernet).trans (h'.chains supernet).symm,
    h.rewardUtxos.trans h'.rewardUtxos.symm, h.utxo.trans h'.utxo.symm,
    h.supernet.trans h'.supernet.symm, h.transformation.trans h'.transformation.symm,
    h.tx.trans h'.tx.symm⟩

/-- The chains of a supernet and the reward outputs of a staking transaction can be read, the
chains by strictly ascending identifier. Folding the ledger down to the root changes no record, nor
does a commit, and the committed store loads with the same records. -/
theorem records_endure (h : Appended l) :
    (∀ supernet, ∃ held, l.chains supernet = .ok held ∧
      held.Pairwise fun a b => compare a.id b.id = .lt) ∧
    (∀ stakerTx, ∃ paid, l.rewardUtxos stakerTx = .ok paid) ∧ (root l.collapse).SameRecords l ∧
      ∀ {height : UInt64} {s' : State}, l.collapse.commit height = .ok s' →
        (root s').SameRecords l ∧
          ∃ loaded, State.load s'.store = .ok loaded ∧ (root loaded).SameRecords l := by
  obtain ⟨r, hl, horder⟩ := h.archives
  have htells := hl.tells
  have hsame : ∀ {s : State}, s.Archives r → (root s).SameRecords l := fun hs =>
    sameRecords_of_tells (State.tells_of_carries hs.edits) htells
  refine ⟨fun supernet => ?_, fun stakerTx => ?_, hsame hl.collapsed, fun hcommit => ?_⟩
  · obtain ⟨held, hheld, hkeyed⟩ := hl.chains supernet
    refine ⟨held.values, ?_, (indexes_chains hkeyed).enumerates.sorted⟩
    exact (htells.chains supernet).trans (congrArg (Except.map OrderedMap.values) hheld)
  · obtain ⟨paid, hpaid, _⟩ := horder stakerTx
    exact ⟨paid, (congrFun htells.rewardUtxos stakerTx).trans hpaid⟩
  · obtain ⟨_, hflushed⟩ := State.flushed_of_flush (State.flush_of_commit hcommit).1
    obtain ⟨loaded, hload, hloaded⟩ := hl.collapsed.load_of_flushed horder hflushed
    exact ⟨hsame (hl.collapsed.of_flushed horder hflushed), loaded, hload, hsame hloaded⟩

/-! ## Lists that are written on a genesis with one validator -/

/-- A chain of one identifier, under a name. -/
def namedChain (name : String) : ChainRecord :=
  { id := .ofWord 20, supernetId := .primaryNetwork, name := name, vmId := .ofWord 21 }

/-- An output that pays the reward of the validator. -/
def soloReward (index : UInt32) (amount : UInt64) : Utxo :=
  { id := ⟨.ofWord 30, index⟩, assetId := .primaryNetwork, amount := amount, owner := .ofWord 7 }

/-- A layer registers a chain twice, so that the later record stands, and pays two outputs. -/
def listedOverSolo : Ledger :=
  overSolo.writeAll [.addChain (namedChain "first"), .addChain (namedChain "second"),
    .addRewardUtxo soloTx.txId (soloReward 0 5), .addRewardUtxo soloTx.txId (soloReward 3 6)]

theorem appended_listedOverSolo : Appended listedOverSolo := by
  have hopened : Appended overSolo :=
    @Appended.opened _ _ (.insert {} (.ofWord 1) (.root State.solo)) (.ofWord 1)
      (.genesis State.fromGenesis_solo) rfl rfl
  have hnew : ∀ name, (root State.solo).view.RegistersNewChain (.addChain (namedChain name)) := by
    intro name held hread
    have hnone : (root State.solo).chains .primaryNetwork = .ok [] := by decide +kernel
    cases hnone.symm.trans hread
    exact fun _ hc => absurd hc List.not_mem_nil
  have hchains := (hopened.written (w := .addChain (namedChain "first")) (hnew _) trivial).written
    (w := .addChain (namedChain "second")) (hnew _) trivial
  have hfirst := hchains.written (w := .addRewardUtxo soloTx.txId (soloReward 0 5)) trivial
    fun paid hread => by
      have hnone : ((overSolo.write (.addChain (namedChain "first"))).write
          (.addChain (namedChain "second"))).rewardUtxos soloTx.txId = .ok [] := by decide +kernel
      cases hnone.symm.trans hread
      exact fun _ hu => absurd hu List.not_mem_nil
  refine hfirst.written (w := .addRewardUtxo soloTx.txId (soloReward 3 6)) trivial
    fun paid hread => ?_
  have hone : (((overSolo.write (.addChain (namedChain "first"))).write
      (.addChain (namedChain "second"))).write
        (.addRewardUtxo soloTx.txId (soloReward 0 5))).rewardUtxos soloTx.txId =
          .ok [soloReward 0 5] := by decide +kernel
  cases hone.symm.trans hread
  decide +kernel

/-- The layer, folded down, committed and loaded. -/
theorem records_endure_solo :
    listedOverSolo.chains .primaryNetwork = .ok [namedChain "second"] ∧
      listedOverSolo.rewardUtxos soloTx.txId = .ok [soloReward 0 5, soloReward 3 6] ∧
      (root listedOverSolo.collapse).SameRecords listedOverSolo ∧
      ∃ s', listedOverSolo.collapse.commit 1 = .ok s' ∧ (root s').SameRecords listedOverSolo ∧
        ∃ loaded, State.load s'.store = .ok loaded ∧
          (root loaded).SameRecords listedOverSolo := by
  obtain ⟨_, _, hcollapsed, hcommits⟩ := records_endure appended_listedOverSolo
  have hok : (listedOverSolo.collapse.commit 1).isOk = true := by decide +kernel
  obtain ⟨s', hcommit⟩ := exists_eq_ok_of_isOk hok
  exact ⟨by decide +kernel, by decide +kernel, hcollapsed, s', hcommit, hcommits hcommit⟩

/-- A root with a chain and a layer over it that registers the chain again. -/
def renamedOverSolo : Ledger :=
  let base := State.solo.write (.addChain (namedChain "first"))
  (layer (.root base) (.ofWord 1) true (.untouched base.timestamp base.feePool)).write
    (.addChain (namedChain "second"))

/-- A root with two reward outputs of the validator. -/
def rewardedSolo (first second : Utxo) : State :=
  State.solo.writeAll [.addRewardUtxo soloTx.txId first, .addRewardUtxo soloTx.txId second]

/-- A chain that is registered again on a layer is listed twice until the layer is folded. A commit
sorts reward outputs by index, and of two of one index it keeps the later. -/
theorem rewritten_lists_differ :
    (renamedOverSolo.chains .primaryNetwork = .ok [namedChain "first", namedChain "second"] ∧
      (root renamedOverSolo.collapse).chains .primaryNetwork = .ok [namedChain "second"]) ∧
    ((root (rewardedSolo (soloReward 1 5) (soloReward 0 6))).rewardUtxos soloTx.txId =
        .ok [soloReward 1 5, soloReward 0 6] ∧
      ∃ s', (rewardedSolo (soloReward 1 5) (soloReward 0 6)).commit 1 = .ok s' ∧
        (root s').rewardUtxos soloTx.txId = .ok [soloReward 0 6, soloReward 1 5]) ∧
    ((root (rewardedSolo (soloReward 0 5) (soloReward 0 6))).rewardUtxos soloTx.txId =
        .ok [soloReward 0 5, soloReward 0 6] ∧
      ∃ s', (rewardedSolo (soloReward 0 5) (soloReward 0 6)).commit 1 = .ok s' ∧
        (root s').rewardUtxos soloTx.txId = .ok [soloReward 0 6]) := by
  have hcommitted : ∀ {first second : Utxo} {paid : List Utxo},
      (do
        let s' ← (rewardedSolo first second).commit 1
        (root s').rewardUtxos soloTx.txId) = .ok paid →
      ∃ s', (rewardedSolo first second).commit 1 = .ok s' ∧
        (root s').rewardUtxos soloTx.txId = .ok paid := bind_eq_ok_iff.mp
  exact ⟨⟨by decide +kernel, by decide +kernel⟩,
    ⟨by decide +kernel, hcommitted (by decide +kernel)⟩,
    by decide +kernel, hcommitted (by decide +kernel)⟩

end Ledger

end StakingLedger
