import StakingLedger.Proofs.State.Genesis
import StakingLedger.Proofs.State.Reload

/-! # Histories of a root

A history starts with a genesis in an empty store and goes on with writes that
keep to the contract and with commits, in any order. Throughout it the root is
durable, and its store loads as the root of the last commit.
-/

namespace StakingLedger

/-- A recorded reward output has the next free index, as far as the writer can read. -/
def View.NextOutput (v : View) : Write → Prop
  | .addRewardUtxo stakerTx utxo =>
    ∃ paid, v.rewardUtxos stakerTx = .ok paid ∧ utxo.id.outputIndex.toNat = paid.length
  | _ => True

theorem View.Shows.nextOutput {v : View} {c : Contents} {w : Write} (h : v.Shows c)
    (hnext : v.NextOutput w) : c.NextOutput w := by
  cases w with
  | addRewardUtxo stakerTx utxo =>
      obtain ⟨paid, hread, hindex⟩ := hnext
      rw [h.rewardUtxos] at hread
      exact ⟨paid, hread, hindex⟩
  | _ => trivial

namespace State

/-- The histories of a root. The list has the root as it was after every commit, that of the
genesis first. -/
inductive History (book : Book) : List State → State → Prop
  | genesis {g : Genesis} {config : StakingConfig} {s : State}
    (h : fromGenesis {} g config = .ok s) (hbook : s.RecordedIn book) : History book [s] s
  | written {commits : List State} {s : State} {w : Write} (h : History book commits s)
    (hallowed : (Ledger.root s).view.Allows book w)
    (hnext : (Ledger.root s).view.NextOutput w) : History book commits (s.write w)
  | committed {commits : List State} {s s' : State} {height : UInt64} (h : History book commits s)
    (hcommit : s.commit height = .ok s') : History book (commits ++ [s']) s'

/-- The store of the root loads as a root of the same height that holds the given contents. -/
def Reloads (s : State) (last : Contents) : Prop :=
  ∃ loaded, load s.store = .ok loaded ∧ loaded.store = s.store ∧ loaded.height = s.height ∧
    loaded.hasUncommittedChanges = false ∧ loaded.Mirrors last

/-- The root holds the contents, and the last commit stored `last`. -/
structure Kept (book : Book) (s : State) (last c : Contents) : Prop where
  durable : s.Durable book last.stakers c
  proper : c.Proper book
  reloads : s.Reloads last

variable {book book' : Book} {s s' : State} {height : UInt64} {last c : Contents} {w : Write}

/-! ## Genesis -/

theorem durable_fresh (book : Book) : ({ store := {} } : State).Durable book (fun _ => ∅)
    (({ store := {} } : State).settled fun _ => ∅) where
  __ := mirrors_settled _ (fun phase => by cases phase <;> exact Registry.Holds.empty) rfl
  filed := RecordEdits.Filed.empty
  keyed := Store.keyed_empty
  supplies := ⟨fun _ _ => rfl, fun _ htouched => by cases htouched⟩
  rewardPools := ⟨fun _ _ => rfl, fun _ htouched => by cases htouched⟩
  rewards stakerTx := ⟨[], rfl, fun i utxo hget => by cases hget⟩
  storedChains key value hget _ := by cases hget
  diffs phase := by cases phase <;> exact SlotDiffs.Net.refl ∅
  stored phase id value := by
    constructor
    · intro hget
      cases hget
    · rintro ⟨t, ht, _⟩
      exact absurd ht (Set.notMem_empty t)
  recorded phase := Set.empty_subset _
  slots phase t ht := absurd ht (Set.notMem_empty t)
  encoded phase t ht := absurd ht (Set.notMem_empty t)

theorem proper_fresh (book : Book) :
    (({ store := {} } : State).settled fun _ => ∅).Proper book where
  recorded _ := Set.empty_subset _
  slots _ t ht := absurd ht (Set.notMem_empty t)
  chains _ _ := persisted_chains_filed _

/-- A genesis records no reward output. -/
theorem nextOutput_of_genesisWrites {g : Genesis} {placed : List Placement} {supply pool : UInt64}
    (hw : w ∈ genesisWrites g placed supply pool) (c : Contents) : c.NextOutput w := by
  cases w with
  | addRewardUtxo stakerTx utxo => simp [genesisWrites, Placement.writes] at hw
  | _ => trivial

/-- What is true of a durable root under one book is true under any book with its stakers. -/
theorem Durable.of_recorded {were : Phase → Set Staker} (h : s.Durable book were c)
    (hrecorded : ∀ phase, were phase ⊆ book'.records phase) : s.Durable book' were c :=
  { h with recorded := hrecorded }

theorem kept_of_fromGenesis {g : Genesis} {config : StakingConfig}
    (h : fromGenesis {} g config = .ok s) (hbook : s.RecordedIn book) :
    ∃ c, s.Kept book c c := by
  obtain ⟨r⟩ := genesisRecord_of_fromGenesis h
  obtain ⟨history, hflushed⟩ := flushed_of_flush r.flushed
  have hown : r.stakers .current ⊆ r.book.records .current := Set.Subset.refl _
  obtain ⟨hallowed, _⟩ := r.accepts hown (c := ({ store := {} } : State).settled fun _ => ∅) rfl
  have hproper := (proper_fresh r.book).writeAll hallowed
  have hdurable := (durable_fresh r.book).writeAll (proper_fresh r.book) hallowed
    (Contents.accepts_of_forall fun w hw c => nextOutput_of_genesisWrites hw c)
  have hafter := hdurable.of_flushed hproper hflushed
  have hrecorded := hafter.toMirrors.recorded hbook
  obtain ⟨loaded, hload, hstore, hheight, hclean, hmirrors⟩ :=
    load_of_flushed hdurable hproper hflushed
  refine ⟨_, hafter.of_recorded hrecorded, ⟨hrecorded, hproper.slots, hproper.chains⟩,
    loaded, hload, hstore, ?_, hclean, hmirrors⟩
  rw [hheight, hflushed.result]

/-! ## Steps -/

namespace Kept

theorem write (h : s.Kept book last c) (hallowed : (Ledger.root s).view.Allows book w)
    (hnext : (Ledger.root s).view.NextOutput w) : (s.write w).Kept book last (c.write w) := by
  have hshows := h.durable.toMirrors.shows
  have hallowed := hshows.allows hallowed
  refine ⟨h.durable.write h.proper hallowed (hshows.nextOutput hnext), h.proper.write hallowed, ?_⟩
  obtain ⟨loaded, hload, hstore, hheight, hclean, hmirrors⟩ := h.reloads
  rw [Reloads, store_write, height_write]
  exact ⟨loaded, hload, hstore, hheight, hclean, hmirrors⟩

end Kept

/-- A commit flushes as the ledger of the height after the last one. -/
theorem flush_of_commit (h : s.commit height = .ok s') :
    s.flush height = .ok s' ∧ height.toNat = s.height.toNat + 1 := by
  obtain ⟨expected, hexpected, h⟩ := bind_eq_ok_iff.mp h
  unfold nextHeight at hexpected
  split at hexpected
  next hfits =>
    cases hexpected
    split at h
    · cases h
    next hsame =>
      refine ⟨h, ?_⟩
      rw [not_not.mp hsame, UInt64.toNat_add]
      exact Nat.mod_eq_of_lt hfits
  next => cases hexpected

theorem Kept.commit (h : s.Kept book last c) (hcommit : s.commit height = .ok s') :
    s'.Kept book c c := by
  obtain ⟨history, hflushed⟩ := flushed_of_flush (flush_of_commit hcommit).1
  obtain ⟨loaded, hload, hstore, hheight, hclean, hmirrors⟩ :=
    load_of_flushed h.durable h.proper hflushed
  refine ⟨h.durable.of_flushed h.proper hflushed, h.proper, loaded, hload, hstore, ?_, hclean,
    hmirrors⟩
  rw [hheight, hflushed.result]

/-- Throughout a history the root is kept. -/
theorem History.kept {commits : List State} (h : History book commits s) :
    ∃ last c, s.Kept book last c := by
  induction h with
  | genesis h hbook =>
      obtain ⟨c, hc⟩ := kept_of_fromGenesis h hbook
      exact ⟨c, c, hc⟩
  | written _ hallowed hnext ih =>
      obtain ⟨last, c, hc⟩ := ih
      exact ⟨last, _, hc.write hallowed hnext⟩
  | committed _ hcommit ih =>
      obtain ⟨last, c, hc⟩ := ih
      exact ⟨c, c, hc.commit hcommit⟩

/-! ## Commit, then load -/

/-- A commit changes no read and leaves nothing waiting. Its store loads as a root of the same
height with the same reads, and has just the records of the stakers in memory. -/
theorem load_commit {commits : List State} (h : History book commits s)
    (hcommit : s.commit height = .ok s') :
    s'.height.toNat = s.height.toNat + 1 ∧ (Ledger.root s').view = (Ledger.root s).view ∧
      s'.hasUncommittedChanges = false ∧
      (∃ loaded, load s'.store = .ok loaded ∧ loaded.height = s'.height ∧
        (Ledger.root loaded).view = (Ledger.root s').view) ∧
      ∀ phase, ∃ held, (Ledger.root s').view.stakers phase = .ok held ∧
        ∀ e, e ∈ s'.store.scan (KeySpace.staker phase).bytes ↔
          ∃ t ∈ held, e = stakerEntry (KeySpace.staker phase) t := by
  obtain ⟨last, c, hc⟩ := h.kept
  obtain ⟨hflush, hheight⟩ := flush_of_commit hcommit
  obtain ⟨history, hflushed⟩ := flushed_of_flush hflush
  have hafter := (hc.commit hcommit).durable
  have hshows := hafter.toMirrors.shows
  have hresult : s'.height = height := by rw [hflushed.result]
  refine ⟨by rw [hresult, hheight], hshows.unique hc.durable.toMirrors.shows, ?_, ?_, fun phase => ?_⟩
  · rw [hflushed.result]
    rfl
  · obtain ⟨loaded, hload, _, hheight, _, hmirrors⟩ := (hc.commit hcommit).reloads
    exact ⟨loaded, hload, hheight, hmirrors.shows.unique hshows⟩
  · obtain ⟨held, hread, hheld⟩ := hshows.stakers phase
    refine ⟨held, hread, fun e => ?_⟩
    constructor
    · intro he
      obtain ⟨id, hkey, hget⟩ := key_of_mem_scan hafter.keyed (KeySpace.width_staker phase) he
      obtain ⟨t, ht, rfl, hvalue⟩ := (hafter.stored phase id e.2).mp hget
      exact ⟨t, (hheld.mem_iff t).mpr ht, Prod.ext hkey hvalue⟩
    · rintro ⟨t, ht, rfl⟩
      have hstored := (hafter.stored phase t.txId (toCanonical t)).mpr
        ⟨t, (hheld.mem_iff t).mp ht, rfl, rfl⟩
      exact Store.mem_scan.mpr ⟨hstored, List.prefix_append _ _⟩

/-- The genesis with one validator, on which a delegator was put. -/
theorem history_solo : History soloBook [State.solo]
    (State.solo.write (.putDelegator .current soloDelegator)) := by
  have hnew : ∀ t ∈ [currentStaker soloTx 1], t.txId ≠ soloDelegator.txId := by decide +kernel
  exact .written (.genesis fromGenesis_solo recordedIn_solo)
    ⟨Or.inr rfl, by decide +kernel, _, stakers_solo .current, hnew⟩ trivial

/-- A genesis with one validator, and a commit after a delegator was put on it. -/
theorem load_commit_solo : ∃ s s', History soloBook [State.solo] s ∧ s.commit 1 = .ok s' ∧
    s'.height.toNat = s.height.toNat + 1 ∧ (Ledger.root s').view = (Ledger.root s).view ∧
      s'.hasUncommittedChanges = false ∧
      (∃ loaded, load s'.store = .ok loaded ∧ loaded.height = s'.height ∧
        (Ledger.root loaded).view = (Ledger.root s').view) ∧
      ∀ phase, ∃ held, (Ledger.root s').view.stakers phase = .ok held ∧
        ∀ e, e ∈ s'.store.scan (KeySpace.staker phase).bytes ↔
          ∃ t ∈ held, e = stakerEntry (KeySpace.staker phase) t := by
  have hcommits :
      ((State.solo.write (.putDelegator .current soloDelegator)).commit 1).isOk = true := by
    decide +kernel
  obtain ⟨s', hcommit⟩ := exists_eq_ok_of_isOk hcommits
  exact ⟨_, s', history_solo, hcommit, load_commit history_solo hcommit⟩

end State

end StakingLedger
