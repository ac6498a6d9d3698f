import StakingLedger.Proofs.Ledger.Folding
import StakingLedger.Proofs.State.Genesis

/-! # Layers refine direct writes

A stack of layers over a root reads like the root with all writes made on it
directly, and it still does after any of its layers were folded down. The
writes have to keep to the contract, as far as the writer can tell by reading
the top of the stack; nothing is asked of what the store of the root holds.
-/

namespace StakingLedger

namespace State

/-- The roots that there can be: opened from a store or made by a genesis, and then written to and
committed. -/
inductive Reached (book : Book) : State → Prop
  | loaded {store : Store} {s : State} (h : load store = .ok s) (hbook : s.RecordedIn book) :
    Reached book s
  | genesis {store : Store} {g : Genesis} {config : StakingConfig} {s : State}
    (h : fromGenesis store g config = .ok s) (hbook : s.RecordedIn book) : Reached book s
  | written {s : State} {w : Write} (h : Reached book s)
    (hallowed : (Ledger.root s).view.Allows book w) : Reached book (s.write w)
  | committed {s s' : State} {height : UInt64} (h : Reached book s)
    (hcommit : s.commit height = .ok s') : Reached book s'

variable {book : Book} {s : State}

theorem proper_settled {stakers : Phase → Set Staker}
    (hrecorded : ∀ phase, stakers phase ⊆ book.records phase)
    (hslots : ∀ phase, OneValidatorPerSlot (stakers phase)) :
    (s.settled stakers).Proper book :=
  ⟨hrecorded, hslots, fun _ _ => s.persisted_chains_filed⟩

/-- A root without waiting record writes whose registries hold recorded stakers. -/
theorem mirrors_of_holds (stakers : Phase → Set Staker)
    (hholds : ∀ phase, (s.registries.get phase).Holds (stakers phase))
    (hslots : ∀ phase, OneValidatorPerSlot (stakers phase)) (hedits : s.unflushed.edits = {})
    (hbook : s.RecordedIn book) : ∃ c : Contents, s.Mirrors c ∧ c.Proper book := by
  have hmirrors := mirrors_settled stakers hholds hedits
  exact ⟨_, hmirrors, proper_settled (hmirrors.recorded hbook) hslots⟩

/-- Every root that there can be holds contents. -/
theorem Reached.mirrors (h : s.Reached book) : ∃ c : Contents, s.Mirrors c ∧ c.Proper book := by
  -- A commit empties the edits, so after it the contents are what the store has.
  induction h with
  | loaded h hbook =>
      obtain ⟨hregistries, hedits⟩ := registries_of_load h
      choose stakers hholds using hregistries
      exact mirrors_of_holds stakers (fun phase => (hholds phase).1)
        (fun phase => (hholds phase).2) hedits
        hbook
  | genesis h hbook =>
      obtain ⟨r⟩ := genesisRecord_of_fromGenesis h
      obtain ⟨c, hc, hproper, hstakers⟩ := r.mirrors
      obtain ⟨hregistries, hunflushed⟩ := registries_of_flush r.flushed
      refine mirrors_of_holds c.stakers (fun phase => ?_) hproper.slots
        (by rw [hunflushed]) hbook
      rw [hregistries]
      exact (hc.registries phase).clearDiffs
  | written _ hallowed ih =>
      obtain ⟨c, hc, hproper⟩ := ih
      have hallowed := hc.shows.allows hallowed
      exact ⟨_, hc.write hproper hallowed, hproper.write hallowed⟩
  | committed _ hcommit ih =>
      obtain ⟨c, hc, hproper⟩ := ih
      obtain ⟨_, _, hcommit⟩ := bind_eq_ok_iff.mp hcommit
      split at hcommit
      · cases hcommit
      obtain ⟨hregistries, hunflushed⟩ := registries_of_flush hcommit
      refine ⟨_, mirrors_settled c.stakers (fun phase => ?_) (by rw [hunflushed]),
        proper_settled hproper.recorded hproper.slots⟩
      rw [hregistries]
      exact (hc.registries phase).clearDiffs

end State

namespace Ledger

/-! ## Folding all the way down -/

/-- The number of layers above the root. -/
def depth : Ledger → Nat
  | root _ => 0
  | layer parent _ _ _ => parent.depth + 1

theorem depth_writeAll (l : Ledger) (writes : List Write) : (l.writeAll writes).depth = l.depth := by
  induction writes generalizing l with
  | nil => rfl
  | cons w rest ih =>
      refine (ih (l.write w)).trans ?_
      cases l <;> rfl

/-- Folds the top layer into its parent, then that one into the next, and at last into the root. -/
def collapse (l : Ledger) : State :=
  match l with
  | root s => s
  | layer parent _ _ changes => (parent.fold changes).collapse
termination_by l.depth
decreasing_by
  rw [fold, depth_writeAll]
  exact Nat.lt_succ_self _

/-- What every fold of a layer keeps is kept down to the root. -/
theorem collapse_induction (holds : Ledger → Prop) {l : Ledger}
    (hfold : ∀ {parent : Ledger} {id : EntityId} {reachable : Bool} {changes : Changes},
      holds (layer parent id reachable changes) → holds (parent.fold changes))
    (h : holds l) : holds (root l.collapse) := by
  induction hdepth : l.depth generalizing l with
  | zero =>
      cases l with
      | root s => rwa [Ledger.collapse]
      | layer parent id reachable changes => cases hdepth
  | succ n ih =>
      cases l with
      | root s => cases hdepth
      | layer parent id reachable changes =>
          rw [Ledger.collapse]
          refine ih (hfold h) ?_
          rw [Ledger.fold, depth_writeAll]
          exact Nat.succ.inj hdepth

/-- A fresh layer over the root of a genesis with one validator. -/
def overSolo : Ledger :=
  .layer (.root State.solo) (.ofWord 1) true (.untouched State.solo.timestamp State.solo.feePool)

/-- The stacks of layers that grow out of a root, each with the root on which the same writes were
made directly. Layers are opened on top, written to on top, and folded from the top. -/
inductive Stacked (book : Book) (base : State) : Ledger → State → Prop
  | base : Stacked book base (.root base) base
  | opened {l l' : Ledger} {direct : State} {versions : Versions} {block : EntityId}
    (h : Stacked book base l direct) (hparent : versions.resolve? block = some l)
    (hopen : versions.openLayer block = .ok l') : Stacked book base l' direct
  | written {l : Ledger} {direct : State} {w : Write} (h : Stacked book base l direct)
    (hallowed : l.view.Allows book w) (hnew : l.view.RegistersNewChain w) :
    Stacked book base (l.write w) (direct.write w)
  | folded {parent : Ledger} {id : EntityId} {reachable : Bool} {changes : Changes}
    {direct : State} (h : Stacked book base (.layer parent id reachable changes) direct) :
    Stacked book base (parent.fold changes) direct

variable {book : Book} {base direct : State} {l : Ledger} {c : Contents}
  {asks : Contents → Write → Prop} {reading : State → Contents → Prop}

/-- Folding a layer keeps the contents, where the root accepts the replayed writes. -/
theorem Contains.fold (hroot : Grounding book asks reading) {parent : Ledger} {id : EntityId}
    {reachable : Bool} {changes : Changes}
    (h : (layer parent id reachable changes).Contains book reading c)
    (hasked : ∀ below, parent.Contains book reading below → changes.Carries below c →
      below.Accepts asks changes.writes) :
    (parent.fold changes).Contains book reading c := by
  obtain ⟨hproper, _, below, hparent, hchanges⟩ := h
  obtain ⟨hresult, hallowed, hnew⟩ := hchanges.replay hparent.proper hproper
  have hfolded := hparent.writeAll hroot hallowed hnew (hasked below hparent hchanges)
  rwa [hresult] at hfolded

theorem accepts_nothing (c : Contents) (writes : List Write) :
    c.Accepts (fun _ _ => True) writes :=
  Contents.accepts_of_forall fun _ _ _ => trivial

/-- Folding a stack all the way down keeps the contents, where the root accepts every write that
keeps to the contract. -/
theorem Contains.collapsed (hroot : Grounding book (fun _ _ => True) reading)
    (h : l.Contains book reading c) : (root l.collapse).Contains book reading c :=
  collapse_induction (fun l => l.Contains book reading c)
    (fun h => h.fold hroot fun below _ _ => accepts_nothing below _) h

theorem Contains.collapse (h : l.Contains book State.Mirrors c) : l.collapse.Mirrors c :=
  (h.collapsed (State.mirrors_grounding book)).2

/-- A stack and the root written to directly hold the same contents. -/
theorem Stacked.contains (hbase : ∃ c : Contents, base.Mirrors c ∧ c.Proper book)
    (h : Stacked book base l direct) :
    ∃ c, l.Contains book State.Mirrors c ∧ direct.Mirrors c := by
  have hroot := State.mirrors_grounding book
  -- Both are written alike, so the contents that one holds are those of the other.
  induction h with
  | base =>
      obtain ⟨c, hc, hproper⟩ := hbase
      exact ⟨c, ⟨hproper, hc⟩, hc⟩
  | opened _ hparent hopen ih =>
      obtain ⟨c, hl, hdirect⟩ := ih
      rw [Versions.openLayer, hparent] at hopen
      cases hopen
      exact ⟨c, hl.opened hroot _, hdirect⟩
  | written _ hallowed hnew ih =>
      obtain ⟨c, hl, hdirect⟩ := ih
      have hview := hl.shows hroot
      have hallowed := hview.allows hallowed
      exact ⟨_, hl.write hroot hallowed (hview.registersNewChain hl.proper hnew) trivial,
        hdirect.write hl.proper hallowed⟩
  | folded _ ih =>
      obtain ⟨c, hl, hdirect⟩ := ih
      exact ⟨c, hl.fold hroot fun below _ _ => accepts_nothing below _, hdirect⟩

/-- Every read through a stack of layers, and every read of the root into which the stack is
folded, is that of the root on which all writes were made directly. -/
theorem stacked_reads_direct (hbase : base.Reached book) (h : Stacked book base l direct) :
    l.view = (root direct).view ∧ (root l.collapse).view = (root direct).view := by
  obtain ⟨c, hl, hdirect⟩ := h.contains hbase.mirrors
  have hview := hdirect.shows
  exact ⟨(hl.shows (State.mirrors_grounding book)).unique hview, hl.collapse.shows.unique hview⟩

/-- Two layers over a genesis with one validator, the lower one with a delegator put on it. -/
theorem stacked_reads_direct_solo :
    ∃ l direct, State.solo.Reached soloBook ∧ Stacked soloBook State.solo l direct ∧ l.depth = 2 ∧
      l.view = (root direct).view ∧ (root l.collapse).view = (root direct).view := by
  have hreached : State.solo.Reached soloBook :=
    .genesis State.fromGenesis_solo State.recordedIn_solo
  have hlower : Stacked soloBook State.solo
      (.layer (.root State.solo) (.ofWord 1) true
        (.untouched State.solo.timestamp State.solo.feePool)) State.solo :=
    @Stacked.opened _ _ _ _ _ (.insert {} (.ofWord 1) (.root State.solo)) (.ofWord 1) .base rfl rfl
  obtain ⟨c, hc, hproper⟩ := hreached.mirrors
  have hroot : (root State.solo).Contains soloBook State.Mirrors c := ⟨hproper, hc⟩
  have hread : (Ledger.layer (.root State.solo) (.ofWord 1) true
      (.untouched State.solo.timestamp State.solo.feePool)).view.stakers .current =
        .ok [currentStaker soloTx 1] := by
    have hview := hroot.view_opened (State.mirrors_grounding soloBook) (.ofWord 1)
    exact (congrFun (congrArg View.stakers hview) .current).trans (State.stakers_solo .current)
  have hnew : ∀ t ∈ [currentStaker soloTx 1], t.txId ≠ soloDelegator.txId := by decide +kernel
  have hwritten := hlower.written (w := .putDelegator .current soloDelegator)
    ⟨Or.inr rfl, by decide +kernel, _, hread, hnew⟩ trivial
  have hupper := @Stacked.opened _ _ _ _ _
    (.insert {} (.ofWord 2) _) (.ofWord 2) hwritten rfl rfl
  exact ⟨_, _, hreached, hupper, rfl, stacked_reads_direct hreached hupper⟩

end Ledger

end StakingLedger
