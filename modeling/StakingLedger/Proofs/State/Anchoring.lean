import StakingLedger.Proofs.Ledger.LayerRefinement
import StakingLedger.Proofs.State.History
import StakingLedger.Proofs.State.Restoring

/-! # Roots that are anchored in their store

A root is anchored when its staker records say how the stakers in memory came from those of its
store, which are all that the store has. A genesis in an empty store makes such a root, and so
does loading a store that hides no record; writes that keep to the contract keep the anchor, and
a flush leaves a root that its store loads as.
-/

namespace StakingLedger

namespace State

variable {s s' : State} {w : Write} {book : Book} {c : Contents} {height : UInt64}

/-- The root holds the contents, and its records lead to them from the stakers of its store. -/
def Anchored (book : Book) (s : State) (c : Contents) : Prop :=
  ∃ were : Phase → Set Staker, (∀ phase, were phase ⊆ book.records phase) ∧
    (∀ phase, OneValidatorPerSlot (were phase)) ∧
    (∀ phase, ∀ t ∈ were phase, Codec.fits t = true) ∧ s.Based were c

theorem Anchored.mirrors (h : s.Anchored book c) : s.Mirrors c := by
  obtain ⟨_, _, _, _, hbased⟩ := h
  exact hbased.toMirrors

theorem Anchored.write (h : s.Anchored book c) (hproper : c.Proper book)
    (hallowed : c.Allows book w) : (s.write w).Anchored book (c.write w) := by
  obtain ⟨were, hrecorded, hslots, hencoded, hbased⟩ := h
  exact ⟨were, hrecorded, hslots, hencoded, hbased.write hrecorded hproper hallowed⟩

theorem Anchored.writeAll {writes : List Write} (h : s.Anchored book c) (hproper : c.Proper book)
    (hallowed : c.Accepts (Contents.Allows book) writes) :
    (s.writeAll writes).Anchored book (c.writeAll writes) := by
  induction writes generalizing s c with
  | nil => exact h
  | cons w rest ih =>
      exact ih (h.write hproper hallowed.1) (hproper.write hallowed.1) hallowed.2

/-- Anchored roots are a sound ground for layers. -/
theorem anchored_grounding (book : Book) :
    Grounding book (fun _ _ => True) (State.Anchored book) where
  shows _ _ h := h.mirrors.shows
  write _ _ _ h hproper hallowed _ := h.write hproper hallowed

/-- A flush leaves a root that its store restores. -/
theorem Anchored.restored_of_flush (h : s.Anchored book c) (hproper : c.Proper book)
    (hflush : s.flush height = .ok s') :
    s'.Restored c.stakers ∧ ∀ phase, ∀ t ∈ c.stakers phase, Codec.fits t = true := by
  obtain ⟨were, hrecorded, hslots, hencoded, hbased⟩ := h
  obtain ⟨history, hflushed⟩ := flushed_of_flush hflush
  have hfits : ∀ phase, ∀ t ∈ c.stakers phase, Codec.fits t = true := fun phase =>
    hflushed.fits (hbased.diffs phase) (hproper.slots phase) (hencoded phase)
  exact ⟨hbased.restored_of_flushed hrecorded hslots hproper hfits hflushed, hfits⟩

/-! ## Where anchored roots come from -/

/-- A root that its store restores is anchored. -/
theorem Restored.anchored {members : Phase → Set Staker} (h : s.Restored members)
    (hrecorded : ∀ phase, members phase ⊆ book.records phase)
    (hslots : ∀ phase, OneValidatorPerSlot (members phase))
    (hencoded : ∀ phase, ∀ t ∈ members phase, Codec.fits t = true) :
    s.Anchored book (s.settled members) ∧ (s.settled members).Proper book :=
  ⟨⟨members, hrecorded, hslots, hencoded, h.based⟩, proper_settled hrecorded hslots⟩

/-- A root that nothing was written to, over a store that holds nothing. -/
theorem anchored_fresh (book : Book) :
    ({ store := {} } : State).Anchored book (({ store := {} } : State).settled fun _ => ∅) := by
  have h := durable_fresh book
  refine ⟨_, h.recorded, h.slots, h.encoded, { h with
    tidy := fun phase => by cases phase <;> exact Registry.Tidy.empty
    keyed := h.keyed.listed }⟩

/-- The root of a genesis in an empty store is anchored. -/
theorem anchored_of_fromGenesis {g : Genesis} {config : StakingConfig}
    (h : fromGenesis {} g config = .ok s) (hbook : s.RecordedIn book) :
    ∃ c : Contents, s.Anchored book c ∧ c.Proper book := by
  obtain ⟨r⟩ := genesisRecord_of_fromGenesis h
  have hproper := proper_fresh r.book
  have hown : r.stakers .current ⊆ r.book.records .current := Set.Subset.refl _
  obtain ⟨hallowed, _⟩ := r.accepts hown (c := ({ store := {} } : State).settled fun _ => ∅) rfl
  have hwritten := (anchored_fresh r.book).writeAll hproper hallowed
  obtain ⟨hrestored, hfits⟩ := hwritten.restored_of_flush (hproper.writeAll hallowed) r.flushed
  exact ⟨_, hrestored.anchored (hrestored.based.toMirrors.recorded hbook)
    (hproper.writeAll hallowed).slots hfits⟩

/-- A root that is loaded is anchored, unless its store hides a staker record. -/
theorem anchored_of_load {store : Store} (h : load store = .ok s) (hshown : s.HidesNoRecord)
    (hbook : s.RecordedIn book) : ∃ c : Contents, s.Anchored book c ∧ c.Proper book := by
  have hstore : s.store = store := (load_eq_ok_iff.mp h).store_eq
  obtain ⟨members, hrestored, hslots, hencoded⟩ := restored_of_load (hstore ▸ h) hshown
  exact ⟨_, hrestored.anchored (hrestored.based.toMirrors.recorded hbook) hslots hencoded⟩

end State

end StakingLedger
