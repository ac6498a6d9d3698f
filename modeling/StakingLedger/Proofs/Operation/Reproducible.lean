import StakingLedger.Proofs.Operation.Alike

/-! # Reproducible commits

What a commit leaves in the store depends on the committed ledger before and on
what can be read at the end, not on the writes that led from the one to the
other.
-/

namespace StakingLedger

namespace State

variable {s s' : State} {book book' : Book} {last c : Contents} {height : UInt64}
  {writes writes' : List Write}

/-- Every write of a series keeps to the contract when its turn comes, as far as the writer can
read. -/
def Permits (book : Book) (s : State) : List Write → Prop
  | [] => True
  | w :: rest => (Ledger.root s).view.Allows book w ∧ (Ledger.root s).view.NextOutput w ∧
    (s.write w).Permits book rest

/-- The roots that were just committed, or loaded from the store of such a root. Between two
commits a staking transaction denotes one record in a registry, which may be another one later. -/
inductive Committed : State → Prop
  | genesis {g : Genesis} {config : StakingConfig} {s : State}
    (h : fromGenesis {} g config = .ok s) : Committed s
  | committed {s s' : State} {book : Book} {writes : List Write} {height : UInt64}
    (h : Committed s) (hbook : s.RecordedIn book) (hwrites : s.Permits book writes)
    (hcommit : (s.writeAll writes).commit height = .ok s') : Committed s'
  | loaded {s s' : State} (h : Committed s) (hload : load s.store = .ok s') : Committed s'

/-! ## What is known of a committed root -/

namespace Kept

/-- A root that was just committed does not depend on the records that were there before. -/
theorem rebook (h : s.Kept book c c) (hbook : s.RecordedIn book') : s.Kept book' c c := by
  have hrecorded := h.durable.toMirrors.recorded hbook
  exact ⟨h.durable.of_recorded hrecorded, ⟨hrecorded, h.proper.slots, h.proper.chains⟩, h.reloads⟩

theorem writeAll (h : s.Kept book last c) (hwrites : s.Permits book writes) :
    (s.writeAll writes).Kept book last (c.writeAll writes) := by
  induction writes generalizing s c with
  | nil => exact h
  | cons w rest ih =>
      obtain ⟨hallowed, hnext, hrest⟩ := hwrites
      exact ih (h.write hallowed hnext) hrest

theorem loaded (h : s.Kept book c c) (hflushed : s.unflushed = {}) (hload : load s.store = .ok s') :
    s'.Kept book c c := by
  obtain ⟨loaded, hreads, hstore, hheight, hclean, hmirrors⟩ := h.reloads
  obtain rfl : loaded = s' := Except.ok.inj (hreads.symm.trans hload)
  refine ⟨h.durable.of_load hflushed hload hmirrors, h.proper, loaded, ?_, rfl, rfl, hclean, hmirrors⟩
  rw [hstore, hload]

end Kept

theorem unflushed_of_commit (h : s.commit height = .ok s') : s'.unflushed = {} := by
  obtain ⟨history, hflushed⟩ := flushed_of_flush (flush_of_commit h).1
  exact hflushed.unflushed

theorem Committed.kept (h : Committed s) : ∃ book c, s.Kept book c c ∧ s.unflushed = {} := by
  induction h with
  | genesis h =>
      obtain ⟨book, hbook⟩ := exists_book_of_fromGenesis h
      obtain ⟨c, hkept⟩ := kept_of_fromGenesis h hbook
      obtain ⟨r⟩ := genesisRecord_of_fromGenesis h
      obtain ⟨_, hflushed⟩ := flushed_of_flush r.flushed
      exact ⟨book, c, hkept, hflushed.unflushed⟩
  | committed _ hbook hwrites hcommit ih =>
      obtain ⟨_, c, hkept, _⟩ := ih
      exact ⟨_, _, ((hkept.rebook hbook).writeAll hwrites).commit hcommit,
        unflushed_of_commit hcommit⟩
  | loaded _ hload ih =>
      obtain ⟨book, c, hkept, hflushed⟩ := ih
      exact ⟨book, c, hkept.loaded hflushed hload, (settled_of_load hload).2.1⟩

/-! ## Commits of the same view -/

theorem exists_commit_iff : (∃ s', s.commit height = .ok s') ↔
    s.nextHeight = .ok height ∧ ∃ s', s.flush height = .ok s' := by
  constructor
  · rintro ⟨s', h⟩
    refine ⟨?_, s', (flush_of_commit h).1⟩
    obtain ⟨expected, hexpected, h⟩ := bind_eq_ok_iff.mp h
    split at h
    · cases h
    next hsame => rw [hexpected, not_not.mp hsame]
  · rintro ⟨hnext, s', hflush⟩
    refine ⟨s', bind_eq_ok_iff.mpr ⟨height, hnext, ?_⟩⟩
    rw [if_neg (not_not.mpr rfl)]
    exact hflush

/-- Two permitted series of writes on a committed root that end with the same view are committed
alike: the commit is refused after both or after none of them, and it leaves the same store. -/
theorem commit_reproducible (h : Committed s) (hbook : s.RecordedIn book)
    (hbook' : s.RecordedIn book') (hwrites : s.Permits book writes)
    (hwrites' : s.Permits book' writes')
    (hview : (Ledger.root (s.writeAll writes)).view = (Ledger.root (s.writeAll writes')).view)
    (height : UInt64) :
    ((∃ t, (s.writeAll writes).commit height = .ok t) ↔
      ∃ t, (s.writeAll writes').commit height = .ok t) ∧
    ∀ t t', (s.writeAll writes).commit height = .ok t →
      (s.writeAll writes').commit height = .ok t' → t.store = t'.store := by
  obtain ⟨_, before, hkept, _⟩ := h.kept
  have hleft := (hkept.rebook hbook).writeAll hwrites
  have hright := (hkept.rebook hbook').writeAll hwrites'
  -- The view tells the contents, so both roots hold the same ones.
  have hcontents : before.writeAll writes' = before.writeAll writes :=
    hright.durable.toMirrors.shows.contents_unique (hview ▸ hleft.durable.toMirrors.shows)
      hright.proper hleft.proper
  rw [hcontents] at hright
  constructor
  · have hnext : (s.writeAll writes).nextHeight = (s.writeAll writes').nextHeight := by
      rw [nextHeight, nextHeight, height_writeAll, height_writeAll]
    rw [exists_commit_iff, exists_commit_iff, hnext]
    apply and_congr_right
    intro _
    constructor
    · exact exists_flush_of_alike hleft.durable hright.durable hleft.proper hright.proper
    · exact exists_flush_of_alike hright.durable hleft.durable hright.proper hleft.proper
  · intro t t' hcommit hcommit'
    obtain ⟨_, hflushed⟩ := flushed_of_flush (flush_of_commit hcommit).1
    obtain ⟨_, hflushed'⟩ := flushed_of_flush (flush_of_commit hcommit').1
    have hstore : (s.writeAll writes).store = (s.writeAll writes').store := by
      rw [store_writeAll, store_writeAll]
    exact store_of_flushed_alike hleft.durable hleft.proper hflushed hright.durable hright.proper
      hflushed' hstore

/-- A delegator is put on the validator of a genesis. -/
def soloPut : List Write := [.putDelegator .current soloDelegator]

/-- The same with a detour: the validator is deleted and put again before. -/
def soloDetour : List Write :=
  [.deleteValidator .current (currentStaker soloTx 1),
    .putValidator .current (currentStaker soloTx 1), .putDelegator .current soloDelegator]

theorem permits_soloPut : solo.Permits soloBook soloPut :=
  ⟨⟨Or.inr rfl, by decide +kernel, _, stakers_solo .current, by decide +kernel⟩, trivial, trivial⟩

theorem permits_soloDetour : solo.Permits soloBook soloDetour := by
  have hempty : (Ledger.root (solo.write
      (.deleteValidator .current (currentStaker soloTx 1)))).view.stakers .current = .ok [] := by
    change Except.ok (Registry.all _).walkAll = _
    rw [StakerSeq.walkAll_eq_toList]
    decide +kernel
  have hback : (Ledger.root (solo.writeAll
      [.deleteValidator .current (currentStaker soloTx 1),
        .putValidator .current (currentStaker soloTx 1)])).view.stakers .current =
          .ok [currentStaker soloTx 1] := by
    change Except.ok (Registry.all _).walkAll = _
    rw [StakerSeq.walkAll_eq_toList]
    decide +kernel
  refine ⟨⟨by decide +kernel, _, stakers_solo .current, List.mem_singleton_self _⟩, trivial,
    ⟨Or.inl rfl, by decide +kernel, ⟨_, hempty, nofun⟩, by decide +kernel⟩, trivial,
    ⟨Or.inr rfl, by decide +kernel, _, hback, by decide +kernel⟩, trivial, trivial⟩

/-- The diffs are not read. -/
theorem view_of_diffs (s : State) (diffs : SlotDiffs) :
    (Ledger.root { s with registries :=
      ⟨{ s.registries.current with diffs := diffs }, s.registries.pending⟩ }).view =
        (Ledger.root s).view := by
  apply View.ext <;> try rfl
  all_goals
    funext phase
    cases phase <;> rfl

/-- The diffs of the current set remember the detour. -/
theorem view_soloDetour : (Ledger.root (solo.writeAll soloDetour)).view =
    (Ledger.root (solo.writeAll soloPut)).view := by
  have hsame : solo.writeAll soloDetour = { solo.writeAll soloPut with
      registries := ⟨{ (solo.writeAll soloPut).registries.current with
        diffs := (solo.writeAll soloDetour).registries.current.diffs },
        (solo.writeAll soloPut).registries.pending⟩ } := by
    decide +kernel
  rw [hsame]
  exact view_of_diffs _ _

theorem commit_reproducible_solo : Committed solo ∧ solo.RecordedIn soloBook ∧
    solo.Permits soloBook soloPut ∧ solo.Permits soloBook soloDetour ∧
    (Ledger.root (solo.writeAll soloPut)).view = (Ledger.root (solo.writeAll soloDetour)).view ∧
    ∃ t t', (solo.writeAll soloPut).commit 1 = .ok t ∧ (solo.writeAll soloDetour).commit 1 = .ok t' ∧
      t.store = t'.store := by
  have hcommits : ((solo.writeAll soloPut).commit 1).isOk = true := by decide +kernel
  have hgenesis : Committed solo := .genesis fromGenesis_solo
  obtain ⟨hboth, hstores⟩ := commit_reproducible hgenesis recordedIn_solo recordedIn_solo
    permits_soloPut permits_soloDetour view_soloDetour.symm 1
  obtain ⟨t, hcommit⟩ := exists_eq_ok_of_isOk hcommits
  obtain ⟨t', hcommit'⟩ := hboth.mp ⟨t, hcommit⟩
  exact ⟨hgenesis, recordedIn_solo, permits_soloPut, permits_soloDetour, view_soloDetour.symm,
    t, t', hcommit, hcommit', hstores t t' hcommit hcommit'⟩

end State

end StakingLedger
