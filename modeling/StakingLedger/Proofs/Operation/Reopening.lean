import StakingLedger.Proofs.Operation.Opening
import StakingLedger.Proofs.State.History

/-! # Roots that are loaded again

A root that is loaded from the store of a flush has no memory of its own, so it is
as durable as the flushed one and upholds the same contents. In between only a
flush changes the store.
-/

namespace StakingLedger

variable {s s' loaded : State} {book : Book} {c : Contents} {height : UInt64} {store : Store}
  {g : Genesis} {config : StakingConfig}

namespace State

theorem orNotFound_inj {α : Type} {a b : Option α} {what : Missing}
    (h : orNotFound a what = orNotFound b what) : a = b := by
  cases a <;> cases b <;> cases h <;> rfl

/-- A loaded root has the store that it was loaded from, and nothing waits in it. -/
theorem settled_of_load (h : load store = .ok loaded) : loaded.store = store ∧
    loaded.unflushed = {} ∧ ∀ phase, (loaded.registries.get phase).diffs = .empty := by
  have hloads := load_eq_ok_iff.mp h
  exact ⟨hloads.store_eq, hloads.unflushed, fun phase =>
    (tidy_of_loadRegistry (hloads.registries phase)).2⟩

/-- Some book has the records of a genesis. -/
theorem exists_book_of_fromGenesis (h : fromGenesis {} g config = .ok s) :
    ∃ book, s.RecordedIn book := by
  obtain ⟨r⟩ := genesisRecord_of_fromGenesis h
  have hupholds := r.upholds_contents
  obtain ⟨book, ⟨hproper, _⟩, _⟩ := hupholds
  refine ⟨book, fun phase held hread t ht => hproper.recorded phase ?_⟩
  exact (r.upholds_contents.shows.mem_of_read hread t).mp ht

/-- Two roots without touched balances that answer alike are stored alike. -/
theorem keepsBalances_of_same {space : KeySpace} {balances balances' : OrderedMap EntityId UInt64}
    {what : EntityId → Missing} (h : store.KeepsBalances space .empty balances)
    (hsame : ∀ id, orNotFound (balances'.get? id) (what id) =
      orNotFound (balances.get? id) (what id)) :
    store.KeepsBalances space .empty balances' where
  untouched id htouched := by
    rw [orNotFound_inj (hsame id)]
    exact h.untouched id htouched
  touched id htouched := by cases htouched

/-- The root that is loaded from the store of a flushed one is just as durable. -/
theorem Durable.of_load (h : s.Durable book c.stakers c) (hflushed : s.unflushed = {})
    (hload : load s.store = .ok loaded) (hmirrors : loaded.Mirrors c) :
    loaded.Durable book c.stakers c := by
  obtain ⟨hstore, hunflushed, hdiffs⟩ := settled_of_load hload
  have hsupplies := h.supplies
  have hrewardPools := h.rewardPools
  have hrewards := h.rewards
  rw [hflushed] at hsupplies hrewardPools hrewards
  -- Both roots answer as the contents do.
  have hsupply : ∀ id, loaded.supply id = s.supply id := fun id =>
    congrFun (hmirrors.supply.symm.trans h.supply) id
  have hrewardPool : ∀ id, loaded.rewardPool id = s.rewardPool id := fun id =>
    congrFun (hmirrors.rewardPool.symm.trans h.rewardPool) id
  exact { hmirrors with
    filed := by rw [hunflushed]; exact RecordEdits.Filed.empty
    keyed := by rw [hstore]; exact h.keyed
    supplies := by rw [hstore, hunflushed]; exact keepsBalances_of_same hsupplies hsupply
    rewardPools := by rw [hstore, hunflushed]; exact keepsBalances_of_same hrewardPools hrewardPool
    rewards := by rw [hstore, hunflushed]; exact hrewards
    storedChains := by rw [hstore]; exact h.storedChains
    diffs := fun phase => by rw [hdiffs]; exact SlotDiffs.Net.refl _
    stored := by rw [hstore]; exact h.stored
    recorded := h.recorded
    slots := h.slots
    encoded := h.encoded }

end State

/-! ## What a reload upholds -/

/-- The root that is loaded after a flush upholds what was flushed. -/
theorem Ledger.Upholds.reload (h : (root s).Upholds c) (hflush : s.flush height = .ok s')
    (hload : State.load s'.store = .ok loaded) : (root loaded).Upholds c := by
  obtain ⟨book, ⟨hproper, were, hdurable⟩, hstaked⟩ := h
  obtain ⟨history, hflushed⟩ := State.flushed_of_flush hflush
  obtain ⟨loaded', hload', _, _, _, hmirrors⟩ := State.load_of_flushed hdurable hproper hflushed
  obtain rfl : loaded' = loaded := Except.ok.inj (hload'.symm.trans hload)
  have hafter := (hdurable.of_flushed hproper hflushed).of_load hflushed.unflushed hload hmirrors
  exact ⟨book, ⟨hproper, _, hafter⟩, hstaked⟩

/-- So does the root that is loaded after a genesis. -/
theorem State.GenesisRecord.upholds_reload (r : GenesisRecord {} g s)
    (hload : load s.store = .ok loaded) : (Ledger.root loaded).Upholds r.contents :=
  r.upholds_unflushed.reload r.flushed hload

/-! ## The store stays -/

namespace Ledger

theorem store_writeAll (l : Ledger) (writes : List Write) : (l.writeAll writes).store = l.store := by
  induction writes generalizing l with
  | nil => rfl
  | cons w rest ih =>
      refine (ih (l.write w)).trans ?_
      cases l with
      | root s => exact State.store_write s w
      | layer => rfl

end Ledger

end StakingLedger
