import StakingLedger.Error.Basic
import StakingLedger.Store.Basic

/-! # Computations on a store

A computation on a store goes step by step and may fail on the way, through
itself or through a fault of the store. What it wrote before stays written. So
one that writes in a single batch, as the last thing that may fail, writes all or
nothing.
-/

namespace StakingLedger

/-- How a store may fail: on a look-up, or when it is given a batch, of which it then takes
nothing. -/
structure Store.Faults where
  onRead : Bytes → Option LedgerError := fun _ => none
  onWrite : WriteBatch → Option LedgerError := fun _ => none

/-- A computation on a store that may fail; what it wrote before a failure stays written. -/
abbrev StoreM := ExceptT LedgerError (StateM Store)

namespace StoreM

variable {α β : Type} {store store' : Store}

/-- Computes something from the store as it is. -/
def ask (f : Store → Answer α) : StoreM α := fun store => (f store, store)

def lookUp (faults : Store.Faults) (key : Bytes) : StoreM (Option Bytes) := fun store =>
  match faults.onRead key with
  | some e => (.error e, store)
  | none => (.ok (store.get? key), store)

def writeBatch (faults : Store.Faults) (batch : WriteBatch) : StoreM Unit := fun store =>
  match faults.onWrite batch with
  | some e => (.error e, store)
  | none => (.ok (), store.write batch)

/-- Runs a computation: its answer, and the store after it. -/
def run (action : StoreM α) (store : Store) : Answer α × Store := action store

theorem run_bind (action : StoreM α) (next : α → StoreM β) (store : Store) :
    (action >>= next).run store =
      match action.run store with
      | (.ok a, between) => (next a).run between
      | (.error e, between) => (.error e, between) := by
  change StateT.bind action (ExceptT.bindCont next) store = _
  unfold StateT.bind run
  rcases action store with ⟨answer, between⟩
  cases answer <;> rfl

theorem run_bind_eq_ok_iff {action : StoreM α} {next : α → StoreM β} {b : β} :
    (action >>= next).run store = (.ok b, store') ↔
      ∃ a between, action.run store = (.ok a, between) ∧ (next a).run between = (.ok b, store') := by
  rw [run_bind]
  rcases action.run store with ⟨e | a, between⟩
  · exact ⟨fun h => (nomatch h), fun ⟨_, _, h, _⟩ => (nomatch h)⟩
  · constructor
    · exact fun h => ⟨a, between, rfl, h⟩
    · rintro ⟨_, _, hrun, h⟩
      cases hrun
      exact h

theorem run_ask_bind (f : Store → Answer α) (next : α → StoreM β) (store : Store) :
    (ask f >>= next).run store =
      match f store with
      | .ok a => (next a).run store
      | .error e => (.error e, store) := by
  rw [run_bind, run, ask]
  cases f store <;> rfl

theorem run_ask_bind_eq_ok_iff {f : Store → Answer α} {next : α → StoreM β} {b : β} :
    (ask f >>= next).run store = (.ok b, store') ↔
      ∃ a, f store = .ok a ∧ (next a).run store = (.ok b, store') := by
  rw [run_ask_bind]
  cases f store with
  | error e => exact ⟨fun h => (nomatch h), fun ⟨_, h, _⟩ => (nomatch h)⟩
  | ok a =>
      constructor
      · exact fun h => ⟨a, rfl, h⟩
      · rintro ⟨_, ha, h⟩
        cases ha
        exact h

/-! ## All or nothing -/

/-- The computation never changes the store. -/
def LeavesAlone (action : StoreM α) : Prop := ∀ store, (action.run store).2 = store

/-- If the computation fails, the store is as it was. -/
def AllOrNothing (action : StoreM α) : Prop :=
  ∀ store e store', action.run store = (.error e, store') → store' = store

theorem leavesAlone_ask (f : Store → Answer α) : LeavesAlone (ask f) := fun _ => rfl

theorem leavesAlone_lookUp (faults : Store.Faults) (key : Bytes) :
    LeavesAlone (lookUp faults key) := by
  intro store
  unfold run lookUp
  cases faults.onRead key <;> rfl

theorem allOrNothing_writeBatch (faults : Store.Faults) (batch : WriteBatch) :
    AllOrNothing (writeBatch faults batch) := by
  intro store e store' h
  unfold run writeBatch at h
  cases hfault : faults.onWrite batch with
  | some e =>
      rw [hfault] at h
      cases h
      rfl
  | none =>
      rw [hfault] at h
      cases h

/-- Whatever leaves the store alone may come before. -/
theorem LeavesAlone.bind {action : StoreM α} {next : α → StoreM β} (h : LeavesAlone action)
    (hnext : ∀ a, AllOrNothing (next a)) : AllOrNothing (action >>= next) := by
  intro store e store' hrun
  have hstore := h store
  rw [run_bind] at hrun
  rcases haction : action.run store with ⟨e' | a, between⟩
  · rw [haction] at hrun hstore
    cases hrun
    exact hstore
  · rw [haction] at hrun hstore
    cases hstore
    exact hnext a _ e store' hrun

/-- Whatever cannot fail may come after. -/
theorem AllOrNothing.bind {action : StoreM α} {next : α → StoreM β} (h : AllOrNothing action)
    (hnext : ∀ a store, ∃ b, ((next a).run store).1 = .ok b) : AllOrNothing (action >>= next) := by
  intro store e store' hrun
  rw [run_bind] at hrun
  rcases haction : action.run store with ⟨e' | a, between⟩
  · rw [haction] at hrun
    cases hrun
    exact h _ _ _ haction
  · rw [haction] at hrun
    obtain ⟨b, hb⟩ := hnext a between
    rw [show (next a).run between = (.error e, store') from hrun] at hb
    cases hb

end StoreM

end StakingLedger
