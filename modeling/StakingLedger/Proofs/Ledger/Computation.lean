import StakingLedger.Ledger.Basic
import StakingLedger.Proofs.Answer

/-! # Computations that succeed

A computation on a ledger that succeeds does so step by step. What it asked was
answered, and the ledger after it is the one after its last write. A question
that is not answered ends the computation where it stands.
-/

namespace StakingLedger.LedgerM

variable {α β : Type} {l l' : Ledger}

theorem run_bind (action : LedgerM α) (next : α → LedgerM β) (l : Ledger) :
    (action >>= next).run l =
      match action.run l with
      | (.ok a, between) => (next a).run between
      | (.error e, between) => (.error e, between) := by
  change StateT.bind action (ExceptT.bindCont next) l = _
  unfold StateT.bind run
  rcases action l with ⟨answer, between⟩
  cases answer <;> rfl

theorem run_bind_eq_ok_iff {action : LedgerM α} {next : α → LedgerM β} {b : β} :
    (action >>= next).run l = (.ok b, l') ↔
      ∃ a between, action.run l = (.ok a, between) ∧ (next a).run between = (.ok b, l') := by
  rw [run_bind]
  rcases action.run l with ⟨answer, between⟩
  cases answer with
  | error e =>
      constructor
      · intro h; cases h
      · rintro ⟨_, _, hrun, _⟩; cases hrun
  | ok a =>
      constructor
      · intro h
        exact ⟨a, between, rfl, h⟩
      · rintro ⟨_, _, hrun, h⟩
        cases hrun
        exact h

theorem run_ask_bind (read : Ledger → Answer α) (next : α → LedgerM β) (l : Ledger) :
    (ask read >>= next).run l =
      match read l with
      | .ok a => (next a).run l
      | .error e => (.error e, l) := by
  rw [run_bind]
  change (match (read l, l) with
    | (.ok a, between) => (next a).run between
    | (.error e, between) => (.error e, between)) = _
  cases read l <;> rfl

theorem run_ask_eq_ok_iff {read : Ledger → Answer α} {a : α} :
    (ask read).run l = (.ok a, l') ↔ read l = .ok a ∧ l' = l := by
  rw [run, ask, Prod.mk.injEq, eq_comm (a := l)]

theorem run_write_eq_ok_iff {w : Write} {u : Unit} :
    (write w).run l = (.ok u, l') ↔ l' = l.write w := by
  rw [run, write, Prod.mk.injEq, eq_comm (a := l.write w)]
  exact and_iff_right rfl

/-- A computation that starts with a question. -/
theorem run_ask_bind_eq_ok_iff {read : Ledger → Answer α} {next : α → LedgerM β} {b : β} :
    (ask read >>= next).run l = (.ok b, l') ↔
      ∃ a, read l = .ok a ∧ (next a).run l = (.ok b, l') := by
  rw [run_bind_eq_ok_iff]
  constructor
  · rintro ⟨a, between, hask, hnext⟩
    obtain ⟨hread, rfl⟩ := run_ask_eq_ok_iff.mp hask
    exact ⟨a, hread, hnext⟩
  · rintro ⟨a, hread, hnext⟩
    exact ⟨a, l, run_ask_eq_ok_iff.mpr ⟨hread, rfl⟩, hnext⟩

/-- A computation that starts with a write. -/
theorem run_write_bind {w : Write} {next : Unit → LedgerM β} :
    (write w >>= next).run l = (next ()).run (l.write w) := by
  rw [run_bind]
  rfl

end StakingLedger.LedgerM
