import StakingLedger.Store.Basic

/-! # Stores over a database

A store may keep its entries in the one table of a database. The database is no part of this
library; a store only asks the operations below of it. A batch is one write transaction, in which
the deletions go before the puts. A scan begins at the later of its lead and its start and ends
at the first key outside the lead.
-/

namespace StakingLedger

/-- What a store asks of a database `D`, whose table is `T` inside a transaction. -/
structure Database (D T : Type) where
  /-- The table as a transaction finds it that begins now. -/
  openTable : D → T
  /-- Ends a write transaction with the table that it has made. -/
  commit : D → T → D
  get? : T → Bytes → Option Bytes
  /-- The entries from a key on. -/
  range : T → Bytes → List (Bytes × Bytes)
  insert : T → Bytes → Bytes → T
  remove : T → Bytes → T

namespace Database

variable {D T : Type} (db : Database D T)

def lookUp (d : D) (key : Bytes) : Option Bytes := db.get? (db.openTable d) key

/-- Every entry whose key begins with `lead` and is not below `start`, in key order. -/
def scanFrom (d : D) (lead start : Bytes) : List (Bytes × Bytes) :=
  (db.range (db.openTable d) (Store.laterKey start lead)).takeWhile fun e => lead.isPrefixOf e.1

/-- Applies a batch in one transaction: the deletions, then the puts. -/
def write (d : D) (batch : WriteBatch) : D :=
  let remaining := batch.deletes.foldl db.remove (db.openTable d)
  db.commit d (batch.puts.foldl (fun table e => db.insert table e.1 e.2) remaining)

end Database

/-- A store in memory is its own database, with the ordered map of its entries as the table. -/
def Store.database : Database Store (OrderedMap Bytes Bytes) where
  openTable store := store.entries
  commit _ table := ⟨table⟩
  get? table := table.get?
  range table start := table.entries.dropWhile fun e => (compare e.1 start).isLT
  insert table := table.insert
  remove table := table.erase

theorem Store.lookUp_database : Store.database.lookUp = Store.get? := rfl

theorem Store.scanFrom_database : Store.database.scanFrom = Store.scanFrom := rfl

theorem Store.write_database : Store.database.write = Store.write := rfl

end StakingLedger
