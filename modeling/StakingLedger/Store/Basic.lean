import StakingLedger.Bytes.Word
import StakingLedger.OrderedMap

/-! # The key-value store

A store is one ordered map from keys to values. Writes arrive in batches: all
deletions of a batch take effect before its puts, whatever order they were
queued in, and of two puts of one key the later one counts.
-/

namespace StakingLedger

/-- Writes that take effect together. -/
structure WriteBatch where
  puts : List (Bytes × Bytes) := []
  deletes : List Bytes := []
  deriving DecidableEq, Inhabited

namespace WriteBatch

/-- Queues a value after the ones already queued. -/
def put (batch : WriteBatch) (key value : Bytes) : WriteBatch :=
  { batch with puts := batch.puts ++ [(key, value)] }

/-- Queues the deletion of a key. -/
def delete (batch : WriteBatch) (key : Bytes) : WriteBatch :=
  { batch with deletes := batch.deletes ++ [key] }

/-- A batch from writes in order; a write without value is a deletion. -/
def ofWrites (writes : List (Bytes × Option Bytes)) : WriteBatch :=
  writes.foldl (fun batch (key, value?) =>
    match value? with
    | some value => batch.put key value
    | none => batch.delete key) {}

def isEmpty (batch : WriteBatch) : Bool := batch.puts.isEmpty && batch.deletes.isEmpty

def size (batch : WriteBatch) : Nat := batch.puts.length + batch.deletes.length

/-- The writes of one batch and then those of another. -/
def append (first second : WriteBatch) : WriteBatch :=
  ⟨first.puts ++ second.puts, first.deletes ++ second.deletes⟩

instance : Append WriteBatch := ⟨append⟩

end WriteBatch

/-- Whether a store keeps its content when it is closed. -/
inductive Durability where
  | volatile
  | durable
  deriving DecidableEq

/-- An ordered key-value store. -/
structure Store where
  entries : OrderedMap Bytes Bytes := .empty
  deriving DecidableEq

namespace Store

instance : Inhabited Store := ⟨{}⟩

def get? (store : Store) (key : Bytes) : Option Bytes := store.entries.get? key

/-- The entries from the key `start` on. -/
def entriesFrom (store : Store) (start : Bytes) : List (Bytes × Bytes) :=
  store.entries.entries.dropWhile fun e => (compare e.1 start).isLT

/-- The greater of two keys. -/
def laterKey (a b : Bytes) : Bytes := if (compare a b).isGT then a else b

/-- Every entry whose key begins with `lead` and is not below `start`, in key order. -/
def scanFrom (store : Store) (lead start : Bytes) : List (Bytes × Bytes) :=
  (store.entriesFrom (laterKey start lead)).takeWhile fun e => lead.isPrefixOf e.1

/-- Every entry whose key begins with `lead`, in key order. -/
def scan (store : Store) (lead : Bytes) : List (Bytes × Bytes) := store.scanFrom lead lead

/-- Applies a batch: the deletions, then the puts. -/
def write (store : Store) (batch : WriteBatch) : Store :=
  let remaining := batch.deletes.foldl (fun entries key => entries.erase key) store.entries
  ⟨remaining.insertMany batch.puts⟩

/-- What is found after closing and opening again. -/
def reopen (store : Store) : Durability → Store
  | .volatile => {}
  | .durable => store

end Store

end StakingLedger
