import StakingLedger.Proofs.OrderedMap.Lookup
import StakingLedger.Proofs.Store.Scan
import StakingLedger.Store.Database

/-! # What a store serves

A store has a content: what each key has after the batches that were written. A look-up reads the
content, and a scan finds the part of it that begins with the lead and is not below the start,
each entry once and in key order. This holds of a store in memory, and of a store over any
database whose table is an ordered map and whose transactions are atomic.
-/

namespace StakingLedger

open OrderedMap

/-! ## Content -/

/-- What a key has after a batch. -/
def WriteBatch.settle (batch : WriteBatch) (content : Bytes → Option Bytes) (key : Bytes) :
    Option Bytes :=
  (lastValue? batch.puts key).or (if key ∈ batch.deletes then none else content key)

/-- What the keys have after batches in turn. -/
def contentAfter (batches : List WriteBatch) (content : Bytes → Option Bytes) :
    Bytes → Option Bytes :=
  batches.foldl (fun content batch => batch.settle content) content

/-- A batch takes the keys from one content to another: a key gets its last put, a key that is
only deleted has nothing, and every other key keeps what it had. -/
structure WriteBatch.Settles (batch : WriteBatch) (before after : Bytes → Option Bytes) : Prop where
  put : ∀ key value earlier later, batch.puts = earlier ++ (key, value) :: later →
    (∀ e ∈ later, e.1 ≠ key) → after key = some value
  deleted : ∀ key ∈ batch.deletes, (∀ e ∈ batch.puts, e.1 ≠ key) → after key = none
  kept : ∀ key, key ∉ batch.deletes → (∀ e ∈ batch.puts, e.1 ≠ key) → after key = before key

theorem lastValue?_eq_none_of_ne {pairs : List (Bytes × Bytes)} {key : Bytes}
    (h : ∀ e ∈ pairs, e.1 ≠ key) : lastValue? pairs key = none :=
  lastValue?_eq_none_iff.mpr fun _ hmem => h _ hmem rfl

theorem WriteBatch.settles_settle (batch : WriteBatch) (content : Bytes → Option Bytes) :
    batch.Settles content (batch.settle content) where
  put key value earlier later hputs hlater := by
    have hlast : lastValue? batch.puts key = some value := by
      rw [hputs, lastValue?_append, ← List.singleton_append, lastValue?_append,
        lastValue?_eq_none_of_ne hlater, Option.none_or, lastValue?_singleton, if_pos rfl,
        Option.some_or]
    rw [settle, hlast, Option.some_or]
  deleted key hdeleted hputs := by
    rw [settle, lastValue?_eq_none_of_ne hputs, Option.none_or, if_pos hdeleted]
  kept key hdeleted hputs := by
    rw [settle, lastValue?_eq_none_of_ne hputs, Option.none_or, if_neg hdeleted]

/-- A look-up and a scan serve a content. -/
structure Serves (content : Bytes → Option Bytes) (lookUp : Bytes → Option Bytes)
    (scanFrom : Bytes → Bytes → List (Bytes × Bytes)) : Prop where
  lookUp_eq : lookUp = content
  /-- Each entry is found once, in key order. -/
  ascending : ∀ lead start, Store.Ascending (scanFrom lead start)
  mem_iff : ∀ lead start key value, (key, value) ∈ scanFrom lead start ↔
    content key = some value ∧ lead <+: key ∧ compare start key ≠ .gt

/-! ## Databases -/

namespace Database

/-- The table of a database is an ordered map from keys to values, and a transaction that begins
after a commit finds the table that was committed. -/
structure Lawful {D T : Type} (db : Database D T) : Prop where
  get?_commit : ∀ d table key, db.get? (db.openTable (db.commit d table)) key = db.get? table key
  get?_insert : ∀ table key value key',
    db.get? (db.insert table key value) key' = if key' = key then some value else db.get? table key'
  get?_remove : ∀ table key key',
    db.get? (db.remove table key) key' = if key' = key then none else db.get? table key'
  range_ascending : ∀ table start, Store.Ascending (db.range table start)
  mem_range : ∀ table start key value, (key, value) ∈ db.range table start ↔
    db.get? table key = some value ∧ compare start key ≠ .gt

variable {D T : Type} {db : Database D T}

theorem Lawful.get?_removeAll (h : db.Lawful) (table : T) (keys : List Bytes) (key : Bytes) :
    db.get? (keys.foldl db.remove table) key = if key ∈ keys then none else db.get? table key := by
  induction keys generalizing table with
  | nil => simp
  | cons k rest ih =>
      rw [List.foldl_cons, ih, h.get?_remove]
      by_cases hk : key = k <;> simp [hk]

theorem Lawful.get?_insertAll (h : db.Lawful) (table : T) (pairs : List (Bytes × Bytes))
    (key : Bytes) :
    db.get? (pairs.foldl (fun table e => db.insert table e.1 e.2) table) key =
      (lastValue? pairs key).or (db.get? table key) := by
  induction pairs generalizing table with
  | nil => simp
  | cons e rest ih =>
      rw [List.foldl_cons, ih, h.get?_insert, ← List.singleton_append, lastValue?_append,
        Option.or_assoc, lastValue?_singleton]
      by_cases hk : key = e.1 <;> simp [hk, eq_comm]

/-- One batch settles the content. -/
theorem Lawful.lookUp_write (h : db.Lawful) (d : D) (batch : WriteBatch) :
    db.lookUp (db.write d batch) = batch.settle (db.lookUp d) := by
  funext key
  rw [lookUp, write, h.get?_commit, h.get?_insertAll, h.get?_removeAll]
  rfl

/-- A run of batches settles the content batch by batch. -/
theorem Lawful.lookUp_writeAll (h : db.Lawful) (d : D) (batches : List WriteBatch) :
    db.lookUp (batches.foldl db.write d) = contentAfter batches (db.lookUp d) := by
  induction batches generalizing d with
  | nil => rfl
  | cons batch rest ih =>
      rw [List.foldl_cons, ih, h.lookUp_write]
      rfl

/-- The keys that begin with the lead stand next to each other, so ending a scan at the first
other key leaves nothing out. -/
theorem Lawful.scanFrom_eq_filter (h : db.Lawful) (d : D) (lead start : Bytes) :
    db.scanFrom d lead start =
      (db.range (db.openTable d) (Store.laterKey start lead)).filter
        fun e => lead.isPrefixOf e.1 := by
  refine Store.takeWhile_lead_eq_filter (h.range_ascending _ _) fun e he => ?_
  have hlow := ((h.mem_range _ _ _ _).mp he).2
  exact (Store.not_below_laterKey_iff.mp (Store.not_below_iff.mpr hlow)).2

theorem Lawful.mem_scanFrom (h : db.Lawful) {d : D} {lead start key value : Bytes} :
    (key, value) ∈ db.scanFrom d lead start ↔
      db.lookUp d key = some value ∧ lead <+: key ∧ compare start key ≠ .gt := by
  rw [h.scanFrom_eq_filter, List.mem_filter, h.mem_range, List.isPrefixOf_iff_prefix, and_assoc,
    ← Store.not_below_iff, Store.not_below_laterKey_iff]
  refine and_congr_right fun _ => ?_
  constructor
  · exact fun ⟨hstart, hlead⟩ => ⟨hlead, hstart.1⟩
  · exact fun ⟨hlead, hstart⟩ => ⟨⟨hstart, Bytes.compare_lead_ne_gt hlead⟩, hlead⟩

/-- After any run of batches the store serves what they settle. -/
theorem Lawful.serves (h : db.Lawful) (d : D) (batches : List WriteBatch) :
    Serves (contentAfter batches (db.lookUp d)) (db.lookUp (batches.foldl db.write d))
      (db.scanFrom (batches.foldl db.write d)) where
  lookUp_eq := h.lookUp_writeAll d batches
  ascending lead start := by
    rw [h.scanFrom_eq_filter]
    exact (h.range_ascending _ _).filter _
  mem_iff lead start key value := by
    rw [h.mem_scanFrom, h.lookUp_writeAll]

end Database

/-! ## Both kinds of store -/

namespace Store

theorem lawful_database : database.Lawful where
  get?_commit _ _ _ := rfl
  get?_insert table key value key' := by
    simp only [database, OrderedMap.get?_insert, Std.LawfulEqOrd.compare_eq_iff_eq]
  get?_remove table key key' := by
    simp only [database, OrderedMap.get?_erase, Std.LawfulEqOrd.compare_eq_iff_eq]
  range_ascending table start := table.sorted.sublist (List.dropWhile_sublist _)
  mem_range table start key value := by
    simp only [database, dropWhile_below_eq_filter table.sorted, List.mem_filter,
      not_below_iff, OrderedMap.get?_eq_some_iff]

/-- Whatever batches were written, to an empty store in memory or to one over a database: a look-up
gives what they settle, and a scan gives exactly the entries that begin with the lead and are not
below the start, once each in key order, however the start relates to the lead. And what a batch
settles of a key is its last put, else nothing if the batch deletes it, else what it was. -/
theorem scans_filter_content :
    (∀ batches : List WriteBatch, Serves (contentAfter batches fun _ => none)
      (batches.foldl Store.write {}).get? (batches.foldl Store.write {}).scanFrom) ∧
    (∀ (D T : Type) (db : Database D T), db.Lawful → ∀ (d : D) (batches : List WriteBatch),
      Serves (contentAfter batches (db.lookUp d)) (db.lookUp (batches.foldl db.write d))
        (db.scanFrom (batches.foldl db.write d))) ∧
    ∀ (batch : WriteBatch) (content : Bytes → Option Bytes),
      batch.Settles content (batch.settle content) := by
  refine ⟨fun batches => ?_, fun _ _ _ hlawful => hlawful.serves, WriteBatch.settles_settle⟩
  have hserves := lawful_database.serves {} batches
  rw [write_database, lookUp_database, scanFrom_database] at hserves
  exact hserves

/-- Two batches; the second one deletes two keys and puts one of them again. -/
def rewrites : List WriteBatch :=
  [⟨[([97, 3], [3]), ([97, 1], [1]), ([98], [4]), ([97, 2], [2])], []⟩,
    ⟨[([97, 2], [9])], [[97, 1], [97, 2]]⟩]

/-- A scan that starts below its lead finds the key that was put again, and one that starts above
its lead does not find a key there, which does not begin with the lead. -/
theorem scans_filter_content_rewrites :
    database.Lawful ∧
      ([97, 2], [9]) ∈ database.scanFrom (rewrites.foldl database.write {}) [97] [5] ∧
      ([98], [4]) ∉ database.scanFrom (rewrites.foldl database.write {}) [97] [97, 200] := by
  have hserves := scans_filter_content.2.1 _ _ database lawful_database {} rewrites
  refine ⟨lawful_database, (hserves.mem_iff _ _ _ _).mpr (by decide +kernel), fun hfound => ?_⟩
  exact absurd ((hserves.mem_iff _ _ _ _).mp hfound).2.1 (by decide)

end Store

end StakingLedger
