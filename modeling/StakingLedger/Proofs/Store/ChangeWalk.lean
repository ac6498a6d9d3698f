import Mathlib.Data.Set.List
import StakingLedger.Proofs.Store.ChangeScan

/-! # A walk through the changes of a supernet

Where every key under a lead is the key of a change, a scan for one supernet and a height is a walk
through the supernet's changes up to that height: from the latest back to the earliest, and through
the nodes in order within a height. The supernets next to it are left out, however many bytes they
have in common with it.
-/

namespace StakingLedger

/-- A change of a supernet's validator, as a store holds it. -/
structure StoredChange where
  height : UInt64
  node : NodeId
  value : Bytes
  deriving DecidableEq

namespace StoredChange

variable {lead : Bytes} {supernet : EntityId} {a b : StoredChange}

/-- The entry of a change under a lead. -/
def entry (lead : Bytes) (supernet : EntityId) (c : StoredChange) : Bytes × Bytes :=
  (Key.changeUnder lead supernet c.height c.node, c.value)

/-- Later heights come first, and within a height lower nodes. -/
def Before (a b : StoredChange) : Prop :=
  b.height < a.height ∨ a.height = b.height ∧ compare a.node b.node = .lt

theorem compare_entry_eq_lt_iff :
    compare (a.entry lead supernet).1 (b.entry lead supernet).1 = .lt ↔ a.Before b := by
  rw [entry, entry, Key.compare_changeUnder, Ordering.then_eq_lt, Nat.compare_eq_lt,
    Nat.compare_eq_eq, UInt64.toNat_inj, Before, UInt64.lt_iff_toNat_lt, eq_comm]

theorem entry_injective (lead : Bytes) (supernet : EntityId) :
    Function.Injective (entry lead supernet) := by
  rintro ⟨height, node, value⟩ ⟨height', node', value'⟩ h
  obtain ⟨hkey, rfl⟩ := Prod.mk.inj h
  obtain ⟨-, rfl, rfl⟩ := Key.changeUnder_inj.mp hkey
  rfl

end StoredChange

namespace Store

variable {store : Store} {lead : Bytes}

/-- The changes of a supernet up to a height in the order of a walk, each once. -/
structure Walk (store : Store) (lead : Bytes) (supernet : EntityId) (tip : UInt64)
    (changes : List StoredChange) : Prop where
  ordered : changes.Pairwise StoredChange.Before
  mem_iff : ∀ c : StoredChange, c ∈ changes ↔
    c.height ≤ tip ∧ store.get? (Key.changeUnder lead supernet c.height c.node) = some c.value

/-- The scan for a supernet meets nothing but its changes. -/
theorem ChangesUnder.exists_map_entry (h : store.ChangesUnder lead) (supernet : EntityId)
    (start : Bytes) :
    ∃ changes : List StoredChange,
      store.scanFrom (lead ++ supernet.toList) start =
        changes.map (StoredChange.entry lead supernet) := by
  have hrange : store.scanFrom (lead ++ supernet.toList) start ∈
      Set.range (List.map (StoredChange.entry lead supernet)) := by
    rw [Set.range_list_map]
    rintro ⟨key, value⟩ he
    obtain ⟨hget, hlead, -⟩ := mem_scanFrom.mp he
    obtain ⟨height, node, rfl⟩ := h.exists_change hget hlead
    exact ⟨⟨height, node, value⟩, rfl⟩
  obtain ⟨changes, heq⟩ := hrange
  exact ⟨changes, heq.symm⟩

theorem walk_of_map_entry {supernet : EntityId} {tip : UInt64} {changes : List StoredChange}
    (h : store.scanFrom (lead ++ supernet.toList) (Key.changeScanStartUnder lead supernet tip) =
      changes.map (StoredChange.entry lead supernet)) :
    store.Walk lead supernet tip changes where
  ordered := by
    have hascending := store.scanFrom_ascending (lead ++ supernet.toList)
      (Key.changeScanStartUnder lead supernet tip)
    rw [h, Ascending, List.pairwise_map] at hascending
    exact hascending.imp StoredChange.compare_entry_eq_lt_iff.mp
  mem_iff c := by
    rw [← mem_scanFrom_changeUnder, h]
    exact (List.mem_map_of_injective (StoredChange.entry_injective lead supernet)).symm

/-- The parts of a change are read from its own key alone. And where all keys under a lead are those
of changes, the scan for a supernet and a height is a walk through the supernet's changes up to the
height, from the latest back. -/
theorem change_scan_walks (lead : Bytes) :
    (∀ key supernet height node,
      Key.parseChangeUnder lead key = .ok (supernet, height, node) ↔
        key = Key.changeUnder lead supernet height node) ∧
    ∀ store : Store, store.ChangesUnder lead → ∀ supernet tip, ∃ changes : List StoredChange,
      store.scanFrom (lead ++ supernet.toList) (Key.changeScanStartUnder lead supernet tip) =
        changes.map (StoredChange.entry lead supernet) ∧
      store.Walk lead supernet tip changes := by
  refine ⟨fun key supernet height node => Key.parseChangeUnder_eq_ok_iff, ?_⟩
  intro store hchanges supernet tip
  obtain ⟨changes, hscan⟩ := hchanges.exists_map_entry supernet
    (Key.changeScanStartUnder lead supernet tip)
  exact ⟨changes, hscan, walk_of_map_entry hscan⟩

/-- Keys under a lead that have the length of a change key are change keys. -/
theorem changesUnder_of_lengths (h : ∀ e ∈ store.entries.entries, lead.isPrefixOf e.1 = true →
    e.1.length = lead.length + Key.changeSuffixLength) : store.ChangesUnder lead := by
  rintro key value hget ⟨suffix, rfl⟩
  have hlength := h _ (OrderedMap.get?_eq_some_iff.mp hget)
    (List.isPrefixOf_iff_prefix.mpr (List.prefix_append _ _))
  rw [List.length_append] at hlength
  exact Key.exists_changeUnder lead (Nat.add_left_cancel hlength)

/-- Changes of three supernets that differ in their last byte only, at heights around 256, and a
key that does not begin with the lead. -/
def neighbours : Store :=
  ({} : Store).write ⟨[
    (Key.changeUnder [7] (.ofWord 1) 256 ⟨List.replicate 20 2, rfl⟩, [1]),
    (Key.changeUnder [7] (.ofWord 1) 256 ⟨List.replicate 20 1, rfl⟩, [2]),
    (Key.changeUnder [7] (.ofWord 1) 255 ⟨List.replicate 20 9, rfl⟩, [3]),
    (Key.changeUnder [7] (.ofWord 1) 257 ⟨List.replicate 20 1, rfl⟩, [4]),
    (Key.changeUnder [7] (.ofWord 0) 1 ⟨List.replicate 20 1, rfl⟩, [5]),
    (Key.changeUnder [7] (.ofWord 2) 256 ⟨List.replicate 20 1, rfl⟩, [6]),
    ([8], [7])], []⟩

/-- The walk from height 256 has a change at that height and not the one above it. -/
theorem change_scan_walks_neighbours :
    neighbours.ChangesUnder [7] ∧ ∃ changes : List StoredChange,
      neighbours.scanFrom ([7] ++ (EntityId.ofWord 1).toList)
        (Key.changeScanStartUnder [7] (.ofWord 1) 256) =
          changes.map (StoredChange.entry [7] (.ofWord 1)) ∧
      changes.Pairwise StoredChange.Before ∧
      ⟨256, ⟨List.replicate 20 1, rfl⟩, [2]⟩ ∈ changes ∧
      ⟨257, ⟨List.replicate 20 1, rfl⟩, [4]⟩ ∉ changes := by
  have hchanges : neighbours.ChangesUnder [7] := changesUnder_of_lengths (by decide +kernel)
  obtain ⟨changes, hscan, hwalk⟩ := (change_scan_walks [7]).2 neighbours hchanges (.ofWord 1) 256
  refine ⟨hchanges, changes, hscan, hwalk.ordered, (hwalk.mem_iff _).mpr (by decide +kernel), ?_⟩
  exact fun hmem => absurd ((hwalk.mem_iff _).mp hmem).1 (by decide)

end Store

end StakingLedger
