import StakingLedger.OrderedMap
import Mathlib.Data.Set.Function

/-! # Look-ups in ordered maps

A map is determined by its look-ups, and a look-up finds exactly the entries
that are there. After a series of insertions a key holds the last value that
was stored under it.
-/

namespace StakingLedger.OrderedMap

variable {α β : Type} [Ord α]

theorem contains_eq_true_iff {m : OrderedMap α β} {k : α} :
    m.contains k = true ↔ ∃ v, m.get? k = some v :=
  Option.isSome_iff_exists

section LawfulKeys

variable [Std.LawfulEqOrd α]

theorem compare_ne_eq_of_ne {k k' : α} (h : k ≠ k') : compare k k' ≠ .eq :=
  fun heq => h (Std.LawfulEqCmp.eq_of_compare heq)

theorem compare_lt_of_ne_gt {k k' : α} (h : k ≠ k') (hle : compare k k' ≠ .gt) :
    compare k k' = .lt := by
  cases hcmp : compare k k' with
  | lt => rfl
  | eq => exact absurd hcmp (compare_ne_eq_of_ne h)
  | gt => exact absurd hcmp hle

@[simp] theorem get?_erase_self (m : OrderedMap α β) (k : α) : (m.erase k).get? k = none := by
  rw [get?_erase, if_pos Std.ReflOrd.compare_self]

theorem get?_erase_ne (m : OrderedMap α β) {k k' : α} (h : k' ≠ k) :
    (m.erase k).get? k' = m.get? k' := by
  rw [get?_erase, if_neg (compare_ne_eq_of_ne h)]

theorem contains_erase [DecidableEq α] (m : OrderedMap α β) (k k' : α) :
    (m.erase k).contains k' = (decide (k' ≠ k) && m.contains k') := by
  by_cases hk : k' = k
  · simp [contains, hk]
  · simp [contains, hk, get?_erase_ne _ hk]

theorem ne_of_compare_lt {k k' : α} (h : compare k k' = .lt) : k ≠ k' := by
  rintro rfl
  rw [Std.ReflOrd.compare_self] at h
  cases h

/-! ## Entries -/

theorem find?_entry_eq_some_iff {l : List (α × β)}
    (h : l.Pairwise (fun a b => compare a.1 b.1 = .lt)) (k : α) (v : β) :
    (l.find? (fun e => compare k e.1 == .eq)).map Prod.snd = some v ↔ (k, v) ∈ l := by
  induction l with
  | nil => simp
  | cons e rest ih =>
      obtain ⟨hhead, htail⟩ := List.pairwise_cons.mp h
      by_cases hk : k = e.1
      · have hnot : (k, v) ∉ rest := fun hmem => ne_of_compare_lt (hhead _ hmem) hk.symm
        subst hk
        simp [Prod.ext_iff, hnot, eq_comm]
      · have hne : (compare k e.1 == .eq) = false := by simpa using compare_ne_eq_of_ne hk
        rw [List.find?_cons, hne]
        simp only [ih htail, List.mem_cons, Prod.ext_iff, hk, false_and, false_or]

theorem get?_eq_some_iff {m : OrderedMap α β} {k : α} {v : β} :
    m.get? k = some v ↔ (k, v) ∈ m.entries :=
  find?_entry_eq_some_iff m.sorted k v

theorem mem_values_iff {m : OrderedMap α β} {v : β} :
    v ∈ m.values ↔ ∃ k, m.get? k = some v := by
  simp [values, get?_eq_some_iff]

theorem mem_keys_iff {m : OrderedMap α β} {k : α} :
    k ∈ m.keys ↔ ∃ v, m.get? k = some v := by
  simp [keys, get?_eq_some_iff]

theorem isEmpty_iff_forall {m : OrderedMap α β} :
    m.isEmpty = true ↔ ∀ k, m.get? k = none := by
  constructor
  · intro h k
    have hnil : m.entries = [] := List.isEmpty_iff.mp h
    simp [get?, hnil]
  · intro h
    refine List.isEmpty_iff.mpr (List.eq_nil_iff_forall_not_mem.mpr fun e he => ?_)
    have hsome := get?_eq_some_iff.mpr he
    rw [h] at hsome
    cases hsome

end LawfulKeys

variable [Std.TransOrd α] [Std.LawfulEqOrd α]

theorem not_compare_lt_and_gt {k k' : α} (h : compare k k' = .lt) : compare k' k ≠ .lt :=
  fun h' => ne_of_compare_lt (Std.TransCmp.lt_trans h h') rfl

/-- Two maps with the same look-ups are the same map. -/
theorem ext_get? {m n : OrderedMap α β} (h : ∀ k, m.get? k = n.get? k) : m = n := by
  have hmem : ∀ e, e ∈ m.entries ↔ e ∈ n.entries := by
    rintro ⟨k, v⟩
    rw [← get?_eq_some_iff, ← get?_eq_some_iff, h]
  have hnodup : ∀ p : OrderedMap α β, p.entries.Nodup := fun p =>
    p.sorted.imp fun hlt heq => ne_of_compare_lt hlt (congrArg Prod.fst heq)
  refine ext_entries (List.Perm.eq_of_pairwise ?_ m.sorted n.sorted
    ((List.perm_ext_iff_of_nodup (hnodup m) (hnodup n)).mpr hmem))
  intro a b _ _ hlt hgt
  exact absurd hgt (not_compare_lt_and_gt hlt)

theorem eq_empty_of_isEmpty {m : OrderedMap α β} (h : m.isEmpty = true) : m = empty :=
  ext_get? fun k => by rw [isEmpty_iff_forall.mp h, get?_empty]

theorem isEmpty_insert (m : OrderedMap α β) (k : α) (v : β) : (m.insert k v).isEmpty = false := by
  cases hempty : (m.insert k v).isEmpty with
  | false => rfl
  | true =>
      have hnone := isEmpty_iff_forall.mp hempty k
      rw [get?_insert_self] at hnone
      cases hnone

/-! ## One key against another -/

theorem get?_insert_ne (m : OrderedMap α β) {k k' : α} (v : β) (h : k' ≠ k) :
    (m.insert k v).get? k' = m.get? k' := by
  rw [get?_insert, if_neg (compare_ne_eq_of_ne h)]

/-- Two insertions under different keys may be made in either order. -/
theorem insert_comm (m : OrderedMap α β) {k k' : α} (v v' : β) (h : k ≠ k') :
    (m.insert k v).insert k' v' = (m.insert k' v').insert k v := by
  apply ext_get?
  intro key
  by_cases hk : key = k
  · subst hk
    rw [get?_insert_ne _ _ h, get?_insert_self, get?_insert_self]
  · rw [get?_insert_ne _ v hk]
    by_cases hk' : key = k'
    · subst hk'
      rw [get?_insert_self, get?_insert_self]
    · rw [get?_insert_ne _ _ hk', get?_insert_ne _ _ hk', get?_insert_ne _ _ hk]

theorem get?_alter (m : OrderedMap α β) (k k' : α) (f : Option β → Option β) :
    (m.alter k f).get? k' = if compare k' k = .eq then f (m.get? k) else m.get? k' := by
  unfold alter
  split
  next v hv => rw [get?_insert, hv]
  next hnone => rw [get?_erase, hnone]

/-! ## Series of insertions -/

/-- The last value that a list of pairs gives to a key. -/
def lastValue? [DecidableEq α] (pairs : List (α × β)) (k : α) : Option β :=
  (pairs.reverse.find? (fun e => e.1 = k)).map Prod.snd

section LastValue

variable [DecidableEq α]

omit [Ord α] [Std.TransOrd α] [Std.LawfulEqOrd α]

@[simp] theorem lastValue?_nil (k : α) : lastValue? ([] : List (α × β)) k = none := rfl

theorem lastValue?_singleton (e : α × β) (k : α) :
    lastValue? [e] k = if e.1 = k then some e.2 else none := by
  by_cases hk : e.1 = k <;> simp [lastValue?, hk]

theorem lastValue?_append (first second : List (α × β)) (k : α) :
    lastValue? (first ++ second) k = (lastValue? second k).or (lastValue? first k) := by
  simp only [lastValue?, List.reverse_append, List.find?_append]
  cases second.reverse.find? (fun e => e.1 = k) <;> simp

theorem lastValue?_eq_none_iff {pairs : List (α × β)} {k : α} :
    lastValue? pairs k = none ↔ ∀ v, (k, v) ∉ pairs := by
  simp only [lastValue?, Option.map_eq_none_iff, List.find?_eq_none, List.mem_reverse,
    decide_eq_true_eq]
  constructor
  · intro h v hmem
    exact h _ hmem rfl
  · rintro h ⟨k', v⟩ hmem rfl
    exact h v hmem

theorem mem_of_lastValue?_eq_some {pairs : List (α × β)} {k : α} {v : β}
    (h : lastValue? pairs k = some v) : (k, v) ∈ pairs := by
  obtain ⟨⟨k', v'⟩, hfind, rfl⟩ := Option.map_eq_some_iff.mp h
  have hkey : k' = k := by simpa using List.find?_some hfind
  subst hkey
  exact List.mem_reverse.mp (List.mem_of_find?_eq_some hfind)

/-- Where a key has one value only, it does not matter which pair is the last. -/
theorem lastValue?_eq_some_of_mem {pairs : List (α × β)} {k : α} {v : β}
    (hmem : (k, v) ∈ pairs) (hone : ∀ v', (k, v') ∈ pairs → v' = v) :
    lastValue? pairs k = some v := by
  cases hlast : lastValue? pairs k with
  | none => exact absurd hmem (lastValue?_eq_none_iff.mp hlast v)
  | some v' => rw [hone v' (mem_of_lastValue?_eq_some hlast)]

/-- A list of pairs that is the graph of a look-up at a key gives the key just that value. -/
theorem lastValue?_eq_of_graph {pairs : List (α × β)} {k : α} {value? : Option β}
    (h : ∀ v, (k, v) ∈ pairs ↔ value? = some v) : lastValue? pairs k = value? := by
  cases value? with
  | none =>
      refine lastValue?_eq_none_iff.mpr fun v hmem => ?_
      cases (h v).mp hmem
  | some value =>
      refine lastValue?_eq_some_of_mem ((h value).mpr rfl) fun v hmem => ?_
      exact (Option.some.inj ((h v).mp hmem)).symm

end LastValue

theorem get?_insertMany [DecidableEq α] (m : OrderedMap α β) (pairs : List (α × β)) (k : α) :
    (m.insertMany pairs).get? k = (lastValue? pairs k).or (m.get? k) := by
  induction pairs generalizing m with
  | nil => simp [insertMany]
  | cons e rest ih =>
      have hstep : m.insertMany (e :: rest) = (m.insert e.1 e.2).insertMany rest := rfl
      have hsplit : lastValue? (e :: rest) k = (lastValue? rest k).or (lastValue? [e] k) :=
        lastValue?_append [e] rest k
      rw [hstep, ih, hsplit, Option.or_assoc]
      congr 1
      rw [lastValue?_singleton]
      by_cases hk : e.1 = k
      · subst hk
        rw [if_pos rfl, get?_insert_self, Option.some_or]
      · rw [if_neg hk, get?_insert_ne _ _ (Ne.symm hk), Option.none_or]

omit [Std.TransOrd α] in
theorem lastValue?_entries [DecidableEq α] (m : OrderedMap α β) (k : α) :
    lastValue? m.entries k = m.get? k :=
  lastValue?_eq_of_graph fun _ => get?_eq_some_iff.symm

theorem get?_insertMany_entries [DecidableEq α] (m m' : OrderedMap α β) (k : α) :
    (m.insertMany m'.entries).get? k = (m'.get? k).or (m.get? k) := by
  rw [get?_insertMany, lastValue?_entries]

/-- What is inserted before all entries of a map are taken over may as well be inserted after. -/
theorem insertMany_insert [DecidableEq α] (m m' : OrderedMap α β) (k : α) (v : β) :
    m.insertMany (m'.insert k v).entries = (m.insertMany m'.entries).insert k v := by
  apply ext_get?
  intro k'
  rw [get?_insertMany_entries]
  by_cases hk : k' = k
  · rw [hk, get?_insert_self, get?_insert_self, Option.some_or]
  · rw [get?_insert_ne _ _ hk, get?_insert_ne _ _ hk, get?_insertMany_entries]

end StakingLedger.OrderedMap
