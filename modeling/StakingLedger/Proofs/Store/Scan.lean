import StakingLedger.Proofs.OrderedMap.Index
import StakingLedger.Store.Basic

/-! # What a scan finds

Byte strings are ordered lexicographically, so the keys that begin with a lead
stand next to each other, none of them below the lead. A scan therefore finds
every such key from its start on, and nothing else.
-/

namespace StakingLedger

namespace Bytes

theorem compare_append_left (lead a b : Bytes) : compare (lead ++ a) (lead ++ b) = compare a b := by
  induction lead with
  | nil => rfl
  | cons x lead ih =>
      rw [List.cons_append, List.cons_append, List.compare_cons_cons, ih,
        Std.ReflOrd.compare_self, Ordering.eq_then]

theorem compare_lead_ne_gt {lead key : Bytes} (h : lead <+: key) : compare lead key ≠ .gt := by
  obtain ⟨rest, rfl⟩ := h
  have hlead := compare_append_left lead [] rest
  rw [List.append_nil] at hlead
  rw [hlead]
  cases rest with
  | nil => rw [Std.ReflOrd.compare_self]; decide
  | cons x rest => rw [List.compare_nil_cons]; decide

/-- Between a lead and a key that begins with it there are only keys that begin with it. -/
theorem lead_of_between {lead key key' : Bytes} (hlow : compare lead key ≠ .gt)
    (hlt : compare key key' = .lt) (h : lead <+: key') : lead <+: key := by
  -- By induction on the lead: between `x :: lead` and a key with it, the first byte can only be
  -- `x`.
  induction lead generalizing key key' with
  | nil => exact List.nil_prefix
  | cons x lead ih =>
      obtain ⟨rest, rfl⟩ := h
      cases key with
      | nil => rw [List.compare_cons_nil] at hlow; exact absurd rfl hlow
      | cons y key =>
          rw [List.cons_append, List.compare_cons_cons] at hlt
          rw [List.compare_cons_cons] at hlow
          have hxy : x = y := by
            cases hcmp : compare x y with
            | eq => exact Std.LawfulEqCmp.eq_of_compare hcmp
            | gt => rw [hcmp, Ordering.gt_then] at hlow; exact absurd rfl hlow
            | lt =>
                rw [Std.OrientedCmp.gt_of_lt hcmp, Ordering.gt_then] at hlt
                cases hlt
          subst hxy
          rw [Std.ReflOrd.compare_self, Ordering.eq_then] at hlow hlt
          exact List.cons_prefix_cons.mpr ⟨rfl, ih hlow hlt ⟨rest, rfl⟩⟩

end Bytes

namespace Store

/-- Entries in strictly increasing key order. -/
abbrev Ascending (entries : List (Bytes × Bytes)) : Prop :=
  entries.Pairwise fun a b => compare a.1 b.1 = .lt

theorem dropWhile_below_eq_filter {entries : List (Bytes × Bytes)} (h : Ascending entries)
    (start : Bytes) :
    entries.dropWhile (fun e => (compare e.1 start).isLT) =
      entries.filter fun e => !(compare e.1 start).isLT := by
  induction entries with
  | nil => rfl
  | cons e rest ih =>
      obtain ⟨hhead, htail⟩ := List.pairwise_cons.mp h
      by_cases hlt : (compare e.1 start).isLT = true
      · rw [List.dropWhile_cons, if_pos hlt, List.filter_cons_of_neg (by simp [hlt]), ih htail]
      · rw [List.dropWhile_cons, if_neg hlt, eq_comm, List.filter_eq_self]
        intro e' he'
        rcases List.mem_cons.mp he' with rfl | he'
        · rw [Bool.not_eq_true', ← Bool.not_eq_true]
          exact hlt
        · rw [Bool.not_eq_true', ← Bool.not_eq_true, Ordering.isLT_iff_eq_lt]
          intro hlt'
          exact hlt (Ordering.isLT_iff_eq_lt.mpr (Std.TransCmp.lt_trans (hhead e' he') hlt'))

theorem takeWhile_lead_eq_filter {entries : List (Bytes × Bytes)} (h : Ascending entries)
    {lead : Bytes} (hlow : ∀ e ∈ entries, compare lead e.1 ≠ .gt) :
    entries.takeWhile (fun e => lead.isPrefixOf e.1) =
      entries.filter fun e => lead.isPrefixOf e.1 := by
  induction entries with
  | nil => rfl
  | cons e rest ih =>
      obtain ⟨hhead, htail⟩ := List.pairwise_cons.mp h
      by_cases hlead : lead.isPrefixOf e.1 = true
      · rw [List.takeWhile_cons, if_pos hlead, List.filter_cons, if_pos hlead,
          ih htail fun e' he' => hlow e' (List.mem_cons_of_mem _ he')]
      · rw [List.takeWhile_cons, if_neg hlead, List.filter_cons, if_neg hlead, eq_comm,
          List.filter_eq_nil_iff]
        intro e' he' hlead'
        exact hlead (List.isPrefixOf_iff_prefix.mpr (Bytes.lead_of_between
          (hlow e List.mem_cons_self) (hhead e' he') (List.isPrefixOf_iff_prefix.mp hlead')))

theorem not_below_iff {key start : Bytes} :
    (!(compare key start).isLT) = true ↔ compare start key ≠ .gt := by
  rw [Bool.not_eq_true', ← Bool.not_eq_true, Ordering.isLT_iff_eq_lt,
    ← @Std.OrientedCmp.gt_iff_lt _ compare]

/-- A key is not below the later of two keys when it is below neither. -/
theorem not_below_laterKey_iff {key a b : Bytes} :
    (!(compare key (laterKey a b)).isLT) = true ↔ compare a key ≠ .gt ∧ compare b key ≠ .gt := by
  rw [not_below_iff]
  unfold laterKey
  split
  next hgt =>
    have hle : compare b a ≠ .gt := by
      rw [Ordering.isGT_iff_eq_gt] at hgt
      rw [Std.OrientedCmp.lt_of_gt hgt]
      decide
    refine ⟨fun h => ⟨h, ?_⟩, And.left⟩
    rw [ne_eq, ← Ordering.isLE_iff_ne_gt] at h hle ⊢
    exact Std.TransCmp.isLE_trans hle h
  next hgt =>
    have hle : compare a b ≠ .gt := fun h => hgt (Ordering.isGT_iff_eq_gt.mpr h)
    refine ⟨fun h => ⟨?_, h⟩, And.right⟩
    rw [ne_eq, ← Ordering.isLE_iff_ne_gt] at h hle ⊢
    exact Std.TransCmp.isLE_trans hle h

/-- A scan from a start finds the keys that begin with the lead and are not below the start. -/
theorem scanFrom_eq_filter (store : Store) (lead start : Bytes) :
    store.scanFrom lead start = store.entries.entries.filter fun e =>
      lead.isPrefixOf e.1 && !(compare e.1 start).isLT := by
  have hsorted : Ascending store.entries.entries := store.entries.sorted
  rw [scanFrom, entriesFrom, dropWhile_below_eq_filter hsorted, takeWhile_lead_eq_filter
    (hsorted.filter _), List.filter_filter]
  · refine List.filter_congr fun e _ => ?_
    by_cases hlead : lead.isPrefixOf e.1 = true
    · have hlow := Bytes.compare_lead_ne_gt (List.isPrefixOf_iff_prefix.mp hlead)
      rw [hlead, Bool.true_and, Bool.true_and, Bool.eq_iff_iff, not_below_laterKey_iff,
        not_below_iff]
      exact ⟨And.left, fun h => ⟨h, hlow⟩⟩
    · simp [hlead]
  · intro e he
    exact (not_below_laterKey_iff.mp (List.mem_filter.mp he).2).2

theorem scan_eq_filter (store : Store) (lead : Bytes) :
    store.scan lead = store.entries.entries.filter fun e => lead.isPrefixOf e.1 := by
  rw [scan, scanFrom_eq_filter]
  refine List.filter_congr fun e _ => ?_
  by_cases hlead : lead.isPrefixOf e.1 = true
  · rw [hlead, Bool.true_and, not_below_iff]
    exact Bytes.compare_lead_ne_gt (List.isPrefixOf_iff_prefix.mp hlead)
  · simp [hlead]

theorem scanFrom_ascending (store : Store) (lead start : Bytes) :
    Ascending (store.scanFrom lead start) := by
  rw [scanFrom_eq_filter]
  exact store.entries.sorted.filter _

theorem scan_ascending (store : Store) (lead : Bytes) : Ascending (store.scan lead) :=
  store.scanFrom_ascending lead lead

theorem mem_scan {store : Store} {lead key value : Bytes} :
    (key, value) ∈ store.scan lead ↔ store.get? key = some value ∧ lead <+: key := by
  rw [scan_eq_filter, List.mem_filter, ← OrderedMap.get?_eq_some_iff, get?]
  exact and_congr_right fun _ => List.isPrefixOf_iff_prefix

theorem mem_scanFrom {store : Store} {lead start key value : Bytes} :
    (key, value) ∈ store.scanFrom lead start ↔
      store.get? key = some value ∧ lead <+: key ∧ compare start key ≠ .gt := by
  rw [scanFrom_eq_filter, List.mem_filter, ← OrderedMap.get?_eq_some_iff, get?, Bool.and_eq_true,
    not_below_iff]
  exact and_congr_right fun _ => and_congr_left fun _ => List.isPrefixOf_iff_prefix

end Store

end StakingLedger
