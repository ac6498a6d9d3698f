import Mathlib.Logic.Function.Basic
import StakingLedger.Proofs.Store.Batch
import StakingLedger.Proofs.Store.Scan

/-! # Scans of changes

The keys of a supernet's changes have the height complemented, so a scan meets
the changes of later heights first. A cursor for each node tells the height
from which on down its changes are still to come.
-/

namespace StakingLedger

namespace Key

variable {lead : Bytes} {space : KeySpace} {supernet supernet' : EntityId}
  {height height' tip : UInt64} {node node' : NodeId} {key : Bytes}

theorem compare_invertedHeight (a b : UInt64) :
    compare (invertedHeight a) (invertedHeight b) = compare b.toNat a.toNat := by
  have ha := a.toNat_lt_size
  have hb := b.toNat_lt_size
  rw [invertedHeight, invertedHeight, compare_wordBytes, UInt64.toNat_not, UInt64.toNat_not]
  rcases Nat.lt_trichotomy b.toNat a.toNat with h | h | h
  · rw [Nat.compare_eq_lt.mpr h, Nat.compare_eq_lt]
    omega
  · rw [Nat.compare_eq_eq.mpr h, h, Nat.compare_eq_eq]
  · rw [Nat.compare_eq_gt.mpr h, Nat.compare_eq_gt]
    omega

/-- The later height comes first, and at one height the lower node. -/
theorem compare_changeUnder :
    compare (changeUnder lead supernet height node) (changeUnder lead supernet height' node') =
      (compare height'.toNat height.toNat).then (compare node node') := by
  simp only [changeUnder, List.append_assoc, Bytes.compare_append_left]
  rw [Bytes.compare_append (by simp [invertedHeight]), compare_invertedHeight]
  rfl

/-- A change that is met later was not made later. -/
theorem height_le_of_compare_change
    (h : compare (change space supernet height node) (change space supernet height' node') = .lt) :
    height'.toNat ≤ height.toNat := by
  rw [change, change, compare_changeUnder] at h
  refine Decidable.byContradiction fun hlt => ?_
  rw [Nat.compare_eq_gt.mpr (Nat.lt_of_not_le hlt), Ordering.gt_then] at h
  cases h

/-- A scan from the start for a height meets the changes up to that height. -/
theorem changeScanStartUnder_not_gt :
    compare (changeScanStartUnder lead supernet tip) (changeUnder lead supernet height node) ≠ .gt ↔
      height ≤ tip := by
  have hfront : compare (invertedHeight tip ++ []) (invertedHeight height ++ node.toList) =
      (compare height.toNat tip.toNat).then .lt := by
    rw [Bytes.compare_append (by simp [invertedHeight]), compare_invertedHeight]
    congr 1
    cases hnode : node.toList with
    | nil =>
        have hlength := node.length_toList
        rw [hnode] at hlength
        cases hlength
    | cons x rest => exact List.compare_nil_cons
  simp only [changeScanStartUnder, changeUnder, List.append_assoc, Bytes.compare_append_left]
  rw [← List.append_nil (invertedHeight tip), hfront, UInt64.le_iff_toNat_le]
  rcases Nat.lt_trichotomy height.toNat tip.toNat with h | h | h
  · rw [Nat.compare_eq_lt.mpr h]
    exact iff_of_true (by decide) (Nat.le_of_lt h)
  · rw [Nat.compare_eq_eq.mpr h]
    exact iff_of_true (by decide) (Nat.le_of_eq h)
  · rw [Nat.compare_eq_gt.mpr h]
    exact iff_of_false (by decide) (Nat.not_le.mpr h)

/-- Bytes of the length of a change suffix are a supernet, a height and a node. -/
theorem exists_changeUnder {suffix : Bytes} (lead : Bytes)
    (h : suffix.length = changeSuffixLength) :
    ∃ supernet height node, lead ++ suffix = changeUnder lead supernet height node := by
  have hsuffix : suffix.length = 60 := h
  obtain ⟨word, hword⟩ : ∃ word, (suffix.drop 32).take 8 = wordBytes word :=
    exists_wordBytes (by simp [hsuffix])
  refine ⟨⟨suffix.take 32, by simp [hsuffix]⟩, ~~~ word, ⟨suffix.drop 40, by simp [hsuffix]⟩, ?_⟩
  have hrest : wordBytes word ++ suffix.drop 40 = suffix.drop 32 := by
    rw [← hword, show 40 = 32 + 8 from rfl, ← List.drop_drop, List.take_append_drop]
  simp only [changeUnder, invertedHeight, UInt64.not_not, List.append_assoc, hrest,
    List.take_append_drop]

theorem prefix_changeUnder :
    lead ++ supernet.toList <+: changeUnder lead supernet' height node ↔ supernet = supernet' := by
  simp only [changeUnder, List.append_assoc, List.prefix_append_right_inj,
    FixedBytes.prefix_append]

theorem parseChangeUnder_changeUnder (lead : Bytes) (supernet : EntityId) (height : UInt64)
    (node : NodeId) :
    parseChangeUnder lead (changeUnder lead supernet height node) =
      .ok (supernet, height, node) := by
  have hdrop : dropLead? lead (changeUnder lead supernet height node) =
      some (supernet.toList ++ (wordBytes (~~~ height) ++ node.toList)) := by
    rw [dropLead?_eq_some_iff]
    simp only [changeUnder, invertedHeight, List.append_assoc]
  have hsupernet := supernet.length_toList
  have hnode := node.length_toList
  have hlength : (supernet.toList ++ (wordBytes (~~~ height) ++ node.toList)).length =
      changeSuffixLength := by
    simp [hsupernet, hnode, changeSuffixLength]
  have htake : (supernet.toList ++ (wordBytes (~~~ height) ++ node.toList)).take 32 =
      supernet.toList := List.take_left' hsupernet
  have hmiddle : (supernet.toList ++ (wordBytes (~~~ height) ++ node.toList)).drop 32 =
      wordBytes (~~~ height) ++ node.toList := List.drop_left' hsupernet
  have hword : (wordBytes (~~~ height) ++ node.toList).take 8 = wordBytes (~~~ height) :=
    List.take_left' (length_wordBytes _)
  have htail : (supernet.toList ++ (wordBytes (~~~ height) ++ node.toList)).drop 40 =
      node.toList := by
    rw [show 40 = 32 + 8 from rfl, ← List.drop_drop, hmiddle]
    exact List.drop_left' (length_wordBytes _)
  have hid : identifier (EntityId.ofBytes supernet.toList) = .ok supernet :=
    identifier_eq_ok_iff.mpr (EntityId.ofBytes_eq_ok_iff.mpr rfl)
  have hnodeId : identifier (NodeId.ofBytes node.toList) = .ok node :=
    identifier_eq_ok_iff.mpr (NodeId.ofBytes_eq_ok_iff.mpr rfl)
  unfold parseChangeUnder
  rw [hdrop]
  simp only [pure_bind, hlength, ne_eq, not_true_eq_false, if_false, htake, hmiddle, hword, htail,
    hid, hnodeId, bind_ok, ofBigEndian_wordBytes, UInt64.not_not]
  rfl

/-- What is not the key of a change under the lead is not parsed. -/
theorem exists_of_parseChangeUnder {parts : EntityId × UInt64 × NodeId}
    (h : parseChangeUnder lead key = .ok parts) :
    ∃ supernet height node, key = changeUnder lead supernet height node := by
  unfold parseChangeUnder at h
  cases hdrop : dropLead? lead key with
  | none => rw [hdrop] at h; cases h
  | some suffix =>
      rw [hdrop] at h
      simp only [pure_bind] at h
      split at h
      next => cases h
      next hlength =>
        obtain ⟨supernet, height, node, heq⟩ := exists_changeUnder lead (not_not.mp hlength)
        exact ⟨supernet, height, node, (dropLead?_eq_some_iff.mp hdrop).trans heq⟩

/-- The parts of a change are parsed from its key and from no other. -/
theorem parseChangeUnder_eq_ok_iff :
    parseChangeUnder lead key = .ok (supernet, height, node) ↔
      key = changeUnder lead supernet height node := by
  constructor
  · intro h
    obtain ⟨supernet', height', node', rfl⟩ := exists_of_parseChangeUnder h
    rw [parseChangeUnder_changeUnder] at h
    cases h
    rfl
  · rintro rfl
    exact parseChangeUnder_changeUnder lead supernet height node

theorem parseChange_change (space : KeySpace) (supernet : EntityId) (height : UInt64)
    (node : NodeId) :
    parseChange space (change space supernet height node) = .ok (supernet, height, node) :=
  parseChangeUnder_changeUnder space.bytes supernet height node

end Key

namespace Store

variable {store : Store} {lead : Bytes} {space : KeySpace} {supernet : EntityId}
  {cursor : NodeId → Nat} {height tip : UInt64} {node : NodeId}
  {entries rest : List (Bytes × Bytes)} {key value : Bytes}

/-! ## Changes under a lead -/

/-- Whatever begins with the lead is the key of a change. -/
def ChangesUnder (store : Store) (lead : Bytes) : Prop :=
  ∀ key value, store.get? key = some value → lead <+: key →
    ∃ supernet height node, key = Key.changeUnder lead supernet height node

theorem Keyed.changesUnder (h : store.Keyed) (hwidth : space.width = Key.changeSuffixLength) :
    store.ChangesUnder space.bytes := by
  intro key value hget hlead
  obtain ⟨space', hnames⟩ := h key value hget
  cases hnames.of_lead hlead
  obtain ⟨suffix, rfl, hlength⟩ := hnames
  exact Key.exists_changeUnder space.bytes (hlength.trans hwidth)

/-- The keys that begin like those of a supernet's changes are such keys. -/
theorem ChangesUnder.exists_change (h : store.ChangesUnder lead)
    (hget : store.get? key = some value) (hlead : lead ++ supernet.toList <+: key) :
    ∃ height node, key = Key.changeUnder lead supernet height node := by
  obtain ⟨supernet', height, node, rfl⟩ :=
    h key value hget ((List.prefix_append _ _).trans hlead)
  cases Key.prefix_changeUnder.mp hlead
  exact ⟨height, node, rfl⟩

/-- A scan of a supernet's changes for a height finds those up to the height. -/
theorem mem_scanFrom_changeUnder :
    (Key.changeUnder lead supernet height node, value) ∈
        store.scanFrom (lead ++ supernet.toList) (Key.changeScanStartUnder lead supernet tip) ↔
      height ≤ tip ∧ store.get? (Key.changeUnder lead supernet height node) = some value := by
  rw [mem_scanFrom, Key.changeScanStartUnder_not_gt, Key.prefix_changeUnder]
  constructor
  · exact fun ⟨hget, _, hheight⟩ => ⟨hheight, hget⟩
  · exact fun ⟨hheight, hget⟩ => ⟨hget, rfl, hheight⟩

/-! ## What a scan still has to meet -/

/-- The entries are the changes of a supernet up to the cursor of each node, newest first. -/
structure Remaining (store : Store) (space : KeySpace) (supernet : EntityId)
    (cursor : NodeId → Nat) (entries : List (Bytes × Bytes)) : Prop where
  ascending : Ascending entries
  mem_iff : ∀ key value, (key, value) ∈ entries ↔ ∃ (height : UInt64) (node : NodeId),
    height.toNat ≤ cursor node ∧ key = Key.change space supernet height node ∧
      store.get? key = some value

theorem remaining_scanFrom (hwidth : space.width = Key.changeSuffixLength) (hkeyed : store.Keyed)
    (supernet : EntityId) (tip : UInt64) :
    store.Remaining space supernet (fun _ => tip.toNat)
      (store.scanFrom (space.idKey supernet) (Key.changeScanStart space supernet tip)) where
  ascending := store.scanFrom_ascending _ _
  mem_iff key value := by
    constructor
    · intro hmem
      obtain ⟨hget, hlead, -⟩ := mem_scanFrom.mp hmem
      obtain ⟨height, node, rfl⟩ := (hkeyed.changesUnder hwidth).exists_change hget hlead
      have hle := (mem_scanFrom_changeUnder.mp hmem).1
      exact ⟨height, node, UInt64.le_iff_toNat_le.mp hle, rfl, hget⟩
    · rintro ⟨height, node, hle, rfl, hget⟩
      exact mem_scanFrom_changeUnder.mpr ⟨UInt64.le_iff_toNat_le.mpr hle, hget⟩

namespace Remaining

/-- No entry is of a greater height than the first one. -/
theorem height_le (h : store.Remaining space supernet cursor
    ((Key.change space supernet height node, value) :: rest)) {height' : UInt64} {node' : NodeId}
    (hle : height'.toNat ≤ cursor node') {value' : Bytes}
    (hget : store.get? (Key.change space supernet height' node') = some value') :
    height'.toNat ≤ height.toNat := by
  have hmem := (h.mem_iff _ value').mpr ⟨height', node', hle, rfl, hget⟩
  rcases List.mem_cons.mp hmem with heq | hrest
  · rw [(Key.change_inj.mp (congrArg Prod.fst heq)).2.1]
  · exact Key.height_le_of_compare_change ((List.pairwise_cons.mp h.ascending).1 _ hrest)

theorem head (h : store.Remaining space supernet cursor ((key, value) :: rest)) :
    ∃ (height : UInt64) (node : NodeId), height.toNat ≤ cursor node ∧
      key = Key.change space supernet height node ∧ store.get? key = some value :=
  (h.mem_iff key value).mp List.mem_cons_self

/-- After the first entry the changes of its node below it are still to come. -/
theorem tail (h : store.Remaining space supernet cursor
    ((Key.change space supernet height node, value) :: rest)) (hpositive : height.toNat ≠ 0)
    (hle : height.toNat ≤ cursor node) :
    store.Remaining space supernet (Function.update cursor node (height.toNat - 1)) rest where
  ascending := (List.pairwise_cons.mp h.ascending).2
  mem_iff key' value' := by
    have hbelow := (List.pairwise_cons.mp h.ascending).1
    constructor
    · intro hrest
      obtain ⟨height', node', hle', rfl, hget⟩ :=
        (h.mem_iff key' value').mp (List.mem_cons_of_mem _ hrest)
      refine ⟨height', node', ?_, rfl, hget⟩
      by_cases hnode : node' = node
      · subst hnode
        have hheight := Key.height_le_of_compare_change (hbelow _ hrest)
        have hne : height' ≠ height := by
          rintro rfl
          exact OrderedMap.ne_of_compare_lt (hbelow _ hrest) rfl
        have hnat : height'.toNat ≠ height.toNat := fun heq => hne (UInt64.toNat_inj.mp heq)
        rw [Function.update_self]
        omega
      · rwa [Function.update_of_ne hnode]
    -- Below the cursor that was moved nothing is the entry that has been read.
    · rintro ⟨height', node', hle', rfl, hget⟩
      have hother : ¬ (node' = node ∧ height' = height) := by
        rintro ⟨rfl, rfl⟩
        rw [Function.update_self] at hle'
        omega
      have hcursor : height'.toNat ≤ cursor node' := by
        by_cases hnode : node' = node
        · subst hnode
          rw [Function.update_self] at hle'
          omega
        · rwa [Function.update_of_ne hnode] at hle'
      have hmem := (h.mem_iff _ value').mpr ⟨height', node', hcursor, rfl, hget⟩
      rcases List.mem_cons.mp hmem with heq | hrest
      · obtain ⟨_, rfl, rfl⟩ := Key.change_inj.mp (congrArg Prod.fst heq)
        exact absurd ⟨rfl, rfl⟩ hother
      · exact hrest

end Remaining

end Store

end StakingLedger
