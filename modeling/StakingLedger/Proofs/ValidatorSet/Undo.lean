import StakingLedger.Proofs.Codec.Laws
import StakingLedger.Proofs.Store.ChangeScan
import StakingLedger.Proofs.ValidatorSet.Changes
import StakingLedger.Proofs.ValidatorSet.Current

/-! # Undoing changes

A walk over the stored changes takes every node back from height to height. The
weights go back first. A node that returns after a height without weight has
lost its key on the way; the walk over the keys gives it the one it had,
because its key changed when it left.
-/

namespace StakingLedger

open ValidatorMap

/-! ## A walk over recorded changes -/

/-- The store has what is recorded of a supernet's nodes at every height but zero. -/
structure Store.Logs {α : Type} [Codec α] (store : Store) (space : KeySpace)
    (supernet : EntityId) (record : Nat → NodeId → Option α) : Prop where
  stored : ∀ (height : UInt64) (node : NodeId), height ≠ 0 →
    store.get? (Key.change space supernet height node) =
      (record height.toNat node).map toCanonical
  fits : ∀ {k node change}, record k node = some change → Codec.fits change = true

/-- Undoing the recorded change of a height takes a node from what holds at the height to what
holds at the one before, and leaves the other nodes alone. -/
structure Undoes {α : Type} (undo : ValidatorMap → NodeId → α → Answer ValidatorMap)
    (record : Nat → NodeId → Option α)
    (holds : Nat → NodeId → Option (UInt64 × Option Bytes) → Prop) : Prop where
  quiet : ∀ {k node entry}, holds (k + 1) node entry → record (k + 1) node = none →
    holds k node entry
  undone : ∀ {k node set change}, holds (k + 1) node (set.get? node) →
    record (k + 1) node = some change → ∃ before, undo set node change = .ok before ∧
      holds k node (before.get? node) ∧ ∀ other, other ≠ node → before.get? other = set.get? other

namespace Undoes

variable {α : Type} {undo : ValidatorMap → NodeId → α → Answer ValidatorMap}
  {record : Nat → NodeId → Option α} {holds : Nat → NodeId → Option (UInt64 × Option Bytes) → Prop}

/-- Heights without a change need no undoing. -/
theorem descend (h : Undoes undo record holds) {low high : Nat} {node : NodeId}
    {entry : Option (UInt64 × Option Bytes)} (hle : low ≤ high) (hhigh : holds high node entry)
    (hnone : ∀ k, low < k → k ≤ high → record k node = none) : holds low node entry := by
  induction high, hle using Nat.le_induction with
  | base => exact hhigh
  | succ k hle ih =>
      exact ih (h.quiet hhigh (hnone (k + 1) (by omega) (by omega))) fun k' hlow hk' =>
        hnone k' hlow (by omega)

variable [Codec α] {store : Store} {space : KeySpace} {supernet : EntityId}
  {cursor : NodeId → Nat} {height : UInt64} {set : ValidatorMap} {entries : List (Bytes × Bytes)}

/-- Where no change above a height is stored, none is recorded. -/
theorem record_eq_none (hlogs : store.Logs space supernet record) {low high : Nat} {node : NodeId}
    (hhigh : high < UInt64.size)
    (habove : ∀ (k : UInt64) value, k.toNat ≤ high →
      store.get? (Key.change space supernet k node) = some value → k.toNat ≤ low) :
    ∀ k, low < k → k ≤ high → record k node = none := by
  intro k hlow hk
  have hnat : (UInt64.ofNat k).toNat = k := UInt64.toNat_ofNat_of_lt' (by omega)
  cases hrecord : record k node with
  | none => rfl
  | some change =>
      have hstored := hlogs.stored (UInt64.ofNat k) node fun hzero => by
        rw [hzero] at hnat
        change 0 = k at hnat
        omega
      rw [hnat, hrecord] at hstored
      have hle := habove (UInt64.ofNat k) _ (by omega) hstored
      omega

/-- A node goes back to a height above which no change of it is stored. -/
theorem descend_stored (h : Undoes undo record holds) (hlogs : store.Logs space supernet record)
    {low high : Nat} {node : NodeId} {entry : Option (UInt64 × Option Bytes)} (hle : low ≤ high)
    (hhigh : high < UInt64.size) (hentry : holds high node entry)
    (habove : ∀ (k : UInt64) value, k.toNat ≤ high →
      store.get? (Key.change space supernet k node) = some value → k.toNat ≤ low) :
    holds low node entry :=
  h.descend hle hentry (record_eq_none hlogs hhigh habove)

variable [LawfulCodec α]

/-- Undoing the first change that is left takes its node back to the height before. -/
theorem undo_head (h : Undoes undo record holds) (hlogs : store.Logs space supernet record)
    (what : String) {changed : UInt64} {node : NodeId} {value : Bytes}
    {rest : List (Bytes × Bytes)} (hremaining : store.Remaining space supernet cursor
      ((Key.change space supernet changed node, value) :: rest))
    (hget : store.get? (Key.change space supernet changed node) = some value)
    (hpositive : 0 < changed.toNat) (hchanged : changed.toNat ≤ cursor node)
    (hbound : cursor node < UInt64.size) (hset : ∀ node, holds (cursor node) node (set.get? node)) :
    ∃ change before, (ofCanonical value what : Answer α) = .ok change ∧
      undo set node change = .ok before ∧
      ∀ node', holds (Function.update cursor node (changed.toNat - 1) node') node'
        (before.get? node') := by
  have hnow : holds changed.toNat node (set.get? node) :=
    h.descend_stored hlogs hchanged hbound (hset node) fun k value' hk hget' =>
      hremaining.height_le hk hget'
  have hstored := hlogs.stored changed node fun hzero => by
    rw [hzero] at hpositive
    exact Nat.not_lt_zero _ hpositive
  rw [hget] at hstored
  obtain ⟨change, hrecord, rfl⟩ := Option.map_eq_some_iff.mp hstored.symm
  have hpred : changed.toNat - 1 + 1 = changed.toNat := Nat.sub_add_cancel hpositive
  obtain ⟨before, hundo, hbefore, hothers⟩ := h.undone (hpred ▸ hnow) (hpred.symm ▸ hrecord)
  refine ⟨change, before, ofCanonical_toCanonical (hlogs.fits hrecord) what, hundo, fun node' => ?_⟩
  by_cases hnode : node' = node
  · subst hnode
    rw [Function.update_self]
    exact hbefore
  · rw [Function.update_of_ne hnode, hothers node' hnode]
    exact hset node'

/-- A walk over the stored changes takes every node back from its cursor to a height. -/
theorem undoAbove_eq_ok (h : Undoes undo record holds)
    (hlogs : store.Logs space supernet record) (what : String)
    (hremaining : store.Remaining space supernet cursor entries)
    (hcursor : ∀ node, height.toNat ≤ cursor node ∧ cursor node < UInt64.size)
    (hset : ∀ node, holds (cursor node) node (set.get? node)) :
    ∃ before, State.undoAbove space what height undo set entries = .ok before ∧
      ∀ node, holds height.toNat node (before.get? node) := by
  -- By induction on the entries; what carries it is that each node is at its own cursor.
  induction entries generalizing set cursor with
  | nil =>
      refine ⟨set, rfl, fun node => ?_⟩
      refine h.descend_stored hlogs (hcursor node).1 (hcursor node).2 (hset node)
        fun k value hk hget => ?_
      exact nomatch (hremaining.mem_iff _ value).mpr ⟨k, node, hk, rfl, hget⟩
  | cons e rest ih =>
      obtain ⟨key, value⟩ := e
      obtain ⟨changed, node, hchanged, rfl, hget⟩ := hremaining.head
      have hparse := Key.parseChange_change space supernet changed node
      unfold State.undoAbove
      rw [hparse, bind_ok]
      dsimp only
      split
      next hle =>
        refine ⟨set, rfl, fun node' => ?_⟩
        refine h.descend_stored hlogs (hcursor node').1 (hcursor node').2 (hset node')
          fun k value' hk hget' => ?_
        exact Nat.le_trans (hremaining.height_le hk hget') (UInt64.le_iff_toNat_le.mp hle)
      next habove =>
        have hlow : height.toNat < changed.toNat :=
          Nat.lt_of_not_le fun hle => habove (UInt64.le_iff_toNat_le.mpr hle)
        obtain ⟨change, before, hread, hundo, hbefore⟩ := h.undo_head hlogs what hremaining hget
          (Nat.zero_lt_of_lt hlow) hchanged (hcursor node).2 hset
        rw [hread, bind_ok, hundo, bind_ok]
        refine ih (hremaining.tail (by omega) hchanged) (fun node' => ?_) hbefore
        by_cases hnode : node' = node
        · subst hnode
          have hbound := (hcursor node').2
          rw [Function.update_self]
          omega
        · rw [Function.update_of_ne hnode]
          exact hcursor node'

end Undoes

/-! ## The way back of a slot -/

/-- The entry has the weight of a slot at the height `low` and its key at `high`. The key may be
missing instead, if the slot was without weight on the way. -/
inductive Rewound (held : Nat → List Staker) (slot : Slot) (low high : Nat) :
    Option (UInt64 × Option Bytes) → Prop
  | absent (hzero : slotWeight (held low) slot = 0) : Rewound held slot low high none
  | kept {weight : UInt64} (hweight : weight.toNat = slotWeight (held low) slot)
    (hpositive : slotWeight (held low) slot ≠ 0) :
    Rewound held slot low high (some (weight, slotKey (held high) slot))
  | returned {weight : UInt64} {k : Nat} (hweight : weight.toNat = slotWeight (held low) slot)
    (hpositive : slotWeight (held low) slot ≠ 0) (hlow : low ≤ k) (hhigh : k ≤ high)
    (hzero : slotWeight (held k) slot = 0) : Rewound held slot low high (some (weight, none))

namespace Rewound

variable {held : Nat → List Staker} {slot : Slot} {low high k : Nat} {supernet : EntityId}
  {entry : Option (UInt64 × Option Bytes)} {weight : UInt64} {key : Option Bytes}

theorem of_standing (hbound : slotWeight (held k) slot < UInt64.size) :
    Rewound held slot k k (standing (held k) slot) := by
  unfold standing
  split
  next hzero => exact .absent hzero
  next hpositive => exact .kept (UInt64.toNat_ofNat_of_lt' hbound) hpositive

/-- When weight and key are both back at a height, the slot is as it was. -/
theorem eq_standing (h : Rewound held slot k k entry) : entry = standing (held k) slot := by
  cases h with
  | absent hzero => exact (if_pos hzero).symm
  | kept hweight hpositive =>
      rw [standing, if_neg hpositive, ← hweight, UInt64.ofNat_toNat]
  | returned hweight hpositive hlow hhigh hzero =>
      rw [Nat.le_antisymm hhigh hlow] at hzero
      exact absurd hzero hpositive

theorem weight_eq (h : Rewound held slot low high entry) :
    (entry.getD (0, none)).1.toNat = slotWeight (held low) slot := by
  cases h with
  | absent hzero => exact hzero.symm
  | kept hweight _ => exact hweight
  | returned hweight _ _ _ _ => exact hweight

/-- The weight goes back one height, and the key stays as it is. -/
theorem lower (h : Rewound held slot (k + 1) high entry) (hhigh : k + 1 ≤ high)
    (hweight : weight.toNat = slotWeight (held k) slot)
    (hpositive : slotWeight (held k) slot ≠ 0) :
    Rewound held slot k high (some (weight, (entry.getD (0, none)).2)) := by
  cases h with
  | absent hzero => exact .returned hweight hpositive (Nat.le_succ k) hhigh hzero
  | kept _ _ => exact .kept hweight hpositive
  | returned _ _ hlow hhigh hzero => exact .returned hweight hpositive (by omega) hhigh hzero

/-- Where the weight did not change it is back already. -/
theorem lower_quiet (h : Rewound held slot (k + 1) high entry)
    (hsame : slotWeight (held k) slot = slotWeight (held (k + 1)) slot) :
    Rewound held slot k high entry := by
  cases h with
  | absent hzero => exact .absent (hsame.trans hzero)
  | kept hweight hpositive => exact .kept (hweight.trans hsame.symm) (hsame ▸ hpositive)
  | returned hweight hpositive hlow hhigh hzero =>
      exact .returned (hweight.trans hsame.symm) (hsame ▸ hpositive) (by omega) hhigh hzero

/-- Where the key did not change it is back already; a slot without weight has no key. -/
theorem lower_key_quiet (h : Rewound held slot low (k + 1) entry)
    (hvacant : slotWeight (held (k + 1)) slot = 0 → slotKey (held (k + 1)) slot = none)
    (hsame : slotKey (held k) slot = slotKey (held (k + 1)) slot) :
    Rewound held slot low k entry := by
  cases h with
  | absent hzero => exact .absent hzero
  | kept hweight hpositive => exact hsame ▸ .kept hweight hpositive
  | @returned _ k' hweight hpositive hlow hhigh hzero =>
      by_cases heq : k' = k + 1
      · subst heq
        rw [← hvacant hzero, ← hsame]
        exact .kept hweight hpositive
      · exact .returned hweight hpositive hlow (by omega) hzero

end Rewound

/-! ## The two walks -/

section Walks

variable {held : Nat → List Staker} {supernet : EntityId}

/-- Undoing a change of weight gives the weight before; a node is gone with its weight. -/
theorem undoWeight_eq_ok {set : ValidatorMap} {node : NodeId} {change : WeightChange}
    {before : UInt64} (hchange : change.toInt =
      ((set.get? node).getD (0, none)).1.toNat - before.toNat) :
    set.undoWeight node change = .ok (if before = 0 then set.erase node
      else set.insert node (before, ((set.get? node).getD (0, none)).2)) := by
  obtain ⟨decrease, amount⟩ := change
  unfold undoWeight
  dsimp only
  cases decrease with
  | true =>
      have hvalue : -(amount.toNat : Int) =
          ((set.get? node).getD (0, none)).1.toNat - before.toNat := hchange
      have hsum : checkedAdd ((set.get? node).getD (0, none)).1 amount "historical weight" =
          .ok before := checkedAdd_eq_ok_iff.mpr (by omega)
      rw [if_pos rfl, hsum, bind_ok]
      rfl
  | false =>
      have hvalue : (amount.toNat : Int) =
          ((set.get? node).getD (0, none)).1.toNat - before.toNat := hchange
      have hdifference : checkedSub ((set.get? node).getD (0, none)).1 amount
          "historical weight" = .ok before := checkedSub_eq_ok_iff.mpr (by omega)
      rw [if_neg Bool.false_ne_true, hdifference, bind_ok]
      rfl

theorem undoWeight_undoes (hsound : ∀ k, SoundStakers (held k)) (tip : Nat) :
    Undoes undoWeight (fun k node => weightRecord (held (k - 1)) (held k) ⟨supernet, node⟩)
      (fun k node entry => k ≤ tip ∧ Rewound held ⟨supernet, node⟩ k tip entry) where
  quiet {k node entry} h hrecord := by
    refine ⟨by omega, h.2.lower_quiet ?_⟩
    unfold weightRecord at hrecord
    split at hrecord
    next hsame => exact hsame
    next => cases hrecord
  undone {k node set change} h hrecord := by
    obtain ⟨hk, hentry⟩ := h
    have hbound := (hsound k).bounded ⟨supernet, node⟩
    obtain ⟨weight, hweight⟩ : ∃ weight : UInt64,
        weight.toNat = slotWeight (held k) ⟨supernet, node⟩ :=
      ⟨UInt64.ofNat _, UInt64.toNat_ofNat_of_lt' hbound⟩
    have hchange := toInt_of_weightRecord hbound ((hsound (k + 1)).bounded _) hrecord
    rw [← hentry.weight_eq, ← hweight] at hchange
    refine ⟨_, undoWeight_eq_ok hchange, ⟨by omega, ?_⟩, fun other hother => ?_⟩
    · split
      next hzero =>
        rw [OrderedMap.get?_erase_self]
        exact .absent (hweight ▸ congrArg UInt64.toNat hzero)
      next hpositive =>
        rw [OrderedMap.get?_insert_self]
        exact hentry.lower hk hweight fun hzero =>
          hpositive (UInt64.toNat_inj.mp (hweight.trans hzero))
    · split
      · exact OrderedMap.get?_erase_ne _ hother
      · exact OrderedMap.get?_insert_ne _ _ hother

theorem undoKey_undoes (hsound : ∀ k, SoundStakers (held k)) (low : Nat) :
    Undoes (fun set node previous => .ok (set.undoKey node previous))
      (fun k node => keyRecord (held (k - 1)) (held k) ⟨supernet, node⟩)
      (fun k node entry => Rewound held ⟨supernet, node⟩ low k entry) where
  quiet {k node entry} h hrecord := by
    refine h.lower_key_quiet (slotKey_eq_none (hsound (k + 1))) ?_
    unfold keyRecord at hrecord
    split at hrecord
    next hsame => exact hsame
    next => cases hrecord
  undone {k node set change} h hrecord := by
    refine ⟨_, rfl, ?_, fun other hother => ?_⟩
    · have hkey : slotKey (held k) ⟨supernet, node⟩ = change := by
        unfold keyRecord at hrecord
        split at hrecord
        · cases hrecord
        next => exact Option.some.inj hrecord
      rw [undoKey, ← hkey]
      generalize hentry : set.get? node = entry at h
      cases h with
      | absent hzero =>
          dsimp only
          rw [hentry]
          exact .absent hzero
      | kept hweight hpositive =>
          dsimp only
          rw [OrderedMap.get?_insert_self]
          exact .kept hweight hpositive
      | returned hweight hpositive _ _ _ =>
          dsimp only
          rw [OrderedMap.get?_insert_self]
          exact .kept hweight hpositive
    · unfold undoKey
      split
      · exact OrderedMap.get?_insert_ne _ _ hother
      · rfl

end Walks

/-! ## The set at a past height -/

namespace Store.Remembers

variable {store : Store} {held : Nat → List Staker}

theorem logs_weights (h : store.Remembers held) (supernet : EntityId) :
    store.Logs .weightChange supernet fun k node =>
      weightRecord (held (k - 1)) (held k) ⟨supernet, node⟩ where
  stored height node hne := h.weights height ⟨supernet, node⟩ hne
  fits _ := rfl

theorem logs_keys (h : store.Remembers held) (supernet : EntityId) :
    store.Logs .publicKeyChange supernet fun k node =>
      keyRecord (held (k - 1)) (held k) ⟨supernet, node⟩ where
  stored height node hne := h.keys height ⟨supernet, node⟩ hne
  fits {k node previous} hrecord := by
    unfold keyRecord at hrecord
    split at hrecord
    · cases hrecord
    next =>
      cases hrecord
      unfold slotKey
      cases hfind : (inSlot (held (k - 1)) ⟨supernet, node⟩).find? Staker.isValidator with
      | none => rfl
      | some v =>
          have hmem := (mem_inSlot.mp (List.mem_of_find?_eq_some hfind)).1
          have hfits := h.encoded (k - 1) v hmem
          exact (Bool.and_eq_true_iff.mp
            (Bool.and_eq_true_iff.mp (Bool.and_eq_true_iff.mp hfits).2).2).1

/-- The two walks lead from the set of a series at `tip` to the set at an earlier height. -/
theorem describes_undone (h : store.Remembers held) (hkeyed : store.Keyed)
    (hsound : ∀ k, SoundStakers (held k)) {supernet : EntityId} {height tip : UInt64}
    (hle : height.toNat ≤ tip.toNat) {set : ValidatorMap}
    (hset : set.Describes (held tip.toNat) supernet) (what what' : String) :
    ∃ weights keys,
      State.undoAbove .weightChange what height undoWeight set (store.scanFrom
        (KeySpace.weightChange.idKey supernet) (Key.changeScanStart .weightChange supernet tip)) =
          .ok weights ∧
      State.undoAbove .publicKeyChange what' height
        (fun set node previous => .ok (set.undoKey node previous)) weights (store.scanFrom
          (KeySpace.publicKeyChange.idKey supernet)
          (Key.changeScanStart .publicKeyChange supernet tip)) = .ok keys ∧
      keys.Describes (held height.toNat) supernet := by
  have hcursor : ∀ _ : NodeId, height.toNat ≤ tip.toNat ∧ tip.toNat < UInt64.size := fun _ =>
    ⟨hle, tip.toNat_lt_size⟩
  obtain ⟨weights, hweights, hlow⟩ := (undoWeight_undoes hsound tip.toNat).undoAbove_eq_ok
    (h.logs_weights supernet) what (remaining_scanFrom rfl hkeyed supernet tip) hcursor
    fun node => ⟨Nat.le_refl _, by
      rw [hset node]
      exact .of_standing ((hsound _).bounded _)⟩
  obtain ⟨keys, hkeys, hback⟩ := (undoKey_undoes hsound height.toNat).undoAbove_eq_ok
    (h.logs_keys supernet) what' (remaining_scanFrom rfl hkeyed supernet tip) hcursor
    fun node => (hlow node).2
  exact ⟨weights, keys, hweights, hkeys, fun node => (hback node).eq_standing⟩

end Store.Remembers

end StakingLedger
