import StakingLedger.Proofs.State.Commit
import StakingLedger.Proofs.ValidatorSet.Weight

/-! # The changes that a store remembers

The store remembers a series of current sets, one for each height, when it has
for every height and slot just the changes against the height before: of the
weight, if it changed, and the key that was there before, if the key changed. A
commit goes on with the series.
-/

namespace StakingLedger

open OrderedMap

/-! ## What is recorded of a change -/

/-- What is recorded of a change of weight. -/
def weightRecord (before after : List Staker) (slot : Slot) : Option WeightChange :=
  if slotWeight before slot = slotWeight after slot then none
  else some ⟨decide (slotWeight after slot < slotWeight before slot),
    UInt64.ofNat (max (slotWeight before slot) (slotWeight after slot) -
      min (slotWeight before slot) (slotWeight after slot))⟩

/-- What is recorded of a change of key: the key before. -/
def keyRecord (before after : List Staker) (slot : Slot) : Option (Option Bytes) :=
  if slotKey before slot = slotKey after slot then none else some (slotKey before slot)

variable {before after : List Staker} {slot slot' : Slot} {height height' : UInt64}
  {space space' : KeySpace}

theorem weightRecord_self (held : List Staker) (slot : Slot) : weightRecord held held slot = none :=
  if_pos rfl

theorem keyRecord_self (held : List Staker) (slot : Slot) : keyRecord held held slot = none :=
  if_pos rfl

theorem weightRecord_eq {change : WeightChange}
    (h : change.toInt = slotWeight after slot - slotWeight before slot) :
    weightRecord before after slot = if change.isZero then none else some change := by
  obtain ⟨decrease, amount⟩ := change
  have hzero : WeightChange.isZero ⟨decrease, amount⟩ = true ↔ amount.toNat = 0 := by
    rw [WeightChange.isZero, beq_iff_eq, ← UInt64.toNat_inj]
    rfl
  unfold WeightChange.toInt at h
  dsimp only at h
  unfold weightRecord
  by_cases heq : slotWeight before slot = slotWeight after slot
  · rw [if_pos heq, if_pos]
    rw [hzero]
    split at h <;> omega
  · rw [if_neg heq, if_neg]
    · congr 2
      · cases decrease <;> simp at h ⊢ <;> omega
      · rw [← UInt64.toNat_inj]
        have hdifference : max (slotWeight before slot) (slotWeight after slot) -
            min (slotWeight before slot) (slotWeight after slot) = amount.toNat := by
          split at h <;> omega
        rw [hdifference, UInt64.ofNat_toNat]
    · rw [hzero]
      split at h <;> omega

theorem toInt_of_weightRecord {change : WeightChange} (hbefore : slotWeight before slot < UInt64.size)
    (hafter : slotWeight after slot < UInt64.size)
    (h : weightRecord before after slot = some change) :
    change.toInt = slotWeight after slot - slotWeight before slot := by
  unfold weightRecord at h
  split at h
  · cases h
  next hne =>
    cases h
    have hamount : (UInt64.ofNat (max (slotWeight before slot) (slotWeight after slot) -
        min (slotWeight before slot) (slotWeight after slot))).toNat = _ :=
      UInt64.toNat_ofNat_of_lt' (by omega)
    unfold WeightChange.toInt
    dsimp only
    rw [hamount]
    split
    next hdecrease =>
      have hlt := of_decide_eq_true hdecrease
      omega
    next hincrease =>
      have hge := of_decide_eq_false (Bool.eq_false_iff.mpr hincrease)
      omega

/-! ## The keys of changes -/

/-- The key of a change in a slot at a height. -/
def changeKey (space : KeySpace) (slot : Slot) (height : UInt64) : Bytes :=
  Key.change space slot.supernetId height slot.nodeId

theorem changeKey_inj :
    changeKey space slot height = changeKey space slot' height' ↔ slot = slot' ∧ height = height' := by
  rw [changeKey, changeKey, Key.change_inj]
  constructor
  · rintro ⟨hsupernet, hheight, hnode⟩
    exact ⟨by cases slot; cases slot'; cases hsupernet; cases hnode; rfl, hheight⟩
  · rintro ⟨rfl, rfl⟩
    exact ⟨rfl, rfl, rfl⟩

theorem changeKey_ne (h : space ≠ space') (slot slot' : Slot) (height height' : UInt64) :
    changeKey space slot height ≠ changeKey space' slot' height' := by
  intro heq
  simp only [changeKey, Key.change_eq, KeySpace.idKey, List.append_assoc] at heq
  exact h (KeySpace.eq_of_append_eq heq)

/-! ## What a flush records -/

namespace SlotDiffs

variable {diffs : SlotDiffs} {history : List (Bytes × Bytes)}

theorem exists_historyWrites (h : diffs.historyWrites height = .ok history) {d : SlotDiff}
    (hget : diffs.get? slot = some d) : ∃ writes, d.historyWrites height slot = .ok writes := by
  obtain ⟨parts, hparts, _⟩ := bind_eq_ok_iff.mp h
  obtain ⟨part, _, hpart⟩ :=
    (mem_of_mapM_eq_ok hparts).2 (slot, d) (OrderedMap.get?_eq_some_iff.mp hget)
  exact ⟨part, hpart⟩

/-- The weight entries of a slot come of what is recorded of just that slot. -/
theorem mem_weightChange_iff (h : diffs.historyWrites height = .ok history) {value : Bytes} :
    (changeKey .weightChange slot height, value) ∈ history ↔ ∃ d change,
      diffs.get? slot = some d ∧ d.weightChange = .ok change ∧ change.isZero = false ∧
        value = toCanonical change := by
  rw [mem_historyWrites_iff h]
  constructor
  · rintro ⟨slot', d, writes, hget, hwrites, he⟩
    obtain ⟨change, hchange, hmem⟩ := SlotDiff.mem_historyWrites_iff hwrites
    rcases (hmem _).mp he with ⟨hzero, heq⟩ | ⟨old, _, heq⟩
    · obtain ⟨hkey, hvalue⟩ := Prod.mk.inj heq
      obtain ⟨rfl, _⟩ := changeKey_inj.mp hkey
      exact ⟨d, change, hget, hchange, hzero, hvalue⟩
    · exact absurd (congrArg Prod.fst heq) (changeKey_ne (by decide) _ _ _ _)
  · rintro ⟨d, change, hget, hchange, hzero, rfl⟩
    obtain ⟨writes, hwrites⟩ := exists_historyWrites h hget
    obtain ⟨change', hchange', hmem⟩ := SlotDiff.mem_historyWrites_iff hwrites
    rw [hchange] at hchange'
    cases hchange'
    exact ⟨slot, d, writes, hget, hwrites, (hmem _).mpr (Or.inl ⟨hzero, rfl⟩)⟩

theorem lastValue?_weightChange (h : diffs.historyWrites height = .ok history) (slot : Slot) :
    ∃ change, (diffs.recorded slot).weightChange = .ok change ∧
      lastValue? history (changeKey .weightChange slot height) =
        if change.isZero then none else some (toCanonical change) := by
  cases hget : diffs.get? slot with
  | none =>
      refine ⟨.zero, by rw [recorded, hget]; rfl, lastValue?_eq_none_iff.mpr fun v hmem => ?_⟩
      obtain ⟨d, _, hd, _⟩ := (mem_weightChange_iff h).mp hmem
      rw [hget] at hd
      cases hd
  | some d =>
      obtain ⟨writes, hwrites⟩ := exists_historyWrites h hget
      obtain ⟨change, hchange, _⟩ := SlotDiff.mem_historyWrites_iff hwrites
      refine ⟨change, by rw [recorded, hget]; exact hchange, lastValue?_eq_of_graph fun v => ?_⟩
      rw [mem_weightChange_iff h]
      constructor
      · rintro ⟨d', change', hd', hchange', hzero, rfl⟩
        rw [hget] at hd'
        cases hd'
        rw [hchange] at hchange'
        cases hchange'
        simp [hzero]
      · intro hsome
        split at hsome
        · cases hsome
        next hzero =>
          cases hsome
          exact ⟨d, change, hget, hchange, Bool.eq_false_iff.mpr hzero, rfl⟩

theorem lastValue?_publicKeyChange (h : diffs.historyWrites height = .ok history) (slot : Slot) :
    lastValue? history (changeKey .publicKeyChange slot height) =
      (diffs.recorded slot).previousKey?.map toCanonical := by
  refine lastValue?_eq_of_graph fun v => ?_
  rw [mem_historyWrites_iff h, Option.map_eq_some_iff]
  constructor
  · rintro ⟨slot', d, writes, hget, hwrites, he⟩
    obtain ⟨_, _, hmem⟩ := SlotDiff.mem_historyWrites_iff hwrites
    rcases (hmem _).mp he with ⟨_, heq⟩ | ⟨old, hold, heq⟩
    · exact absurd (congrArg Prod.fst heq) (changeKey_ne (by decide) _ _ _ _)
    · obtain ⟨hkey, hvalue⟩ := Prod.mk.inj heq
      obtain ⟨rfl, _⟩ := changeKey_inj.mp hkey
      rw [recorded, hget]
      exact ⟨old, hold, hvalue.symm⟩
  · rintro ⟨old, hold, rfl⟩
    have hne : diffs.recorded slot ≠ {} := by
      intro hempty
      rw [hempty] at hold
      cases hold
    have hget := Net.get?_of_recorded hne
    obtain ⟨writes, hwrites⟩ := exists_historyWrites h hget
    obtain ⟨_, _, hmem⟩ := SlotDiff.mem_historyWrites_iff hwrites
    exact ⟨slot, _, writes, hget, hwrites, (hmem _).mpr (Or.inr ⟨old, hold, rfl⟩)⟩

/-- Only changes of the flushed height are recorded. -/
theorem lastValue?_eq_none_of_ne (h : diffs.historyWrites height = .ok history)
    (hne : height' ≠ height) (space : KeySpace) (slot : Slot) :
    lastValue? history (changeKey space slot height') = none := by
  refine lastValue?_eq_none_iff.mpr fun v hmem => hne ?_
  have hheight : ∀ {space' slot'},
      changeKey space slot height' = changeKey space' slot' height → height' = height := by
    intro space' slot' heq
    by_cases hspace : space = space'
    · subst hspace
      exact (changeKey_inj.mp heq).2
    · exact absurd heq (changeKey_ne hspace _ _ _ _)
  obtain ⟨slot', d, writes, _, hwrites, he⟩ := (mem_historyWrites_iff h).mp hmem
  rcases SlotDiff.key_of_mem_historyWrites hwrites he with hkey | hkey
  · exact hheight hkey
  · exact hheight hkey

end SlotDiffs

/-! ## The series of sets -/

/-- The store has, for every height of a series of sets but the first, what is recorded of the
change from the set before. -/
def Store.Follows {α : Type} [Codec α] (store : Store) (space : KeySpace)
    (record : List Staker → List Staker → Slot → Option α) (held : Nat → List Staker) : Prop :=
  ∀ (height : UInt64) (slot : Slot), height ≠ 0 → store.get? (changeKey space slot height) =
    (record (held (height.toNat - 1)) (held height.toNat) slot).map toCanonical

/-- The store has the changes from each of the sets to the next, and no others. -/
structure Store.Remembers (store : Store) (held : Nat → List Staker) : Prop where
  weights : store.Follows .weightChange weightRecord held
  keys : store.Follows .publicKeyChange keyRecord held
  encoded : ∀ k, ∀ t ∈ held k, Codec.fits t = true

/-- The series with another set from the height after `tip` on. -/
def continued (held : Nat → List Staker) (tip : Nat) (after : List Staker) (k : Nat) :
    List Staker :=
  if k ≤ tip then held k else after

section Continued

variable {held : Nat → List Staker} {tip k : Nat}

theorem continued_of_le (h : k ≤ tip) (after : List Staker) : continued held tip after k = held k :=
  if_pos h

theorem continued_of_gt (h : tip < k) (after : List Staker) : continued held tip after k = after :=
  if_neg (Nat.not_le.mpr h)

/-- A series that does not change any more after `tip` has the same records in its
continuation, the one for the next height apart. -/
theorem record_continued {α : Type} {record : List Staker → List Staker → Slot → Option α}
    (hself : ∀ l slot, record l l slot = none) (hlast : ∀ k, tip ≤ k → held k = held tip)
    (hk : k ≠ tip + 1) (after : List Staker) (slot : Slot) :
    record (continued held tip after (k - 1)) (continued held tip after k) slot =
      record (held (k - 1)) (held k) slot := by
  by_cases hle : k ≤ tip
  · rw [continued_of_le hle, continued_of_le (by omega)]
  · rw [continued_of_gt (by omega), continued_of_gt (by omega), hlast k (by omega),
      hlast (k - 1) (by omega), hself, hself]

end Continued

namespace State

variable {s s' : State} {history : List (Bytes × Bytes)} {book : Book} {were : Phase → Set Staker}
  {c : Contents} {held held' : Nat → List Staker} {tip : Nat}

/-- A flush that records the change of its own height goes on with a series. -/
theorem Flushed.follows {α : Type} [Codec α]
    {record : List Staker → List Staker → Slot → Option α} (h : s.Flushed height history s')
    (hspace : space = .weightChange ∨ space = .publicKeyChange)
    (hfollows : s.store.Follows space record held)
    (hsame : ∀ (k : UInt64) (slot : Slot), k ≠ 0 → k ≠ height →
      record (held' (k.toNat - 1)) (held' k.toNat) slot =
        record (held (k.toNat - 1)) (held k.toNat) slot)
    (hnone : height ≠ 0 → ∀ slot, s.store.get? (changeKey space slot height) = none)
    (hown : height ≠ 0 → ∀ slot, lastValue? history (changeKey space slot height) =
      (record (held' (height.toNat - 1)) (held' height.toNat) slot).map toCanonical) :
    s'.store.Follows space record held' := by
  intro k slot hk
  have hget : s'.store.get? (changeKey space slot k) =
      (lastValue? history (changeKey space slot k)).or (s.store.get? (changeKey space slot k)) := by
    rcases hspace with rfl | rfl
    · exact h.get?_of_puts (KeySpace.Names.change rfl _ _ _) rfl
    · exact h.get?_of_puts (KeySpace.Names.change rfl _ _ _) rfl
  rw [hget]
  by_cases heq : k = height
  · subst heq
    rw [hnone hk, Option.or_none, hown hk]
  · rw [SlotDiffs.lastValue?_eq_none_of_ne h.recorded heq, Option.none_or, hfollows k slot hk,
      hsame k slot hk heq]

/-- The first flush of a store begins a series. -/
theorem Flushed.remembers_first (h : s.Flushed 0 history s')
    (hempty : ∀ key, s.store.get? key = none) {first : List Staker}
    (hfits : ∀ t ∈ first, Codec.fits t = true) : s'.store.Remembers fun _ => first := by
  have hweights : s.store.Follows .weightChange weightRecord fun _ => first := fun k slot _ => by
    rw [hempty, weightRecord_self]
    rfl
  have hkeys : s.store.Follows .publicKeyChange keyRecord fun _ => first := fun k slot _ => by
    rw [hempty, keyRecord_self]
    rfl
  have hfirst : (0 : UInt64) ≠ 0 → ∀ P : Prop, P := fun h => absurd rfl h
  exact ⟨h.follows (Or.inl rfl) hweights (fun _ _ _ _ => rfl) (fun h => hfirst h _)
      fun h => hfirst h _,
    h.follows (Or.inr rfl) hkeys (fun _ _ _ _ => rfl) (fun h => hfirst h _) fun h => hfirst h _,
    fun _ => hfits⟩

/-- A flush goes on with the series that its store remembers. -/
theorem remembers_of_flushed (h : s.Durable book were c) (hproper : c.Proper book)
    (hflushed : s.Flushed height history s') {after : List Staker}
    (hremembers : s.store.Remembers held) (hheight : height.toNat = tip + 1)
    (hlast : ∀ k, tip ≤ k → held k = held tip)
    (hbefore : Enumerates (held tip) Staker.key (were .current))
    (hafter : Enumerates after Staker.key (c.stakers .current)) :
    s'.store.Remembers (continued held tip after) := by
  have hnets := fun slot => (h.diffs .current).nets slot
  have hother : ∀ k : UInt64, k ≠ height → k.toNat ≠ tip + 1 := fun k hk heq =>
    hk (UInt64.toNat_inj.mp (heq.trans hheight.symm))
  have hpast : held height.toNat = held (height.toNat - 1) :=
    (hlast _ (by omega)).trans (hlast _ (by omega)).symm
  have hnow : continued held tip after (height.toNat - 1) = held tip ∧
      continued held tip after height.toNat = after :=
    ⟨by rw [hheight]; exact continued_of_le (by omega) _, continued_of_gt (by omega) _⟩
  refine ⟨hflushed.follows (Or.inl rfl) hremembers.weights (fun k slot _ hk => ?_)
    (fun hzero slot => ?_) fun _ slot => ?_, hflushed.follows (Or.inr rfl) hremembers.keys
    (fun k slot _ hk => ?_) (fun hzero slot => ?_) fun _ slot => ?_, fun k t ht => ?_⟩
  · exact record_continued weightRecord_self hlast (hother k hk) after slot
  · rw [hremembers.weights height slot hzero, hpast, weightRecord_self]
    rfl
  · obtain ⟨change, hchange, hvalue⟩ :=
      SlotDiffs.lastValue?_weightChange hflushed.recorded slot
    have hrecord := weightRecord_eq (toInt_weightChange (hnets slot) hbefore hafter
      (h.slots .current) (hproper.slots .current) hchange)
    rw [hvalue, hnow.1, hnow.2, hrecord]
    split <;> rfl
  · exact record_continued keyRecord_self hlast (hother k hk) after slot
  · rw [hremembers.keys height slot hzero, hpast, keyRecord_self]
    rfl
  · have hkey := previousKey?_eq (hnets slot) hbefore hafter (h.slots .current)
      (hproper.slots .current)
    rw [SlotDiffs.lastValue?_publicKeyChange hflushed.recorded slot, hnow.1, hnow.2]
    exact congrArg (Option.map toCanonical) hkey
  · unfold continued at ht
    split at ht
    · exact hremembers.encoded k t ht
    · exact h.fits_of_flushed hproper hflushed .current t ((hafter.mem_iff t).mp ht)

end State

end StakingLedger
