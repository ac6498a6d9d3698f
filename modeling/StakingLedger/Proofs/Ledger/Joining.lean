import StakingLedger.Proofs.Ledger.Footprint

/-! # A staker that joins

A put adds the staker to what is read of its phase, whatever the writes that led to the
ledger: the lookup of its slot finds a validator, and the walks meet the staker in its
place besides all others. Two things can stand in the way. The ledger itself may hold
another staker under the key, which is driven out then. And a layer that has deleted a
delegator of the transaction takes the deletion back, so that it shows what its parent
holds of the transaction. That is the staker if it is the very one that was deleted.
-/

namespace StakingLedger

open OrderedMap

/-! ## One more staker in a walk -/

namespace StakerSeq

theorem mergeLists_singleton (a : Staker) (first : List Staker) (s : Staker) :
    mergeLists (a :: first) [s] =
      if a.notAfter s then a :: mergeLists first [s] else s :: a :: first := by
  rw [mergeLists_cons, mergeLists_nil]

variable {first second held : List Staker} {s : Staker}

/-- Whether one more staker is merged into the second of two walks or into their merge is the
same. -/
theorem mergeLists_mergeLists_singleton (first second : List Staker) (s : Staker) :
    mergeLists first (mergeLists second [s]) = mergeLists (mergeLists first second) [s] := by
  -- By the recursion of the outer merge; what is decided is where the new staker goes.
  fun_induction mergeLists first second with
  | case1 second => rw [nil_mergeLists]
  | case2 first => rw [nil_mergeLists]
  | case3 a first b second hab ih =>
      rw [mergeLists_singleton] at ih
      rw [mergeLists_singleton, mergeLists_singleton]
      by_cases hbs : b.notAfter s = true
      · rw [if_pos hbs] at ih
        rw [if_pos hbs, mergeLists_cons, if_pos hab, ih, if_pos (Staker.notAfter_trans a b s hab hbs)]
      · rw [if_neg hbs] at ih
        rw [if_neg hbs, mergeLists_cons, mergeLists_cons, if_pos hab, ih]
  | case4 a first b second hab ih =>
      rw [mergeLists_singleton, mergeLists_singleton]
      by_cases hbs : b.notAfter s = true
      · rw [if_pos hbs, if_pos hbs, mergeLists_cons, if_neg hab, ih]
      · -- The new staker goes before `b`, which goes before `a`.
        have has : ¬ a.notAfter s = true := fun has => by
          have hsb := (Bool.or_eq_true _ _).mp (Staker.notAfter_total s b)
          exact hab (Staker.notAfter_trans a s b has (hsb.resolve_right hbs))
        rw [if_neg hbs, if_neg hbs, mergeLists_cons, if_neg has, mergeLists_cons, if_neg hab]

theorem mergeLists_singleton_comm (hapart : ∀ t ∈ second, t.key ≠ s.key) :
    mergeLists [s] second = mergeLists second [s] := by
  induction second with
  | nil => rw [nil_mergeLists, mergeLists_nil]
  | cons b second ih =>
      rw [mergeLists_cons, mergeLists_singleton, nil_mergeLists,
        ih fun t ht => hapart t (List.mem_cons_of_mem _ ht)]
      have htotal := (Bool.or_eq_true _ _).mp (Staker.notAfter_total s b)
      by_cases hbs : b.notAfter s = true
      · rw [if_pos hbs, if_neg fun hsb =>
          hapart b List.mem_cons_self (Staker.key_eq_of_notAfter hbs hsb)]
      · rw [if_neg hbs, if_pos (htotal.resolve_right hbs)]

/-- It is the same if the staker is merged into the first of the two walks, unless the second holds
somebody under its key. -/
theorem mergeLists_singleton_mergeLists (hapart : ∀ t ∈ second, t.key ≠ s.key) :
    mergeLists (mergeLists first [s]) second = mergeLists (mergeLists first second) [s] := by
  -- By the recursion of the merge; what is decided is where the staker goes.
  fun_induction mergeLists first second with
  | case1 second => rw [nil_mergeLists, mergeLists_singleton_comm hapart]
  | case2 first => rw [mergeLists_nil]
  | case3 a first b second hab ih =>
      rw [mergeLists_singleton, mergeLists_singleton]
      by_cases has : a.notAfter s = true
      · rw [if_pos has, if_pos has, mergeLists_cons, if_pos hab, ih hapart]
      · -- The staker goes before `a`, which does not go after `b`.
        have hsa := ((Bool.or_eq_true _ _).mp (Staker.notAfter_total s a)).resolve_right has
        rw [if_neg has, if_neg has, mergeLists_cons, if_pos (Staker.notAfter_trans s a b hsa hab),
          mergeLists_cons, if_pos hab]
  | case4 a first b second hab ih =>
      have ih := ih fun t ht => hapart t (List.mem_cons_of_mem _ ht)
      have hba := ((Bool.or_eq_true _ _).mp (Staker.notAfter_total b a)).resolve_right hab
      rw [mergeLists_singleton] at ih
      rw [mergeLists_singleton, mergeLists_singleton]
      by_cases has : a.notAfter s = true
      · rw [if_pos has] at ih
        rw [if_pos has, if_pos (Staker.notAfter_trans b a s hba has), mergeLists_cons, if_neg hab,
          ih]
      · rw [if_neg has] at ih
        rw [if_neg has, mergeLists_cons, mergeLists_cons, if_neg hab, ih]
        by_cases hbs : b.notAfter s = true
        · rw [if_pos hbs, if_neg fun hsb =>
            hapart b List.mem_cons_self (Staker.key_eq_of_notAfter hbs hsb)]
        · have hsb := ((Bool.or_eq_true _ _).mp (Staker.notAfter_total s b)).resolve_right hbs
          rw [if_neg hbs, if_pos hsb]

/-- The only staker of its transaction stands in its place in an ordered walk. -/
theorem eq_mergeLists_of_filter_eq (hsorted : held.Pairwise fun a b => a.notAfter b = true)
    (hlone : (held.filter fun t => t.txId = s.txId) = [s]) :
    held = mergeLists (held.filter fun t => t.txId ≠ s.txId) [s] := by
  induction held with
  | nil => cases hlone
  | cons a rest ih =>
      obtain ⟨hle, hsorted⟩ := List.pairwise_cons.mp hsorted
      by_cases htx : a.txId = s.txId
      · rw [List.filter_cons, if_pos (decide_eq_true htx), List.cons.injEq,
          List.filter_eq_nil_iff] at hlone
        obtain ⟨rfl, hothers⟩ := hlone
        have hne : ∀ t ∈ rest, t.txId ≠ a.txId := fun t ht heq => hothers t ht (decide_eq_true heq)
        rw [List.filter_cons, if_neg (by simp),
          List.filter_eq_self.mpr fun t ht => decide_eq_true (hne t ht)]
        cases rest with
        | nil => rw [nil_mergeLists]
        | cons b rest =>
            have hkey : b.key ≠ a.key := fun heq =>
              hne b List.mem_cons_self (Staker.txId_of_key_eq heq)
            rw [mergeLists_singleton, if_neg fun hba =>
              hkey (Staker.key_eq_of_notAfter hba (hle b List.mem_cons_self))]
      · rw [List.filter_cons, if_neg (by simpa using htx)] at hlone
        have hs : s ∈ rest := List.mem_of_mem_filter (hlone ▸ List.mem_singleton_self s)
        rw [List.filter_cons, if_pos (decide_eq_true htx), mergeLists_singleton,
          if_pos (hle s hs), ← ih hsorted hlone]

/-- Taking back the deletion of a transaction shows its stakers again and no others. -/
theorem filter_unhide {hidden : DeletedStakers} (held : List Staker)
    (hhidden : hidden.contains s.txId = true) :
    ((held.filter fun t => !(hidden.erase s.txId).contains t.txId).filter fun t =>
        t.txId = s.txId) = (held.filter fun t => t.txId = s.txId) ∧
      ((held.filter fun t => !(hidden.erase s.txId).contains t.txId).filter fun t =>
        t.txId ≠ s.txId) = held.filter fun t => !hidden.contains t.txId := by
  rw [List.filter_filter, List.filter_filter]
  constructor <;> refine List.filter_congr fun t _ => ?_ <;> rw [contains_erase] <;>
    by_cases htx : t.txId = s.txId <;> simp [htx, hhidden]

/-- Taking back the deletion of the only staker of a transaction puts it in its place in a merge. -/
theorem mergeLists_unhide {hidden : DeletedStakers} {held added : List Staker}
    (hsorted : held.Pairwise fun a b => a.notAfter b = true)
    (hhidden : hidden.contains s.txId = true)
    (hheld : (held.filter fun t => t.txId = s.txId) = [s])
    (hadded : (added.filter fun t => t.txId = s.txId) = []) :
    mergeLists (held.filter fun t => !(hidden.erase s.txId).contains t.txId) added =
      mergeLists (mergeLists (held.filter fun t => !hidden.contains t.txId) added) [s] := by
  obtain ⟨hback, hothers⟩ := filter_unhide held hhidden
  have hapart : ∀ t ∈ added, t.key ≠ s.key := fun t ht heq =>
    List.filter_eq_nil_iff.mp hadded t ht (decide_eq_true (Staker.txId_of_key_eq heq))
  rw [eq_mergeLists_of_filter_eq (hsorted.filter _) (hback.trans hheld), hothers]
  exact mergeLists_singleton_mergeLists hapart

/-- Taking back a deletion that hid nobody shows nobody. -/
theorem filter_unhide_of_shown {hidden : DeletedStakers} {held : List Staker}
    (hshown : ∀ t ∈ held, t.txId = s.txId → hidden.contains t.txId = false) :
    (held.filter fun t => !(hidden.erase s.txId).contains t.txId) =
      held.filter fun t => !hidden.contains t.txId := by
  refine List.filter_congr fun t ht => congrArg Bool.not ?_
  rw [contains_erase]
  by_cases htx : t.txId = s.txId
  · rw [hshown t ht htx, Bool.and_false]
  · rw [decide_eq_true htx, Bool.true_and]

end StakerSeq

/-- A walk takes a staker in: it meets the staker in its place besides all that it met. A walk that
met the staker already may also be as it was. -/
def Staker.Joins (s : Staker) (before after : Answer (List Staker)) : Prop :=
  after = before.map (StakerSeq.mergeLists · [s]) ∨
    after = before ∧ ∃ held, before = .ok held ∧ s ∈ held

theorem Staker.Joins.mem_iff {s t : Staker} {before after : Answer (List Staker)}
    {held held' : List Staker} (h : s.Joins before after) (hbefore : before = .ok held)
    (hafter : after = .ok held') : t ∈ held' ↔ t ∈ held ∨ t = s := by
  subst hbefore
  rcases h with hmerged | ⟨hsame, held, hheld, hs⟩
  · cases hafter.symm.trans hmerged
    rw [(StakerSeq.mergeLists_perm _ _).mem_iff, List.mem_append, List.mem_singleton]
  · cases hheld
    cases hafter.symm.trans hsame
    exact ⟨Or.inl, fun ht => ht.elim id fun heq => heq ▸ hs⟩

/-- Of the transaction of the staker, a walk and what is added to it hold the staker only. -/
def Staker.Alone (s : Staker) (below : Answer (List Staker)) (added : StakerTree) : Prop :=
  ∀ held, below = .ok held → (held ++ added.values).filter (fun t => t.txId = s.txId) = [s]

namespace StakerTree.Files

variable {tree : StakerTree} {belongs : Staker → Prop} {s : Staker}

/-- A staker whose key is free stands in its place among the others. -/
theorem values_insert (h : tree.Files belongs) (hnew : ∀ t ∈ tree.values, t.key ≠ s.key) :
    (OrderedMap.insert tree s.key s).values = StakerSeq.mergeLists tree.values [s] := by
  have hsingle : Enumerates [s] Staker.key {s} :=
    ⟨List.pairwise_singleton _ _, fun t => List.mem_singleton⟩
  refine (h.indexes.insert fun t ht heq => absurd heq (hnew t ht)).enumerates.unique ?_
  refine (h.indexes.enumerates.mergeLists hsingle fun t ht u hu => hu ▸ hnew t ht).congr fun t => ?_
  rw [Set.union_singleton]

/-- A staker that is there stays where it is. -/
theorem values_insert_of_mem (h : tree.Files belongs) (hs : s ∈ tree.values) :
    (OrderedMap.insert tree s.key s).values = tree.values := by
  have hsame : ∀ t ∈ tree.values, t.key = s.key → t = s := fun t ht heq => h.indexes.injOn ht hs heq
  have hkept : Insert.insert s {t | t ∈ tree.values} = {t | t ∈ tree.values} :=
    Set.insert_eq_of_mem hs
  refine (h.indexes.insert hsame).enumerates.unique ?_
  rw [hkept]
  exact h.indexes.enumerates

/-- A staker that drives nobody out of what is added to a walk joins the walk. -/
theorem joins_insert (h : tree.Files belongs) (answer : Answer StakerSeq)
    (kept : StakerSeq → List Staker) (hown : ∀ t ∈ tree.values, t.key = s.key → t = s) :
    s.Joins (answer.map fun below => StakerSeq.mergeLists (kept below) tree.values)
      (answer.map fun below =>
        StakerSeq.mergeLists (kept below) (OrderedMap.insert tree s.key s).values) := by
  cases answer with
  | error e => exact Or.inl rfl
  | ok below =>
      by_cases hs : s ∈ tree.values
      · rw [h.values_insert_of_mem hs]
        exact Or.inr ⟨rfl, _, rfl,
          (StakerSeq.mergeLists_perm _ _).mem_iff.mpr (List.mem_append_right _ hs)⟩
      · rw [h.values_insert fun t ht heq => hs (hown t ht heq ▸ ht)]
        exact Or.inl (congrArg Except.ok (StakerSeq.mergeLists_mergeLists_singleton _ _ s))

end StakerTree.Files

/-- A staker that is alone of its transaction joins the walk when its deletion is taken back. -/
theorem Staker.joins_unhide {s : Staker} {answer : Answer StakerSeq} (hidden : DeletedStakers)
    {added : StakerTree}
    (hsorted : ∀ below, answer = .ok below → below.toList.Pairwise fun a b => a.notAfter b = true)
    (halone : s.Alone (answer.map StakerSeq.toList) added) :
    s.Joins
      (answer.map fun below => StakerSeq.mergeLists
        (below.toList.filter fun t => !hidden.contains t.txId) added.values)
      (answer.map fun below => StakerSeq.mergeLists
        (below.toList.filter fun t => !(hidden.erase s.txId).contains t.txId) added.values) := by
  cases answer with
  | error e => exact Or.inl rfl
  | ok below =>
      have hlone := halone _ rfl
      have honly : ∀ t ∈ below.toList ++ added.values, t.txId = s.txId → t = s := fun t ht htx =>
        List.mem_singleton.mp (hlone ▸ List.mem_filter.mpr ⟨ht, decide_eq_true htx⟩)
      have hs : s ∈ below.toList ++ added.values :=
        List.mem_of_mem_filter (hlone ▸ List.mem_singleton_self s)
      by_cases hback : hidden.contains s.txId = true ∧ s ∈ below.toList
      · -- The deletion has hidden the staker, which comes back.
        rw [List.filter_append, List.append_eq_singleton_iff] at hlone
        obtain ⟨hnone, _⟩ | ⟨hbelow, hadded⟩ := hlone
        · exact absurd (decide_eq_true rfl) (List.filter_eq_nil_iff.mp hnone s hback.2)
        · exact Or.inl (congrArg Except.ok
            (StakerSeq.mergeLists_unhide (hsorted below rfl) hback.1 hbelow hadded))
      · -- Nobody comes back, and the staker is met.
        have hsame := StakerSeq.filter_unhide_of_shown fun t ht htx => by
          obtain rfl := honly t (List.mem_append_left _ ht) htx
          exact Bool.eq_false_iff.mpr fun hhidden => hback ⟨hhidden, ht⟩
        refine Or.inr
          ⟨congrArg (fun kept => Except.ok (StakerSeq.mergeLists kept added.values)) hsame, _, rfl,
            (StakerSeq.mergeLists_perm _ _).mem_iff.mpr ?_⟩
        refine List.mem_append.mpr ((List.mem_append.mp hs).imp_left fun hs => ?_)
        exact List.mem_filter.mpr ⟨hs, by simpa using fun hhidden => hback ⟨hhidden, hs⟩⟩

/-- The other view tells of one more staker in a phase, and of everything else as this one does. -/
structure View.Gains (v : View) (phase : Phase) (s : Staker) (after : View) : Prop where
  others : after = v.withStakersOf after phase
  validator : ∀ slot, after.validator phase slot =
    if s.isValidator = true ∧ slot = s.slot then .ok (some s) else v.validator phase slot
  delegators : ∀ slot, if s.isValidator = false ∧ slot = s.slot then
      s.Joins (v.delegators phase slot) (after.delegators phase slot)
    else after.delegators phase slot = v.delegators phase slot
  stakers : s.Joins (v.stakers phase) (after.stakers phase)

/-! ## The root -/

namespace Registry

variable {r : Registry} {s : Staker}

theorem stakers_put (hfree : s.isValidator = true → r.validator? s.slot = none) :
    (r.put s).stakers = r.stakers.insert s.key s := by
  unfold put
  split
  next hv =>
    have hnone : (r.slotStakers s.slot).validator = none := hfree hv
    rw [putValidator, hnone]
  next => rfl

theorem validator?_put (r : Registry) (s : Staker) (slot : Slot) :
    (r.put s).validator? slot =
      if s.isValidator = true ∧ slot = s.slot then some s else r.validator? slot := by
  unfold put
  split
  next hv =>
    rw [putValidator, validator?, slotStakers_insert]
    by_cases hslot : slot = s.slot <;> simp [hv, hslot, validator?]
  next hd =>
    rw [putDelegator, validator?, slotStakers_insert]
    by_cases hslot : slot = s.slot <;> simp [hd, hslot, validator?]

theorem delegators_put (r : Registry) (s : Staker) (slot : Slot) :
    ((r.put s).slotStakers slot).delegators =
      if s.isValidator = false ∧ slot = s.slot then
        (r.slotStakers slot).delegators.insert s.key s
      else (r.slotStakers slot).delegators := by
  unfold put
  split
  next hv =>
    rw [putValidator, slotStakers_insert]
    by_cases hslot : slot = s.slot <;> simp [hv, hslot]
  next hd =>
    rw [putDelegator, slotStakers_insert]
    by_cases hslot : slot = s.slot <;> simp [hd, hslot]

end Registry

/-! ## A layer -/

namespace SlotDiff

/-- What a record says about the validator of its slot: nothing, or who it is, if anybody. -/
def told? (d : SlotDiff) : Option (Option Staker) :=
  match d.status with
  | .unmodified => none
  | .added => some d.validator
  | .deleted => some none

theorem told?_putDelegator (d : SlotDiff) (s : Staker) : (d.putDelegator s).told? = d.told? := by
  unfold putDelegator
  split <;> rfl

theorem told?_of_isEmpty {d : SlotDiff} (h : d.isEmpty = true) : d.told? = none := by
  rw [isEmpty, Bool.and_eq_true, Bool.and_eq_true, beq_iff_eq] at h
  rw [told?, h.1.1]

end SlotDiff

/-- A record that is dropped says nothing about the validator. -/
theorem SlotDiffs.told?_updatePruned (diffs : SlotDiffs) (slot : Slot) (f : SlotDiff → SlotDiff)
    (slot' : Slot) :
    ((diffs.updatePruned slot f).recorded slot').told? =
      if slot' = slot then (f (diffs.recorded slot)).told? else (diffs.recorded slot').told? := by
  unfold updatePruned
  dsimp only
  by_cases hslot : slot' = slot
  · subst hslot
    rw [if_pos rfl]
    split
    next hempty =>
      rw [recorded, get?_erase_self, SlotDiff.told?_of_isEmpty hempty]
      rfl
    next => rw [recorded, get?_insert_self, Option.getD_some]
  · rw [if_neg hslot]
    split
    · rw [recorded, get?_erase_ne _ hslot, recorded]
    · rw [recorded, get?_insert_ne _ _ hslot, recorded]

namespace RegistryOverlay

/-- Adds a staker in the place its priority asks for. -/
def put (o : RegistryOverlay) (s : Staker) : RegistryOverlay :=
  if s.isValidator then o.putValidator s else o.putDelegator s

/-- The layer has deleted a delegator of the transaction from the slot of the staker. A put of the
staker takes that deletion back. -/
def Restores (o : RegistryOverlay) (s : Staker) : Prop :=
  s.isValidator = false ∧ (o.diffs.recorded s.slot).restoresDelegator s = true

variable {o : RegistryOverlay} {s : Staker}

/-- What the layer says about a validator is what it records of the slot. -/
theorem validator?_eq (o : RegistryOverlay) (slot : Slot) :
    o.validator? slot = (o.diffs.recorded slot).told? := by
  unfold validator? SlotDiffs.recorded
  cases o.diffs.get? slot <;> rfl

theorem toList_all (o : RegistryOverlay) (below : StakerSeq) :
    (o.all below).toList =
      StakerSeq.mergeLists (below.toList.filter fun s => !o.deleted.contains s.txId)
        o.added.values := by
  rw [all, StakerSeq.toList_merge, StakerSeq.toList_mask, StakerSeq.toList_ofTree]

theorem recorded_put (hkept : ¬ o.Restores s) (slot : Slot) :
    (o.put s).diffs.recorded slot =
      if slot = s.slot then
        if s.isValidator then (o.diffs.recorded slot).putValidator s
        else { o.diffs.recorded slot with
          addedDelegators := (o.diffs.recorded slot).addedDelegators.insert s.key s }
      else o.diffs.recorded slot := by
  unfold put
  split
  next hv =>
    refine (SlotDiffs.recorded_update _ _ _ _).trans ?_
    split <;> simp_all
  next hd =>
    have hnew : ¬ (o.diffs.recorded s.slot).restoresDelegator s = true :=
      fun hrestores => hkept ⟨Bool.eq_false_iff.mpr hd, hrestores⟩
    rw [diffs_putDelegator, SlotDiffs.recorded_updatePruned]
    · rw [SlotDiff.putDelegator, if_neg hnew]
      split <;> simp_all
    · -- A record that has taken a delegator in is not dropped.
      intro hempty
      rw [SlotDiff.putDelegator, if_neg hnew] at hempty
      simp [SlotDiff.isEmpty, isEmpty_insert] at hempty

/-- The index of additions takes the staker in, and that of deletions stays as it is. -/
theorem added_put (hfree : s.isValidator = true → (o.diffs.recorded s.slot).replaced? = none)
    (hkept : ¬ o.Restores s) :
    (o.put s).added = o.added.insert s.key s ∧ (o.put s).deleted = o.deleted := by
  unfold put
  split
  next hv =>
    rw [putValidator, hfree hv]
    exact ⟨rfl, rfl⟩
  next hd =>
    rw [putDelegator, if_neg fun hrestores => hkept ⟨Bool.eq_false_iff.mpr hd, hrestores⟩]
    exact ⟨rfl, rfl⟩

/-- A slot that is free has no validator in the place of which another one could be put. -/
theorem replaced?_of_validator? {slot : Slot} (h : ∀ t, o.validator? slot ≠ some (some t)) :
    (o.diffs.recorded slot).replaced? = none := by
  rw [validator?_eq, SlotDiff.told?] at h
  unfold SlotDiff.replaced?
  split
  next hadded =>
    rw [hadded] at h
    exact Option.eq_none_iff_forall_ne_some.mpr fun t ht => h t (congrArg some ht)
  next => rfl

/-- A delegator that is put, or put back, changes nothing about validators. -/
theorem validator?_put (o : RegistryOverlay) (s : Staker) (slot : Slot) :
    (o.put s).validator? slot =
      if s.isValidator = true ∧ slot = s.slot then some (some s) else o.validator? slot := by
  rw [validator?_eq, validator?_eq]
  unfold put
  split
  next hv =>
    change ((o.diffs.update s.slot (·.putValidator s)).recorded slot).told? = _
    rw [SlotDiffs.recorded_update]
    by_cases hslot : slot = s.slot
    · rw [if_pos hslot, if_pos ⟨hv, hslot⟩]
      rfl
    · rw [if_neg hslot, if_neg fun hhere => hslot hhere.2]
  next hd =>
    have hneg : ¬ (s.isValidator = true ∧ slot = s.slot) := fun hhere => hd hhere.1
    rw [diffs_putDelegator, SlotDiffs.told?_updatePruned, SlotDiff.told?_putDelegator,
      if_neg hneg]
    exact ite_eq_right_iff.mpr fun hslot => hslot ▸ rfl

/-- What is hidden of a slot stays so, and its additions take in a delegator that is put there. -/
theorem delegators_put (hkept : ¬ o.Restores s) (slot : Slot) :
    ((o.put s).diffs.recorded slot).deletedDelegators =
        (o.diffs.recorded slot).deletedDelegators ∧
      ((o.put s).diffs.recorded slot).addedDelegators =
        if s.isValidator = false ∧ slot = s.slot then
          (o.diffs.recorded slot).addedDelegators.insert s.key s
        else (o.diffs.recorded slot).addedDelegators := by
  rw [recorded_put hkept]
  by_cases hslot : slot = s.slot
  · cases hv : s.isValidator with
    | true => simp [hslot, SlotDiff.putValidator]
    | false => simp [hslot]
  · simp [hslot]

/-- What is put back is no longer deleted, and nothing is added. -/
theorem put_of_restores (h : o.Restores s) :
    (o.put s).added = o.added ∧ (o.put s).deleted = o.deleted.erase s.txId := by
  rw [put, if_neg (Bool.eq_false_iff.mp h.1), putDelegator, if_pos h.2]
  exact ⟨rfl, rfl⟩

theorem delegators_put_of_restores (h : o.Restores s) (slot : Slot) :
    ((o.put s).diffs.recorded slot).deletedDelegators =
        (if slot = s.slot then (o.diffs.recorded slot).deletedDelegators.erase s.txId
          else (o.diffs.recorded slot).deletedDelegators) ∧
      ((o.put s).diffs.recorded slot).addedDelegators =
        (o.diffs.recorded slot).addedDelegators := by
  obtain ⟨hadded, hdeleted⟩ := o.diffs.delegators_updatePruned s.slot (·.putDelegator s) slot
  rw [put, if_neg (Bool.eq_false_iff.mp h.1), diffs_putDelegator, hadded, hdeleted]
  rw [SlotDiff.putDelegator, if_pos h.2]
  split
  next hslot => exact hslot ▸ ⟨rfl, rfl⟩
  next => exact ⟨rfl, rfl⟩

end RegistryOverlay

/-! ## Reads -/

namespace Ledger

/-- The stakers of a phase that the ledger itself holds: those of a root, or those that a layer
adds. -/
def own (l : Ledger) (phase : Phase) : StakerTree :=
  match l with
  | root s => (s.registries.get phase).stakers
  | layer _ _ _ c => (c.registries.get phase).added

/-- The delegators of a slot that the ledger itself holds. -/
def ownDelegators (l : Ledger) (phase : Phase) (slot : Slot) : StakerTree :=
  match l with
  | root s => ((s.registries.get phase).slotStakers slot).delegators
  | layer _ _ _ c => ((c.registries.get phase).diffs.recorded slot).addedDelegators

/-- A put of the staker drives another one out: the ledger itself holds it under the same key. -/
def Displaces (l : Ledger) (phase : Phase) (s : Staker) : Prop :=
  ∃ t, (t ∈ (l.own phase).values ∨ t ∈ (l.ownDelegators phase s.slot).values) ∧
    t.key = s.key ∧ t ≠ s

/-- The ledger is a layer that has deleted a delegator of the transaction from the slot of the
staker, and what the parent holds and the layer adds of the transaction is not this very staker
alone. -/
def Hides (l : Ledger) (phase : Phase) (s : Staker) : Prop :=
  match l with
  | root _ => False
  | layer parent _ _ c =>
    (c.registries.get phase).Restores s ∧
      ¬ (s.Alone (parent.view.stakers phase) (l.own phase) ∧
        s.Alone (parent.view.delegators phase s.slot) (l.ownDelegators phase s.slot))

variable {l parent : Ledger} {id : EntityId} {reachable : Bool} {c : Changes} {phase : Phase}
  {s : Staker}

/-- The stakers of a phase are met in their order. -/
theorem Filed.stakers_sorted {walk : StakerSeq} (h : l.Filed) (hread : l.stakers phase = .ok walk) :
    walk.toList.Pairwise fun a b => a.notAfter b = true := by
  induction l generalizing walk with
  | root state =>
      cases hread
      exact (StakerSeq.toList_ofTree _).symm ▸ (h.registries phase).all.sorted
  | layer parent id reachable c ih =>
      obtain ⟨below, hbelow, hwalk⟩ := bind_eq_ok_iff.mp hread
      cases hwalk
      cases reachable with
      | false => cases hbelow
      | true =>
          rw [RegistryOverlay.toList_all]
          exact StakerSeq.sorted_mergeLists ((ih h.1 hbelow).filter _)
            (h.2.registries phase).added.sorted

theorem of_throughParent {α : Type} {read : Answer α} {a : α}
    (h : throughParent id reachable read = .ok a) : read = .ok a := by
  cases reachable with
  | false => cases h
  | true => exact h

theorem view_stakers_eq (l : Ledger) (phase : Phase) :
    l.view.stakers phase = (l.stakers phase).map StakerSeq.toList := by
  change (l.stakers phase).map StakerSeq.walkAll = _
  rw [funext StakerSeq.walkAll_eq_toList]

theorem view_delegators_eq (l : Ledger) (phase : Phase) (slot : Slot) :
    l.view.delegators phase slot = (l.delegators phase slot).map StakerSeq.toList := by
  change (l.delegators phase slot).map StakerSeq.walkAll = _
  rw [funext StakerSeq.walkAll_eq_toList]

theorem write_put_root (state : State) (phase : Phase) (s : Staker) :
    (root state).write (.put phase s) =
      root { state with registries := state.registries.update phase (·.put s) } := by
  unfold Write.put Registry.put
  by_cases hv : s.isValidator = true <;> simp only [hv, if_true] <;> rfl

theorem write_put_layer (parent : Ledger) (id : EntityId) (reachable : Bool) (c : Changes)
    (phase : Phase) (s : Staker) :
    (layer parent id reachable c).write (.put phase s) =
      layer parent id reachable
        { c with registries := c.registries.update phase (·.put s) } := by
  unfold Write.put RegistryOverlay.put
  by_cases hv : s.isValidator = true <;> simp only [hv, if_true] <;> rfl

theorem view_stakers_root (state : State) (phase : Phase) :
    (root state).view.stakers phase = .ok (state.registries.get phase).stakers.values :=
  State.stakers_of_values rfl

theorem view_delegators_root (state : State) (phase : Phase) (slot : Slot) :
    (root state).view.delegators phase slot =
      .ok ((state.registries.get phase).slotStakers slot).delegators.values := by
  rw [view_delegators_eq]
  exact congrArg Except.ok (StakerSeq.toList_ofTree _)

theorem view_stakers_layer (parent : Ledger) (id : EntityId) (reachable : Bool) (c : Changes)
    (phase : Phase) : (layer parent id reachable c).view.stakers phase =
      (throughParent id reachable (parent.stakers phase)).map fun below =>
        StakerSeq.mergeLists
          (below.toList.filter fun s => !(c.registries.get phase).deleted.contains s.txId)
          (c.registries.get phase).added.values := by
  rw [view_stakers_eq]
  change ((throughParent id reachable (parent.stakers phase) >>= fun below =>
    .ok ((c.registries.get phase).all below)) : Answer StakerSeq).map StakerSeq.toList = _
  cases throughParent id reachable (parent.stakers phase) with
  | error e => rfl
  | ok below =>
      exact congrArg Except.ok ((c.registries.get phase).toList_all below)

theorem view_delegators_layer (parent : Ledger) (id : EntityId) (reachable : Bool) (c : Changes)
    (phase : Phase) (slot : Slot) : (layer parent id reachable c).view.delegators phase slot =
      (throughParent id reachable (parent.delegators phase slot)).map fun below =>
        StakerSeq.mergeLists
          (below.toList.filter fun s =>
            !((c.registries.get phase).diffs.recorded slot).deletedDelegators.contains s.txId)
          ((c.registries.get phase).diffs.recorded slot).addedDelegators.values := by
  rw [view_delegators_eq]
  change ((throughParent id reachable (parent.delegators phase slot) >>= fun below =>
    .ok ((c.registries.get phase).delegators below slot)) : Answer StakerSeq).map
      StakerSeq.toList = _
  cases throughParent id reachable (parent.delegators phase slot) with
  | error e => rfl
  | ok below =>
      exact congrArg Except.ok ((c.registries.get phase).toList_delegators below slot)

theorem validator_put (l : Ledger) (phase : Phase) (s : Staker) (slot : Slot) :
    (l.write (.put phase s)).validator phase slot =
      if s.isValidator = true ∧ slot = s.slot then .ok (some s) else l.validator phase slot := by
  cases l with
  | root state =>
      rw [write_put_root]
      simp only [validator, ByPhase.get_update_self, Registry.validator?_put]
      split <;> rfl
  | layer parent id reachable c =>
      rw [write_put_layer]
      simp only [validator, ByPhase.get_update_self, RegistryOverlay.validator?_put]
      by_cases hhere : s.isValidator = true ∧ slot = s.slot
      · rw [if_pos hhere, if_pos hhere]
      · rw [if_neg hhere, if_neg hhere]

/-- A staker that is alone of its transaction in the parent and the layer comes back when the layer
takes its deletion back. -/
theorem joins_restored {read : Answer StakerSeq} {hidden : DeletedStakers} {added : StakerTree}
    (hsorted : ∀ below, read = .ok below → below.toList.Pairwise fun a b => a.notAfter b = true)
    (halone : s.Alone (read.map StakerSeq.toList) added) :
    s.Joins
      ((throughParent id reachable read).map fun below => StakerSeq.mergeLists
        (below.toList.filter fun t => !hidden.contains t.txId) added.values)
      ((throughParent id reachable read).map fun below => StakerSeq.mergeLists
        (below.toList.filter fun t => !(hidden.erase s.txId).contains t.txId) added.values) := by
  refine Staker.joins_unhide hidden (fun below hbelow => ?_) fun held hheld => ?_
  · exact hsorted below (of_throughParent hbelow)
  · obtain ⟨below, hbelow, rfl⟩ := map_eq_ok_iff.mp hheld
    exact halone _ (map_eq_ok_iff.mpr ⟨below, of_throughParent hbelow, rfl⟩)

namespace Filed

theorem stakers_put (h : l.Filed)
    (hfree : s.isValidator = true → l.validator phase s.slot = .ok none)
    (hstay : ¬ l.Displaces phase s) (hkept : ¬ l.Hides phase s) :
    s.Joins (l.view.stakers phase) ((l.write (.put phase s)).view.stakers phase) := by
  have hown : ∀ t ∈ (l.own phase).values, t.key = s.key → t = s := fun t ht hkey =>
    not_not.mp fun hne => hstay ⟨t, Or.inl ht, hkey, hne⟩
  cases l with
  | root state =>
      rw [write_put_root, view_stakers_root, view_stakers_root, ByPhase.get_update_self,
        Registry.stakers_put fun hv => Except.ok.inj (hfree hv)]
      have hjoins := (h.registries phase).all.joins_insert (.ok .empty) (fun _ => []) hown
      simpa only [Except.map, StakerSeq.nil_mergeLists] using hjoins
  | layer parent id reachable c =>
      rw [write_put_layer, view_stakers_layer, view_stakers_layer]
      dsimp only
      rw [ByPhase.get_update_self]
      by_cases hrestores : (c.registries.get phase).Restores s
      · obtain ⟨hadded, hdeleted⟩ := RegistryOverlay.put_of_restores hrestores
        rw [hadded, hdeleted]
        exact joins_restored (fun below => h.1.stakers_sorted) (parent.view_stakers_eq phase ▸
          (not_not.mp fun hne => hkept ⟨hrestores, hne⟩).1)
      · have hreplaced : s.isValidator = true →
            ((c.registries.get phase).diffs.recorded s.slot).replaced? = none := by
          refine fun hv => RegistryOverlay.replaced?_of_validator? fun t ht => ?_
          have hread := hfree hv
          simp only [validator, ht] at hread
          cases hread
        obtain ⟨hadded, hdeleted⟩ := RegistryOverlay.added_put hreplaced hrestores
        rw [hadded, hdeleted]
        exact (h.2.registries phase).added.joins_insert _ _ hown

theorem delegators_put (h : l.Filed) (hstay : ¬ l.Displaces phase s) (hkept : ¬ l.Hides phase s)
    (slot : Slot) :
    if s.isValidator = false ∧ slot = s.slot then
      s.Joins (l.view.delegators phase slot) ((l.write (.put phase s)).view.delegators phase slot)
    else (l.write (.put phase s)).view.delegators phase slot = l.view.delegators phase slot := by
  have hown : ∀ t ∈ (l.ownDelegators phase s.slot).values, t.key = s.key → t = s := fun t ht hkey =>
    not_not.mp fun hne => hstay ⟨t, Or.inr ht, hkey, hne⟩
  cases l with
  | root state =>
      rw [write_put_root, view_delegators_root, view_delegators_root, ByPhase.get_update_self,
        Registry.delegators_put]
      split
      next hhere =>
        obtain ⟨_, rfl⟩ := hhere
        have hjoins :=
          ((h.registries phase).delegators s.slot).joins_insert (.ok .empty) (fun _ => []) hown
        simpa only [Except.map, StakerSeq.nil_mergeLists] using hjoins
      next => rfl
  | layer parent id reachable c =>
      rw [write_put_layer, view_delegators_layer, view_delegators_layer]
      dsimp only
      rw [ByPhase.get_update_self]
      by_cases hrestores : (c.registries.get phase).Restores s
      · obtain ⟨hdeleted, hadded⟩ := RegistryOverlay.delegators_put_of_restores hrestores slot
        rw [hdeleted, hadded]
        by_cases hslot : slot = s.slot
        · subst hslot
          rw [if_pos ⟨hrestores.1, rfl⟩, if_pos rfl]
          exact joins_restored (fun below hbelow => (h.1.delegators_sorted hbelow).1)
            (parent.view_delegators_eq phase s.slot ▸
              (not_not.mp fun hne => hkept ⟨hrestores, hne⟩).2)
        · rw [if_neg fun hhere => hslot hhere.2, if_neg hslot]
      · obtain ⟨hdeleted, hadded⟩ := RegistryOverlay.delegators_put hrestores slot
        rw [hdeleted, hadded]
        split
        next hhere =>
          obtain ⟨_, rfl⟩ := hhere
          exact ((h.2.registries phase).delegators s.slot).joins_insert _ _ hown
        next => rfl

/-- A staker that finds its slot free is one more staker of its phase. -/
theorem view_gains (h : l.Filed)
    (hfree : s.isValidator = true → l.validator phase s.slot = .ok none)
    (hstay : ¬ l.Displaces phase s) (hkept : ¬ l.Hides phase s) :
    l.view.Gains phase s (l.write (.put phase s)).view where
  others := l.view_put phase s
  validator := l.validator_put phase s
  delegators := h.delegators_put hstay hkept
  stakers := h.stakers_put hfree hstay hkept

end Filed

end Ledger

end StakingLedger
