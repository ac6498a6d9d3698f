import StakingLedger.Proofs.Ledger.View
import StakingLedger.Proofs.ValidatorSet.Weight
import StakingLedger.ValidatorSet

/-! # The current validator set

A slot that weighs anything stands in the validator set of its supernet with
its weight and the key of its validator. On sound stakers the projection
succeeds and lists just these slots, by node.
-/

namespace StakingLedger

/-- What consensus expects of the current stakers: delegators have a validator in their slot,
validators have weight of their own, and the weight of a slot is a word. -/
structure SoundStakers (held : List Staker) : Prop where
  staffed : ∀ d ∈ held, d.isValidator = false →
    ∃ v ∈ held, v.isValidator = true ∧ v.slot = d.slot
  weighty : ∀ v ∈ held, v.isValidator = true → v.weight ≠ 0
  bounded : ∀ slot, slotWeight held slot < UInt64.size

/-- What a validator set says of a slot. -/
def standing (held : List Staker) (slot : Slot) : Option (UInt64 × Option Bytes) :=
  if slotWeight held slot = 0 then none
  else some (UInt64.ofNat (slotWeight held slot), slotKey held slot)

/-- The entries are those of the slots of a supernet that weigh anything, by node. -/
def Lists (held : List Staker) (supernet : EntityId) (entries : List ValidatorEntry) : Prop :=
  Enumerates entries ValidatorEntry.nodeId
    {e | standing held ⟨supernet, e.nodeId⟩ = some (e.weight, e.publicKey)}

variable {held : List Staker} {members : Set Staker} {slot : Slot} {supernet : EntityId}

/-- Stakers that do not weigh too much together do not so in any slot. -/
theorem SoundStakers.of_total
    (hstaffed : ∀ d ∈ held, d.isValidator = false →
      ∃ v ∈ held, v.isValidator = true ∧ v.slot = d.slot)
    (hweighty : ∀ v ∈ held, v.isValidator = true → v.weight ≠ 0)
    (htotal : (held.map fun t => t.weight.toNat).sum < UInt64.size) : SoundStakers held where
  staffed := hstaffed
  weighty := hweighty
  bounded slot := Nat.lt_of_le_of_lt (slotWeight_le held slot) htotal

/-! ## Sums of weights -/

theorem totalWeight_nonneg (l : List Staker) : 0 ≤ totalWeight l := by
  induction l with
  | nil => exact Int.le_refl 0
  | cons t rest ih =>
      change 0 ≤ (t.weight.toNat : Int) + totalWeight rest
      omega

theorem addWeights_eq_ok {start : UInt64} {l : List Staker}
    (h : start.toNat + totalWeight l < UInt64.size) :
    ∃ sum, Ledger.addWeights start l = .ok sum ∧ (sum.toNat : Int) = start.toNat + totalWeight l := by
  induction l generalizing start with
  | nil => exact ⟨start, rfl, (Int.add_zero _).symm⟩
  | cons t rest ih =>
      have hsplit : totalWeight (t :: rest) = t.weight.toNat + totalWeight rest := rfl
      have hrest := totalWeight_nonneg rest
      have hnext : (start + t.weight).toNat = start.toNat + t.weight.toNat := by
        rw [UInt64.toNat_add]
        exact Nat.mod_eq_of_lt (by change _ < UInt64.size; omega)
      have hadd : checkedAdd start t.weight "validator weight" = .ok (start + t.weight) :=
        checkedAdd_eq_ok_iff.mpr hnext.symm
      have hfits : (start + t.weight).toNat + totalWeight rest < UInt64.size := by omega
      obtain ⟨sum, hsum, hvalue⟩ := ih hfits
      refine ⟨sum, bind_eq_ok_iff.mpr ⟨_, hadd, hsum⟩, ?_⟩
      rw [hvalue, hnext, hsplit, Int.natCast_add, Int.add_assoc]

/-! ## Slots that weigh something -/

theorem enumerates_delegatorList (h : Enumerates held Staker.key members) (slot : Slot) :
    Enumerates (delegatorList held slot) Staker.key (delegatorsIn members slot) :=
  ⟨(h.sorted.filter _).filter _, fun _ => mem_delegatorList h⟩

theorem slotWeight_eq_zero_iff (h : Enumerates held Staker.key members)
    (hone : OneValidatorPerSlot members) (hsound : SoundStakers held) :
    slotWeight held slot = 0 ↔ occupant members slot = none := by
  have hsplit : (slotWeight held slot : Int) = _ := slotWeight_split h hone
  have hdelegators := totalWeight_nonneg (delegatorList held slot)
  cases hoccupant : occupant members slot with
  | none =>
      have hempty : inSlot held slot = [] := by
        refine List.eq_nil_iff_forall_not_mem.mpr fun t ht => ?_
        obtain ⟨hmem, hslot⟩ := mem_inSlot.mp ht
        have hfree := occupant_eq_none_iff.mp hoccupant
        cases hv : t.isValidator with
        | true => exact hfree t ((h.mem_iff t).mp hmem) hv hslot
        | false =>
            obtain ⟨v, hv, hisValidator, heq⟩ := hsound.staffed t hmem hv
            exact hfree v ((h.mem_iff v).mp hv) hisValidator (heq.trans hslot)
      simp [slotWeight, hempty]
  | some v =>
      obtain ⟨hmem, hv, _⟩ := spec_of_occupant hoccupant
      have hweight := hsound.weighty v ((h.mem_iff v).mpr hmem) hv
      have hnat : v.weight.toNat ≠ 0 := fun hzero => hweight (UInt64.toNat_inj.mp hzero)
      rw [hoccupant] at hsplit
      have hvalidator : validatorWeight (some v) = v.weight.toNat := Int.add_zero _
      refine iff_of_false (fun hzero => ?_) (fun hnone => nomatch hnone)
      omega

/-- Without weight there is no validator, and so no key. -/
theorem slotKey_eq_none (hsound : SoundStakers held) (hzero : slotWeight held slot = 0) :
    slotKey held slot = none := by
  have hfind : (inSlot held slot).find? Staker.isValidator = none := by
    refine List.find?_eq_none.mpr fun v hmem hv => ?_
    have hweight := hsound.weighty v (mem_inSlot.mp hmem).1 hv
    have hle : v.weight.toNat ≤ slotWeight held slot :=
      List.le_sum_of_mem (List.mem_map.mpr ⟨v, hmem, rfl⟩)
    exact hweight (UInt64.toNat_inj.mp (Nat.le_zero.mp (hzero ▸ hle)))
  rw [slotKey, hfind]
  rfl

theorem standing_eq_some_iff (h : Enumerates held Staker.key members)
    (hone : OneValidatorPerSlot members) (hsound : SoundStakers held) {weight : UInt64}
    {key : Option Bytes} :
    standing held slot = some (weight, key) ↔ ∃ v, occupant members slot = some v ∧
      weight.toNat = slotWeight held slot ∧ key = v.publicKey := by
  have hbound := hsound.bounded slot
  have hweight : ∀ n : UInt64, UInt64.ofNat (slotWeight held slot) = n ↔
      n.toNat = slotWeight held slot := by
    intro n
    rw [← UInt64.toNat_inj, UInt64.toNat_ofNat_of_lt' hbound, eq_comm]
  unfold standing
  rw [slotKey_eq h hone]
  cases hoccupant : occupant members slot with
  | none =>
      rw [if_pos ((slotWeight_eq_zero_iff h hone hsound).mpr hoccupant)]
      constructor
      · intro hnone; cases hnone
      · rintro ⟨_, hnone, _⟩
        cases hnone
  | some v =>
      have hpositive : slotWeight held slot ≠ 0 := fun hzero => by
        rw [(slotWeight_eq_zero_iff h hone hsound).mp hzero] at hoccupant
        cases hoccupant
      rw [if_neg hpositive, Option.some.injEq, Prod.mk.injEq, hweight, Option.bind_some]
      constructor
      · rintro ⟨hvalue, rfl⟩
        exact ⟨v, rfl, hvalue, rfl⟩
      · rintro ⟨_, hsome, hvalue, rfl⟩
        cases hsome
        exact ⟨hvalue, rfl⟩

/-! ## The projection -/

namespace Ledger

variable {l : Ledger} {c : Contents}

theorem validatorEntry_eq_ok (h : l.view.Shows c) (hone : OneValidatorPerSlot (c.stakers .current))
    (hheld : Enumerates held Staker.key (c.stakers .current)) (hsound : SoundStakers held)
    {v : Staker} (hoccupant : occupant (c.stakers .current) v.slot = some v) :
    ∃ e, l.validatorEntry v = .ok e ∧ e.nodeId = v.nodeId ∧
      standing held v.slot = some (e.weight, e.publicKey) := by
  obtain ⟨delegators, hread, hdelegators⟩ := h.delegators .current v.slot
  obtain ⟨walk, hwalk, rfl⟩ := map_eq_ok_iff.mp hread
  rw [StakerSeq.walkAll_eq_toList] at hdelegators
  have hsame := hdelegators.unique (enumerates_delegatorList hheld v.slot)
  have hsplit : (slotWeight held v.slot : Int) = _ := slotWeight_split hheld hone
  have hvalidator : validatorWeight (some v) = v.weight.toNat := Int.add_zero _
  have hbound := hsound.bounded v.slot
  rw [hoccupant, hvalidator, ← hsame] at hsplit
  have hfits : v.weight.toNat + totalWeight walk.toList < UInt64.size := by omega
  obtain ⟨sum, hsum, hvalue⟩ := addWeights_eq_ok hfits
  refine ⟨⟨v.nodeId, sum, v.publicKey⟩,
    bind_eq_ok_iff.mpr ⟨walk, hwalk, bind_eq_ok_iff.mpr ⟨sum, hsum, rfl⟩⟩, rfl, ?_⟩
  have hweight : sum.toNat = slotWeight held v.slot := by omega
  exact (standing_eq_some_iff hheld hone hsound).mpr ⟨v, hoccupant, hweight, rfl⟩

/-- The validators of a supernet in a walk are those that occupy its slots. -/
theorem mem_validatorsOf (hone : OneValidatorPerSlot members) {walk : List Staker}
    (hwalk : Enumerates walk Staker.key members) {v : Staker} :
    v ∈ walk.filter (fun s => s.supernetId == supernet && s.isValidator) ↔
      occupant members ⟨supernet, v.nodeId⟩ = some v := by
  rw [List.mem_filter, hwalk.mem_iff, Bool.and_eq_true, beq_iff_eq, occupant_eq_some_iff hone]
  constructor
  · rintro ⟨hmem, rfl, hv⟩
    exact ⟨hmem, hv, rfl⟩
  · rintro ⟨hmem, hv, hslot⟩
    exact ⟨hmem, congrArg Slot.supernetId hslot, hv⟩

/-- The entries of the validators that occupy slots are those of the slots that weigh anything. -/
theorem mem_entries_iff (h : l.view.Shows c) (hone : OneValidatorPerSlot (c.stakers .current))
    (hheld : Enumerates held Staker.key (c.stakers .current)) (hsound : SoundStakers held)
    {validators : List Staker} (hvalidators : ∀ v, v ∈ validators ↔
      occupant (c.stakers .current) ⟨supernet, v.nodeId⟩ = some v) :
    ∃ entries, validators.mapM l.validatorEntry = .ok entries ∧ ∀ e, e ∈ entries ↔
      standing held ⟨supernet, e.nodeId⟩ = some (e.weight, e.publicKey) := by
  have hentry : ∀ v ∈ validators, ∃ e, l.validatorEntry v = .ok e ∧ e.nodeId = v.nodeId ∧
      standing held ⟨supernet, v.nodeId⟩ = some (e.weight, e.publicKey) := by
    intro v hv
    have hoccupant := (hvalidators v).mp hv
    have hslot := (spec_of_occupant hoccupant).2.2
    have hread := validatorEntry_eq_ok h hone hheld hsound (hslot ▸ hoccupant)
    rwa [hslot] at hread
  obtain ⟨entries, hentries⟩ := exists_mapM_eq_ok fun v hv => (hentry v hv).imp fun _ h => h.1
  refine ⟨entries, hentries, fun e => ⟨fun he => ?_, fun hstanding => ?_⟩⟩
  · obtain ⟨v, hv, hread⟩ := (mem_of_mapM_eq_ok hentries).1 e he
    obtain ⟨e', he', hnode, hstanding⟩ := hentry v hv
    rw [hread] at he'
    cases he'
    rwa [hnode]
  · -- The validator of the slot has an entry, and a slot has one standing.
    obtain ⟨v, hoccupant, _, _⟩ := (standing_eq_some_iff hheld hone hsound).mp hstanding
    have hnode : v.nodeId = e.nodeId := congrArg Slot.nodeId (spec_of_occupant hoccupant).2.2
    have hv := (hvalidators v).mpr (hnode ▸ hoccupant)
    obtain ⟨e', he', hread⟩ := (mem_of_mapM_eq_ok hentries).2 v hv
    obtain ⟨e'', he'', hnode', hstanding'⟩ := hentry v hv
    rw [hread] at he''
    cases he''
    rw [hnode, hstanding] at hstanding'
    cases e; cases e'; cases hnode'; cases hnode; cases hstanding'
    exact he'

/-- The projection of sound stakers succeeds, and lists the slots that weigh anything. -/
theorem validatorSet_eq_ok (h : l.view.Shows c) (hone : OneValidatorPerSlot (c.stakers .current))
    (hheld : Enumerates held Staker.key (c.stakers .current)) (hsound : SoundStakers held)
    (supernet : EntityId) : ∃ entries, l.validatorSet supernet = .ok entries ∧
      Lists held supernet entries := by
  obtain ⟨read, hread, hmembers⟩ := h.stakers .current
  obtain ⟨walk, hwalk, rfl⟩ := map_eq_ok_iff.mp hread
  rw [StakerSeq.walkAll_eq_toList] at hmembers
  have hvalidators : ∀ v,
      v ∈ walk.toList.filter (fun s => s.supernetId == supernet && s.isValidator) ↔
        occupant (c.stakers .current) ⟨supernet, v.nodeId⟩ = some v :=
    fun v => mem_validatorsOf hone hmembers
  obtain ⟨raw, hraw, hlisted⟩ := mem_entries_iff h hone hheld hsound hvalidators
  refine ⟨_, bind_eq_ok_iff.mpr ⟨walk, hwalk, bind_eq_ok_iff.mpr ⟨raw, hraw, rfl⟩⟩, ?_⟩
  refine (OrderedMap.indexes_ofList hlisted fun e he e' he' hnode => ?_).enumerates
  have heq := (congrArg (fun n => standing held ⟨supernet, n⟩) hnode).symm.trans he
  rw [show standing held ⟨supernet, e'.nodeId⟩ = _ from he'] at heq
  cases e; cases e'; cases hnode; cases heq
  rfl

end Ledger

/-! ## The set under reconstruction -/

namespace ValidatorMap

variable {set set' : ValidatorMap}

/-- The set has for each node of a supernet what its slot stands for. -/
def Describes (set : ValidatorMap) (held : List Staker) (supernet : EntityId) : Prop :=
  ∀ node, set.get? node = standing held ⟨supernet, node⟩

theorem Describes.toEntries (h : set.Describes held supernet) :
    Lists held supernet set.toEntries := by
  refine ⟨List.pairwise_map.mpr set.sorted, fun e => ?_⟩
  rw [Set.mem_ofPred_eq, ← h e.nodeId, OrderedMap.get?_eq_some_iff, ValidatorMap.toEntries,
    List.mem_map]
  constructor
  · rintro ⟨⟨node, weight, key⟩, hmem, rfl⟩
    exact hmem
  · exact fun hmem => ⟨_, hmem, rfl⟩

theorem describes_ofEntries {entries : List ValidatorEntry} (h : Lists held supernet entries) :
    (ofEntries entries).Describes held supernet := by
  intro node
  rw [ofEntries, OrderedMap.ofList, OrderedMap.get?_insertMany, OrderedMap.get?_empty,
    Option.or_none]
  refine OrderedMap.lastValue?_eq_of_graph fun v => ?_
  rw [List.mem_map]
  constructor
  · rintro ⟨e, he, heq⟩
    cases heq
    exact (h.mem_iff e).mp he
  · intro hstanding
    exact ⟨⟨node, v.1, v.2⟩, (h.mem_iff _).mpr hstanding, rfl⟩

end ValidatorMap

end StakingLedger
