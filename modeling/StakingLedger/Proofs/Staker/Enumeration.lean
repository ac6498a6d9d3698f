import StakingLedger.Proofs.OrderedMap.Index
import StakingLedger.Staker.SequenceLemmas

/-! # Walks as enumerations of staker sets

A sequence of stakers enumerates a set when it meets exactly its members in the
order of their keys. Masking takes the deleted stakers out of the set, and the
merge of two walks without a common key enumerates the union.
-/

namespace StakingLedger

namespace Staker

theorem notAfter_iff {a b : Staker} : a.notAfter b = true ↔ compare a.key b.key ≠ .gt := by
  rw [notAfter, Ordering.isGE_iff_ne_lt, ne_eq, @Std.OrientedCmp.gt_iff_lt _ compare]

theorem notAfter_of_lt {a b : Staker} (h : compare a.key b.key = .lt) : a.notAfter b = true :=
  notAfter_iff.mpr (by rw [h]; decide)

theorem notAfter_trans (a b c : Staker) (hab : a.notAfter b = true) (hbc : b.notAfter c = true) :
    a.notAfter c = true :=
  Std.TransCmp.isGE_trans hbc hab

theorem notAfter_total (a b : Staker) : (a.notAfter b || b.notAfter a) = true := by
  rw [Bool.or_eq_true, notAfter_iff, notAfter_iff]
  by_cases h : compare a.key b.key = .gt
  · right
    rw [Std.OrientedCmp.lt_of_gt h]
    decide
  · exact Or.inl h

theorem key_eq_of_notAfter {a b : Staker} (hab : a.notAfter b = true) (hba : b.notAfter a = true) :
    a.key = b.key := by
  cases hcmp : compare a.key b.key with
  | eq => exact Std.LawfulEqCmp.eq_of_compare hcmp
  | gt => exact absurd hcmp (notAfter_iff.mp hab)
  | lt => exact absurd (Std.OrientedCmp.gt_of_lt hcmp) (notAfter_iff.mp hba)

theorem txId_of_key_eq {s t : Staker} (h : s.key = t.key) : s.txId = t.txId :=
  congrArg StakerKey.txId h

theorem isValidator_of_key_eq {s t : Staker} (h : s.key = t.key) : s.isValidator = t.isValidator :=
  congrArg (fun key => key.priority.isValidator) h

end Staker

namespace StakerSeq

variable {first second : List Staker}

theorem mergeLists_perm (first second : List Staker) :
    (mergeLists first second).Perm (first ++ second) := by
  rw [mergeLists_eq_merge]
  exact List.merge_perm_append _

theorem sorted_mergeLists (hfirst : first.Pairwise fun a b => a.notAfter b = true)
    (hsecond : second.Pairwise fun a b => a.notAfter b = true) :
    (mergeLists first second).Pairwise fun a b => a.notAfter b = true := by
  rw [mergeLists_eq_merge]
  exact List.pairwise_merge Staker.notAfter_trans Staker.notAfter_total _ _ hfirst hsecond

end StakerSeq

theorem Enumerates.mergeLists {first second : List Staker} {A B : Set Staker}
    (hA : Enumerates first Staker.key A) (hB : Enumerates second Staker.key B)
    (hapart : ∀ s ∈ A, ∀ t ∈ B, s.key ≠ t.key) :
    Enumerates (StakerSeq.mergeLists first second) Staker.key (A ∪ B) := by
  have hperm := StakerSeq.mergeLists_perm first second
  have hsorted := StakerSeq.sorted_mergeLists (hA.sorted.imp Staker.notAfter_of_lt)
    (hB.sorted.imp Staker.notAfter_of_lt)
  have hdistinct : (StakerSeq.mergeLists first second).Pairwise fun a b => a.key ≠ b.key :=
    (hperm.pairwise_iff fun hne => Ne.symm hne).mpr <| List.pairwise_append.mpr
      ⟨hA.keys_distinct, hB.keys_distinct,
        fun s hs t ht => hapart s ((hA.mem_iff s).mp hs) t ((hB.mem_iff t).mp ht)⟩
  refine ⟨(hsorted.and hdistinct).imp fun h => ?_, fun s => ?_⟩
  · exact OrderedMap.compare_lt_of_ne_gt h.2 (Staker.notAfter_iff.mp h.1)
  · rw [hperm.mem_iff, List.mem_append, hA.mem_iff, hB.mem_iff, Set.mem_union]

/-- The walk over the stakers of a map that indexes them. -/
theorem OrderedMap.Indexes.enumerates_ofTree {tree : StakerTree} {members : Set Staker}
    (h : tree.Indexes Staker.key members) :
    Enumerates (StakerSeq.ofTree tree).toList Staker.key members := by
  rw [StakerSeq.toList_ofTree]
  exact h.enumerates

/-- A walk that hides what a layer deleted and adds what it added. -/
theorem Enumerates.masked_merged {parent : StakerSeq} {deleted : DeletedStakers}
    {added : StakerTree} {base gone come members : Set Staker}
    (hparent : Enumerates parent.toList Staker.key base)
    (hdeleted : deleted.Indexes Staker.txId gone) (hadded : added.Indexes Staker.key come)
    (htx : base.InjOn Staker.txId) (hgone : gone ⊆ base)
    (hapart : ∀ s ∈ base, s ∉ gone → ∀ t ∈ come, s.key ≠ t.key)
    (hmembers : ∀ s, s ∈ members ↔ (s ∈ base ∧ s ∉ gone) ∨ s ∈ come) :
    Enumerates (StakerSeq.merge (.mask parent deleted) (.ofTree added)).toList Staker.key
      members := by
  rw [StakerSeq.toList_merge, StakerSeq.toList_mask]
  have hmask : ∀ s ∈ base, (!deleted.contains s.txId) = true ↔ s ∉ gone := by
    intro s hs
    rw [Bool.not_eq_true', ← Bool.not_eq_true, hdeleted.contains_iff, not_iff_not]
    constructor
    · rintro ⟨t, ht, heq⟩
      exact htx (hgone ht) hs heq ▸ ht
    · exact fun hgone => ⟨s, hgone, rfl⟩
  have hleft : Enumerates (parent.toList.filter fun s => !deleted.contains s.txId) Staker.key
      {s | s ∈ base ∧ s ∉ gone} :=
    (hparent.filter _).congr fun s => and_congr_right (hmask s)
  exact (hleft.mergeLists hadded.enumerates_ofTree
    (fun s hs => hapart s hs.1 hs.2)).congr fun s => (hmembers s).symm

end StakingLedger
