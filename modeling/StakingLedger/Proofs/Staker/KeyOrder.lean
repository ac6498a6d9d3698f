import StakingLedger.Proofs.Staker.Enumeration

/-! # The order of stakers in time

Stakers are ordered by their next time first and by their priority second. So
the stakers that are due by some time stand at the front of a walk, and the first
staker of a walk has the least next time and, at that time, the least rank.
-/

namespace StakingLedger

namespace StakerKey

variable {a b : StakerKey}

theorem compare_eq (a b : StakerKey) :
    compare a b = (compare a.nextTime b.nextTime).then
      ((compare a.priority b.priority).then (compare a.txId b.txId)) :=
  rfl

theorem nextTime_le (h : compare a b ≠ .gt) : a.nextTime ≤ b.nextTime := by
  rw [compare_eq] at h
  rcases hcmp : compare a.nextTime b.nextTime with _ | _ | _
  · exact UInt64.le_of_lt (Std.compare_eq_lt.mp hcmp)
  · exact UInt64.le_of_eq (Std.LawfulEqCmp.eq_of_compare hcmp)
  · rw [hcmp] at h
    exact absurd rfl h

theorem compare_of_nextTime_lt (h : a.nextTime < b.nextTime) : compare a b = .lt := by
  rw [compare_eq, Std.compare_eq_lt.mpr h]
  rfl

theorem compare_trans {c : StakerKey} (hab : compare a b ≠ .gt) (hbc : compare b c ≠ .gt) :
    compare a c ≠ .gt :=
  Ordering.isLE_iff_ne_gt.mp
    (Std.TransCmp.isLE_trans (Ordering.isLE_iff_ne_gt.mpr hab) (Ordering.isLE_iff_ne_gt.mpr hbc))

theorem rank_le (h : compare a b ≠ .gt) (htime : a.nextTime = b.nextTime) :
    a.priority.rank ≤ b.priority.rank := by
  have hself : compare b.nextTime b.nextTime = .eq := Std.ReflCmp.compare_self
  rw [compare_eq, htime, hself] at h
  by_contra hgreater
  have hcmp : compare a.priority b.priority = .gt := by
    change compare a.priority.rank b.priority.rank = .gt
    exact Nat.compare_eq_gt.mpr (by omega)
  rw [hcmp] at h
  exact h rfl

end StakerKey

/-- In a list along which a property can only be lost, the members that have it come first. -/
theorem mem_takeWhile_iff_of_pairwise {α : Type} {p : α → Bool} {l : List α} {a : α}
    (h : l.Pairwise fun a b => p b = true → p a = true) :
    a ∈ l.takeWhile p ↔ a ∈ l ∧ p a = true := by
  induction l with
  | nil => simp
  | cons b rest ih =>
      obtain ⟨hhead, htail⟩ := List.pairwise_cons.mp h
      by_cases hb : p b = true
      · rw [List.takeWhile_cons_of_pos hb, List.mem_cons, List.mem_cons, ih htail]
        constructor
        · rintro (rfl | ⟨hmem, ha⟩)
          · exact ⟨Or.inl rfl, hb⟩
          · exact ⟨Or.inr hmem, ha⟩
        · rintro ⟨rfl | hmem, ha⟩
          · exact Or.inl rfl
          · exact Or.inr ⟨hmem, ha⟩
      -- Once the property is lost nobody later has it.
      · rw [List.takeWhile_cons_of_neg hb]
        constructor
        · intro hmem; cases hmem
        · rintro ⟨hmem, ha⟩
          rcases List.mem_cons.mp hmem with rfl | hmem
          · exact absurd ha hb
          · exact absurd (hhead a hmem ha) hb

variable {stakers : List Staker} {members : Set Staker} {s t : Staker}

theorem Enumerates.nextTime_pairwise (h : Enumerates stakers Staker.key members) :
    stakers.Pairwise fun a b => a.nextTime ≤ b.nextTime :=
  h.sorted.imp fun hlt => StakerKey.nextTime_le (a := Staker.key _) (b := Staker.key _)
    (by rw [hlt]; decide)

/-- The stakers at the front of a walk are those that are due. -/
theorem Enumerates.mem_due_iff (h : Enumerates stakers Staker.key members) (time : UInt64) :
    s ∈ stakers.takeWhile (fun s => s.nextTime ≤ time) ↔ s ∈ members ∧ s.nextTime ≤ time := by
  rw [mem_takeWhile_iff_of_pairwise, h.mem_iff, decide_eq_true_iff]
  refine h.nextTime_pairwise.imp fun {a b} hle hb => ?_
  rw [decide_eq_true_iff] at hb ⊢
  exact UInt64.le_trans hle hb

/-- Nobody stands before the first staker of a walk. -/
theorem Enumerates.head_first (h : Enumerates stakers Staker.key members)
    (hs : stakers.head? = some s) (ht : t ∈ members) : compare s.key t.key ≠ .gt := by
  cases stakers with
  | nil => cases hs
  | cons first rest =>
      cases hs
      rcases List.mem_cons.mp ((h.mem_iff t).mpr ht) with rfl | hrest
      · have hself : compare t.key t.key = .eq := Std.ReflCmp.compare_self
        rw [hself]
        decide
      · rw [(List.pairwise_cons.mp h.sorted).1 t hrest]
        decide

end StakingLedger
