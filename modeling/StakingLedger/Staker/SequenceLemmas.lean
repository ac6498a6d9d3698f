import StakingLedger.Staker.Sequence

/-! # Laws of staker sequences

A step meets the head of `toList` and leaves its tail, so a walk meets the
stakers that `toList` says. The collapsing constructors change nothing: a merge
is the merge of the two lists, and a mask filters.
-/

namespace StakingLedger.StakerSeq

/-! ## Merging lists -/

@[simp] theorem mergeLists_nil (first : List Staker) : mergeLists first [] = first := by
  cases first <;> simp [mergeLists]

@[simp] theorem nil_mergeLists (second : List Staker) : mergeLists [] second = second := by
  simp [mergeLists]

theorem mergeLists_cons (a b : Staker) (first second : List Staker) :
    mergeLists (a :: first) (b :: second) =
      if a.notAfter b then a :: mergeLists first (b :: second)
      else b :: mergeLists (a :: first) second := by
  rw [mergeLists]

/-! ## One step -/

/-- A step loses nobody, and meets somebody unless nobody is left. -/
structure Step.Splits {total : Nat} (step : Step total) (stakers : List Staker) : Prop where
  toList_eq : stakers = step.met.toList ++ step.rest.toList
  eq_nil : step.met = none → stakers = []

theorem Step.Splits.fill {walk : StakerSeq} {head : Option Staker} {step : Step walk.weight}
    (h : step.Splits walk.toList) :
    (walk.fill head step).Splits (head.toList ++ walk.toList) := by
  cases head with
  | none => exact ⟨h.toList_eq, h.eq_nil⟩
  | some s => exact ⟨rfl, fun hnone => by cases hnone⟩

theorem step_splits (walk : StakerSeq) : walk.step.Splits walk.toList := by
  -- The cases are those of a step: a merge compares its two heads, and a mask passes over the
  -- deleted.
  fun_induction step walk with
  | case1 => exact ⟨rfl, fun _ => rfl⟩
  | case2 => exact ⟨rfl, fun _ => rfl⟩
  | case3 s rest => exact ⟨rfl, fun hnone => by cases hnone⟩
  | case4 first second firstHead secondHead a b s t ha hb hle ih₁ ih₂ =>
    have h₁ : a.Splits _ := ih₁.fill
    have h₂ : b.Splits _ := ih₂.fill
    refine ⟨?_, fun hnone => by cases hnone⟩
    simp [toList, h₁.toList_eq, h₂.toList_eq, ha, hb, mergeLists_cons, hle]
  | case5 first second firstHead secondHead a b s t ha hb hle ih₁ ih₂ =>
    have h₁ : a.Splits _ := ih₁.fill
    have h₂ : b.Splits _ := ih₂.fill
    refine ⟨?_, fun hnone => by cases hnone⟩
    simp [toList, h₁.toList_eq, h₂.toList_eq, ha, hb, mergeLists_cons, hle]
  | case6 first second firstHead secondHead a b s ha hb ih₁ ih₂ =>
    have h₁ : a.Splits _ := ih₁.fill
    have h₂ : b.Splits _ := ih₂.fill
    have hrest : b.rest.toList = [] := by simpa [hb] using h₂.toList_eq.symm.trans (h₂.eq_nil hb)
    refine ⟨?_, fun hnone => by cases hnone⟩
    simp [toList, h₁.toList_eq, h₂.eq_nil hb, hrest, ha]
  | case7 first second firstHead secondHead a b ha ih₁ ih₂ =>
    have h₁ : a.Splits _ := ih₁.fill
    have h₂ : b.Splits _ := ih₂.fill
    have hrest : a.rest.toList = [] := by simpa [ha] using h₁.toList_eq.symm.trans (h₁.eq_nil ha)
    refine ⟨?_, fun hnone => ?_⟩
    · simp [toList, h₂.toList_eq, h₁.eq_nil ha, hrest]
    · simp [toList, h₁.eq_nil ha, h₂.eq_nil hnone]
  | case8 source deleted rest hrest hstep ih =>
    rw [hstep] at ih
    have hnil : source.toList = [] := ih.eq_nil rfl
    have hleft : rest.toList = [] := by simpa [hnil] using ih.toList_eq
    exact ⟨by simp [toList, hnil, hleft], fun _ => by simp [toList, hnil]⟩
  | case9 source deleted s rest hrest hstep hshorter hdeleted further ih ihrest =>
    rw [hstep] at ih
    have hsame : (source.masked deleted).toList = (rest.masked deleted).toList := by
      simp [toList, ih.toList_eq, hdeleted]
    rw [hsame]
    exact ⟨ihrest.toList_eq, ihrest.eq_nil⟩
  | case10 source deleted s rest hrest hstep hshorter hkept ih =>
    rw [hstep] at ih
    refine ⟨?_, fun hnone => by cases hnone⟩
    simp [toList, ih.toList_eq, hkept]

/-- What a step meets is the head of the walk's stakers. -/
theorem next_fst (walk : StakerSeq) : walk.next.1 = walk.toList.head? := by
  have h := walk.step_splits
  cases hmet : walk.step.met with
  | none => simp [next, hmet, h.eq_nil hmet]
  | some s => simp [next, hmet, h.toList_eq]

theorem toList_next_snd (walk : StakerSeq) : walk.next.2.toList = walk.toList.tail := by
  have h := walk.step_splits
  cases hmet : walk.step.met with
  | none =>
    have hnil := h.eq_nil hmet
    have hrest := h.toList_eq
    simp only [hmet, hnil, Option.toList_none, List.nil_append] at hrest
    simp [next, hnil, ← hrest]
  | some s => simp [next, hmet, h.toList_eq]

/-! ## Walks -/

theorem walk_eq_take (sequence : StakerSeq) (count : Nat) :
    sequence.walk count = sequence.toList.take count := by
  induction count generalizing sequence with
  | zero => simp [walk]
  | succ count ih =>
    have hmet := sequence.next_fst
    have hrest := sequence.toList_next_snd
    rw [walk]
    cases hlist : sequence.toList with
    | nil =>
      split
      · simp
      next s rest h => simp [h, hlist] at hmet
    | cons s tail =>
      split
      next h => simp [h, hlist] at hmet
      next s' rest h =>
        simp [h, hlist] at hmet hrest
        simp [hmet, ih, hrest]

theorem length_toList_le_weight (sequence : StakerSeq) :
    sequence.toList.length ≤ sequence.weight := by
  fun_induction toList sequence with
  | case1 => simp
  | case2 => simp [weight]
  | case3 first second firstHead secondHead ih₁ ih₂ =>
    simp only [mergeLists_eq_merge, List.length_merge, List.length_append, weight]
    omega
  | case4 source deleted ih =>
    have h := List.length_filter_le (fun s => !deleted.contains s.txId) source.toList
    simp only [weight]
    omega

@[simp] theorem walkAll_eq_toList (sequence : StakerSeq) : sequence.walkAll = sequence.toList := by
  rw [walkAll, walk_eq_take, List.take_of_length_le sequence.length_toList_le_weight]

/-! ## Construction -/

@[simp] theorem toList_ofTree (tree : StakerTree) : (ofTree tree).toList = tree.values := by
  unfold ofTree
  split
  next hempty =>
    have hnil : tree.entries = [] := List.isEmpty_iff.mp hempty
    simp [toList, OrderedMap.values, hnil]
  next => simp [toList]

@[simp] theorem toList_merge (first second : StakerSeq) :
    (merge first second).toList = mergeLists first.toList second.toList := by
  unfold merge
  split <;> simp [toList]

@[simp] theorem toList_mask (source : StakerSeq) (deleted : DeletedStakers) :
    (mask source deleted).toList = source.toList.filter fun s => !deleted.contains s.txId := by
  unfold mask
  split
  next => simp [toList]
  next =>
    split
    next hempty =>
      have hnil : deleted.entries = [] := List.isEmpty_iff.mp hempty
      symm
      rw [List.filter_eq_self]
      intro s _
      simp [OrderedMap.contains, OrderedMap.get?, hnil]
    next => simp [toList]

end StakingLedger.StakerSeq
