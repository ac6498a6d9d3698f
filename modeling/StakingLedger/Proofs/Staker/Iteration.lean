import StakingLedger.Proofs.Staker.Enumeration

/-! # What iterating yields

An iterator is a state with a step that yields an item or nothing. It yields a
list when it gives the items one by one and then nothing, however often it is
asked again. An expression over staker sequences yields the list that it denotes:
the values of a tree in key order, the stable merge of two lists, the stakers of
a list whose transaction is not deleted. What a constructor collapses makes no
difference.
-/

namespace StakingLedger

/-! ## Iterators -/

/-- From a state on, the iterator yields exactly the listed items; after them it yields nothing,
after any number of further steps. -/
inductive Yields {σ α : Type} (next : σ → Option α × σ) : σ → List α → Prop
  | done {s : σ} (h : ∀ n, (next ((fun s => (next s).2)^[n] s)).1 = none) : Yields next s []
  | item {s s' : σ} {a : α} {rest : List α} (h : next s = (some a, s'))
    (hrest : Yields next s' rest) : Yields next s (a :: rest)

namespace Yields

variable {σ α : Type} {next : σ → Option α × σ} {view : σ → List α}

/-- Without an item left, no number of steps brings one back. -/
theorem view_iterate (hrest : ∀ s, view (next s).2 = (view s).tail) (n : Nat) {s : σ}
    (hnil : view s = []) : view ((fun s => (next s).2)^[n] s) = [] := by
  induction n with
  | zero => exact hnil
  | succ n ih => rw [Function.iterate_succ_apply', hrest, ih, List.tail_nil]

/-- An iterator yields what is in view when a step meets the head and leaves the tail. -/
theorem of_view (hmet : ∀ s, (next s).1 = (view s).head?)
    (hrest : ∀ s, view (next s).2 = (view s).tail) (s : σ) : Yields next s (view s) := by
  -- By induction on the list that is in view, from any state.
  generalize hview : view s = items
  induction items generalizing s with
  | nil =>
      refine .done fun n => ?_
      rw [hmet, view_iterate hrest n hview, List.head?_nil]
  | cons a items ih =>
      have hitem : (next s).1 = some a := by rw [hmet, hview, List.head?_cons]
      exact .item (Prod.ext hitem rfl) (ih _ (by rw [hrest, hview, List.tail_cons]))

end Yields

theorem StakerSeq.yields_toList (walk : StakerSeq) : Yields StakerSeq.next walk walk.toList :=
  .of_view StakerSeq.next_fst StakerSeq.toList_next_snd walk

/-! ## Expressions over sequences -/

/-- An expression over staker sequences. -/
inductive SeqExpr where
  | empty
  | tree (t : StakerTree)
  | merge (first second : SeqExpr)
  | mask (source : SeqExpr) (deleted : DeletedStakers)

namespace SeqExpr

/-- The sequence that the constructors make of an expression. -/
def build : SeqExpr → StakerSeq
  | empty => .empty
  | tree t => .ofTree t
  | merge first second => .merge first.build second.build
  | mask source deleted => .mask source.build deleted

/-- The list that an expression stands for. -/
def denotes : SeqExpr → List Staker
  | empty => []
  | tree t => t.values
  | merge first second => List.merge first.denotes second.denotes Staker.notAfter
  | mask source deleted => source.denotes.filter fun s => !deleted.contains s.txId

/-- The stakers of the trees, one tree after the other, without those that are masked. -/
def sources : SeqExpr → List Staker
  | empty => []
  | tree t => t.values
  | merge first second => first.sources ++ second.sources
  | mask source deleted => source.sources.filter fun s => !deleted.contains s.txId

/-- In every tree each staker stands under its own key. -/
def Keyed : SeqExpr → Prop
  | empty => True
  | tree t => ∀ e ∈ t.entries, e.2.key = e.1
  | merge first second => first.Keyed ∧ second.Keyed
  | mask source _ => source.Keyed

theorem toList_build (e : SeqExpr) : e.build.toList = e.denotes := by
  induction e with
  | empty => rfl
  | tree t => exact StakerSeq.toList_ofTree t
  | merge first second ihfirst ihsecond =>
      rw [build, StakerSeq.toList_merge, StakerSeq.mergeLists_eq_merge, ihfirst, ihsecond, denotes]
  | mask source deleted ih => rw [build, StakerSeq.toList_mask, ih, denotes]

theorem denotes_perm_sources (e : SeqExpr) : e.denotes.Perm e.sources := by
  induction e with
  | empty => exact .refl _
  | tree t => exact .refl _
  | merge first second ihfirst ihsecond =>
      exact (List.merge_perm_append _).trans (ihfirst.append ihsecond)
  | mask source deleted ih => exact ih.filter _

theorem Keyed.sorted {e : SeqExpr} (h : e.Keyed) :
    e.denotes.Pairwise fun a b => a.notAfter b = true := by
  induction e with
  | empty => exact .nil
  | tree t =>
      refine List.pairwise_map.mpr (t.sorted.imp_of_mem fun {a b} ha hb hlt => ?_)
      exact Staker.notAfter_of_lt (by rw [h a ha, h b hb, hlt])
  | merge first second ihfirst ihsecond =>
      exact List.pairwise_merge Staker.notAfter_trans Staker.notAfter_total _ _ (ihfirst h.1)
        (ihsecond h.2)
  | mask source deleted ih => exact (ih h).filter _

/-- Iterating an expression yields exactly the list that it denotes. The list has the stakers of
the trees that are not masked, in the order of their keys. -/
theorem build_yields (e : SeqExpr) :
    Yields StakerSeq.next e.build e.denotes ∧ e.denotes.Perm e.sources ∧
      (e.Keyed → e.denotes.Pairwise fun a b => compare a.key b.key ≠ .gt) := by
  refine ⟨?_, e.denotes_perm_sources, fun h => h.sorted.imp Staker.notAfter_iff.mp⟩
  rw [← e.toList_build]
  exact e.build.yields_toList

end SeqExpr

/-- A current delegator. -/
def endingStaker (word weight endTime : UInt64) : Staker :=
  { (default : Staker) with
    txId := .ofWord word
    weight := weight
    endTime := endTime
    nextTime := endTime
    priority := .primaryNetworkDelegatorCurrent }

/-- Two sets of delegators that meet in one key. -/
def firstEnding : StakerTree := .ofStakers [endingStaker 1 10 200, endingStaker 2 10 300]

def secondEnding : StakerTree := .ofStakers [endingStaker 3 10 250, endingStaker 1 20 200]

theorem SeqExpr.build_yields_tied :
    let e := SeqExpr.mask (.merge (.tree firstEnding) (.merge .empty (.tree secondEnding)))
      (.ofStakers [endingStaker 3 10 250])
    e.Keyed ∧
      Yields StakerSeq.next e.build
        [endingStaker 1 10 200, endingStaker 1 20 200, endingStaker 2 10 300] ∧
      e.denotes.Pairwise fun a b => compare a.key b.key ≠ .gt := by
  intro e
  have hkeyed : e.Keyed :=
    ⟨(by decide +kernel : ∀ x ∈ firstEnding.entries, x.2.key = x.1), trivial,
      (by decide +kernel : ∀ x ∈ secondEnding.entries, x.2.key = x.1)⟩
  have hdenotes :
      e.denotes = [endingStaker 1 10 200, endingStaker 1 20 200, endingStaker 2 10 300] := by
    rw [← e.toList_build, ← StakerSeq.walkAll_eq_toList]
    decide +kernel
  obtain ⟨hyields, _, hsorted⟩ := build_yields e
  exact ⟨hkeyed, hdenotes ▸ hyields, hsorted hkeyed⟩

end StakingLedger
