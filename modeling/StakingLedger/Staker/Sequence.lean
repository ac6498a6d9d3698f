import StakingLedger.Staker.Basic

/-! # Staker sequences

A layer never copies the sets below it: it merges its own additions into its
parent's sequence and masks what it deleted. A sequence is walked one staker at
a time; `toList` says which stakers a walk meets, in which order. Building a
sequence collapses the parts that are known to be empty.
-/

namespace StakingLedger

/-- A walk over stakers in key order, possibly under way. -/
inductive StakerSeq where
  /-- Meets nobody. -/
  | empty
  /-- Walks the rest of an ordered set. -/
  | tree (rest : List Staker)
  /-- The union of two walks. A staker already taken from one side, but not yet met, is kept as
  that side's head. -/
  | merged (first second : StakerSeq) (firstHead secondHead : Option Staker)
  /-- A walk that skips the stakers of some transactions. -/
  | masked (source : StakerSeq) (deleted : DeletedStakers)

namespace StakerSeq

/-- Walks a set in key order. -/
def ofTree (tree : StakerTree) : StakerSeq :=
  if tree.isEmpty then .empty else .tree tree.values

/-- The ordered union of two walks; of two equal keys the first walk's staker comes first. -/
def merge (first second : StakerSeq) : StakerSeq :=
  match first, second with
  | .empty, other => other
  | other, .empty => other
  | first, second => .merged first second none none

/-- The walk without the stakers of the deleted transactions. -/
def mask (source : StakerSeq) (deleted : DeletedStakers) : StakerSeq :=
  match source with
  | .empty => .empty
  | source => if deleted.isEmpty then source else .masked source deleted

/-- The ordered union of two ordered lists; of two equal keys the first list's staker comes
first. -/
def mergeLists : List Staker → List Staker → List Staker
  | [], second => second
  | first, [] => first
  | a :: first, b :: second =>
    if a.notAfter b then a :: mergeLists first (b :: second)
    else b :: mergeLists (a :: first) second
termination_by first second => first.length + second.length

theorem mergeLists_eq_merge (first second : List Staker) :
    mergeLists first second = List.merge first second Staker.notAfter := by
  fun_induction mergeLists first second with
  | case1 => simp
  | case2 => simp
  | case3 a first b second h ih => simp [h, ih]
  | case4 a first b second h ih => simp [h, ih]

/-- The stakers that the rest of the walk meets. -/
def toList : StakerSeq → List Staker
  | empty => []
  | tree rest => rest
  | merged first second firstHead secondHead =>
    mergeLists (firstHead.toList ++ first.toList) (secondHead.toList ++ second.toList)
  | masked source deleted => source.toList.filter fun s => !deleted.contains s.txId

/-- An upper bound on the steps left in a walk. -/
def weight : StakerSeq → Nat
  | empty => 0
  | tree rest => rest.length
  | merged first second firstHead secondHead =>
    first.weight + second.weight + firstHead.toList.length + secondHead.toList.length + 1
  | masked source _ => source.weight + 1

/-- What one step of a walk comes to: the staker it meets, if any, and the walk that is left.
Meeting a staker uses up a step. -/
structure Step (total : Nat) where
  met : Option Staker
  rest : StakerSeq
  weight_le : rest.weight + met.toList.length ≤ total

/-- The head of a side of a merge: the one that it has, or else what its walk meets next. -/
def fill (walk : StakerSeq) (head : Option Staker) (step : Step walk.weight) :
    Step (walk.weight + head.toList.length) :=
  match head with
  | some s => ⟨some s, walk, Nat.le_refl _⟩
  | none => step

/-- One step of a walk. -/
def step (walk : StakerSeq) : Step walk.weight :=
  match walk with
  | empty => ⟨none, empty, Nat.le_refl _⟩
  | tree [] => ⟨none, tree [], Nat.le_refl _⟩
  | tree (s :: rest) => ⟨some s, tree rest, Nat.le_refl _⟩
  | merged first second firstHead secondHead =>
    let a := fill first firstHead first.step
    let b := fill second secondHead second.step
    match ha : a.met, hb : b.met with
    | some s, some t =>
      if s.notAfter t then
        ⟨some s, merged a.rest b.rest none (some t), by
          have h₁ := a.weight_le; have h₂ := b.weight_le
          simp [ha, hb, weight] at *; omega⟩
      else
        ⟨some t, merged a.rest b.rest (some s) none, by
          have h₁ := a.weight_le; have h₂ := b.weight_le
          simp [ha, hb, weight] at *; omega⟩
    | some s, none =>
      ⟨some s, merged a.rest b.rest none none, by
        have h₁ := a.weight_le; have h₂ := b.weight_le
        simp [ha, hb, weight] at *; omega⟩
    | none, met =>
      ⟨met, merged a.rest b.rest none none, by
        have h₁ := a.weight_le; have h₂ := b.weight_le
        simp [ha, hb, weight] at *; omega⟩
  | masked source deleted =>
    match source.step with
    | ⟨none, rest, hrest⟩ =>
      ⟨none, masked rest deleted, by simp only [weight] at *; omega⟩
    | ⟨some s, rest, hrest⟩ =>
      have hshorter : rest.weight + 1 ≤ source.weight := hrest
      if deleted.contains s.txId then
        let further := (masked rest deleted).step
        ⟨further.met, further.rest, by
          have h := further.weight_le
          simp only [weight] at *; omega⟩
      else
        ⟨some s, masked rest deleted, Nat.succ_le_succ hshorter⟩
termination_by walk.weight
decreasing_by
  all_goals simp only [weight] at *; omega

/-- The next staker of a walk, or `none` at its end, and the walk that is left. -/
def next (walk : StakerSeq) : Option Staker × StakerSeq := (walk.step.met, walk.step.rest)

/-- Meets at most `count` stakers. -/
def walk (sequence : StakerSeq) : Nat → List Staker
  | 0 => []
  | count + 1 =>
    match sequence.next with
    | (none, _) => []
    | (some s, rest) => s :: rest.walk count

/-- Meets every staker of a walk. -/
def walkAll (sequence : StakerSeq) : List Staker := sequence.walk sequence.weight

/-- How a walk was built. -/
def shape : StakerSeq → String
  | empty => "Empty"
  | tree _ => "Tree"
  | merged .. => "Merged"
  | masked .. => "Masked"

end StakerSeq

end StakingLedger
