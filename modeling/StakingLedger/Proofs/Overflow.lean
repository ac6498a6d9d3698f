import StakingLedger.Proofs.Answer
import StakingLedger.State.Open

/-! # Computations that fail by overflow only

The curve of rewards, the funding of a reward and a commit at the next height have
no other failure than a figure or a length that leaves its range. Such computations
stay so when one follows another.
-/

namespace StakingLedger

/-- The answer is given, unless something leaves its range. -/
def OverflowsAtMost {α : Type} (x : Answer α) : Prop :=
  ∀ e, x = .error e → ∃ what, e = .overflow what

namespace OverflowsAtMost

variable {α β : Type} {x : Answer α}

theorem ok (a : α) : OverflowsAtMost (.ok a : Answer α) := by
  intro e h
  cases h

theorem of_ok {a : α} (h : x = .ok a) : OverflowsAtMost x :=
  h ▸ ok a

theorem overflow (what : Overflow) : OverflowsAtMost (.error (.overflow what) : Answer α) := by
  intro e h
  cases h
  exact ⟨what, rfl⟩

theorem ite {p : Prop} [Decidable p] {y : Answer α} (hx : p → OverflowsAtMost x)
    (hy : ¬ p → OverflowsAtMost y) : OverflowsAtMost (if p then x else y) := by
  split
  next h => exact hx h
  next h => exact hy h

theorem bind {f : α → Answer β} (hx : OverflowsAtMost x)
    (hf : ∀ a, x = .ok a → OverflowsAtMost (f a)) : OverflowsAtMost (x >>= f) := by
  cases x with
  | error e =>
      intro e' h
      cases h
      exact hx e rfl
  | ok a => exact hf a rfl

theorem map (hx : OverflowsAtMost x) (f : α → β) : OverflowsAtMost (x.map f) := by
  cases x with
  | error e =>
      intro e' h
      cases h
      exact hx e rfl
  | ok a => exact ok (f a)

theorem foldlM {f : β → α → Answer β} {l : List α}
    (hf : ∀ b, ∀ a ∈ l, OverflowsAtMost (f b a)) (b : β) : OverflowsAtMost (l.foldlM f b) := by
  induction l generalizing b with
  | nil => exact ok b
  | cons a rest ih =>
      rw [List.foldlM_cons]
      apply bind (hf b a List.mem_cons_self)
      intro b' _
      exact ih (fun b a ha => hf b a (List.mem_cons_of_mem _ ha)) b'

theorem mapM {f : α → Answer β} {l : List α} (hf : ∀ a ∈ l, OverflowsAtMost (f a)) :
    OverflowsAtMost (l.mapM f) := by
  induction l with
  | nil => exact ok []
  | cons a rest ih =>
      rw [List.mapM_cons]
      apply bind (hf a List.mem_cons_self)
      intro b _
      apply bind (ih fun a ha => hf a (List.mem_cons_of_mem _ ha))
      intro bs _
      exact ok (b :: bs)

end OverflowsAtMost

/-! ## Amounts and rewards -/

theorem overflowsAtMost_checkedAdd (a b : UInt64) (what : String) :
    OverflowsAtMost (checkedAdd a b what) :=
  .ite (fun _ => .ok _) fun _ => .overflow _

theorem RewardConfig.overflowsAtMost_reward (c : RewardConfig) (duration start weight : UInt64) :
    OverflowsAtMost (c.reward duration start weight) := by
  unfold reward
  dsimp only
  split
  · exact .overflow _
  · exact .ite (fun _ => .ok _) fun _ => .overflow _

theorem overflowsAtMost_fundReward (supernet : EntityId) (reward pool supply : UInt64) :
    OverflowsAtMost (fundReward supernet reward pool supply) := by
  unfold fundReward
  apply OverflowsAtMost.ite
  · intro _
    exact .ok _
  · intro _
    apply OverflowsAtMost.ite
    · intro _
      apply OverflowsAtMost.bind (overflowsAtMost_checkedAdd _ _ _)
      intro supply' _
      exact .ok _
    · intro _
      exact .ok _

/-! ## Commits -/

theorem overflowsAtMost_requireEncodable (encodable : Bool) :
    OverflowsAtMost (requireEncodable encodable) :=
  .ite (fun _ => .ok _) fun _ => .overflow _

theorem WeightChange.overflowsAtMost_add (c : WeightChange) (decrease : Bool) (amount : UInt64) :
    OverflowsAtMost (c.add decrease amount) := by
  unfold add
  apply OverflowsAtMost.ite
  · intro _
    exact .ite (fun _ => .ok _) fun _ => .overflow _
  · intro _
    exact .ite (fun _ => .ok _) fun _ => .ok _

theorem SlotDiff.overflowsAtMost_historyWrites (height : UInt64) (slot : Slot) (d : SlotDiff) :
    OverflowsAtMost (d.historyWrites height slot) := by
  apply OverflowsAtMost.bind
  · exact .foldlM (fun c step _ => c.overflowsAtMost_add step.decrease step.amount) _
  · intro weight _
    apply OverflowsAtMost.bind (overflowsAtMost_requireEncodable _)
    intro _ _
    exact .ok _

namespace State

theorem overflowsAtMost_nextHeight (s : State) : OverflowsAtMost s.nextHeight :=
  .ite (fun _ => .ok _) fun _ => .overflow _

theorem overflowsAtMost_flush (s : State) (height : UInt64) :
    OverflowsAtMost (s.flush height) := by
  apply OverflowsAtMost.bind
  · apply OverflowsAtMost.bind (overflowsAtMost_requireEncodable _)
    intro _ _
    apply OverflowsAtMost.bind
    · apply OverflowsAtMost.bind (.mapM fun e _ => e.2.overflowsAtMost_historyWrites height e.1)
      intro writes _
      exact .ok _
    · intro history _
      exact .ok _
  · intro batch _
    exact .ok _

/-- A commit at the next height fails only if something leaves its range. -/
theorem overflowsAtMost_commit {s : State} {height : UInt64} (h : s.nextHeight = .ok height) :
    OverflowsAtMost (s.commit height) := by
  unfold commit
  rw [h, bind_ok]
  dsimp only
  rw [if_neg (not_not.mpr rfl)]
  exact s.overflowsAtMost_flush height

end State

end StakingLedger
