import StakingLedger.Proofs.Lifecycle.Timeliness
import StakingLedger.Proofs.Operator.Progress

/-! # The operator lands on its target

The operator takes steps for as long as one is left. Every step brings the end
nearer, so the bound that is put on their number is never reached, and the bounded
run is the run of the loop. When it succeeds, time stands at the target and nobody
is due any more.
-/

namespace StakingLedger

/-! ## Coherent registries -/

/-- The flat index of the registry has just the stakers that stand in slots. -/
structure Registry.Coherent (r : Registry) : Prop where
  filed : ∀ e ∈ r.stakers.entries, e.1 = e.2.key
  slotted : ∀ x, x ∈ r.all.toList ↔
    ∃ slot, r.validator? slot = some x ∨ x ∈ (r.delegators slot).toList

namespace State

/-- Both registries are coherent, and no transaction stakes twice in them. -/
structure Coherent (s : State) : Prop where
  registries : ∀ phase, (s.registries.get phase).Coherent
  once : ((s.registries.current.all.toList ++ s.registries.pending.all.toList).map
    Staker.txId).Nodup

theorem Coherent.listsOnce {s : State} (h : s.Coherent) : ∃ members, s.ListsOnce members := by
  have hall : ∀ phase, (s.registries.get phase).all.toList =
      (s.registries.get phase).stakers.values := fun phase => StakerSeq.toList_ofTree _
  have honce := h.once
  change ((_ ++ (s.registries.get .pending).all.toList).map _).Nodup at honce
  change (((s.registries.get .current).all.toList ++ _).map _).Nodup at honce
  rw [hall, hall, List.map_append, List.nodup_append] at honce
  obtain ⟨hcurrent, hpending, hapart⟩ := honce
  refine ⟨fun phase => {x | x ∈ (s.registries.get phase).stakers.values}, fun phase k x => ?_,
    fun phase => ?_, fun x hx y hy heq => ?_⟩
  · constructor
    · intro hget
      have hentry := OrderedMap.get?_eq_some_iff.mp hget
      exact ⟨OrderedMap.mem_values_iff.mpr ⟨k, hget⟩,
        ((h.registries phase).filed _ hentry).symm⟩
    · rintro ⟨hx, rfl⟩
      obtain ⟨k, hget⟩ := OrderedMap.mem_values_iff.mp hx
      have hentry := OrderedMap.get?_eq_some_iff.mp hget
      rw [← (h.registries phase).filed _ hentry]
      exact hget
  · intro x hx y hy heq
    cases phase with
    | current => exact List.inj_on_of_nodup_map hcurrent hx hy heq
    | pending => exact List.inj_on_of_nodup_map hpending hx hy heq
  · exact hapart _ (List.mem_map_of_mem hx) _ (List.mem_map_of_mem hy) heq.symm

end State

/-- A registry that holds a set of stakers with one validator in a slot is coherent. -/
theorem Registry.Holds.coherent {r : Registry} {members : Set Staker} (h : r.Holds members)
    (hone : OneValidatorPerSlot members) : r.Coherent where
  filed e he := ((h.stakers e.1 e.2).mp (OrderedMap.get?_eq_some_iff.mpr he)).2.symm
  slotted x := by
    rw [h.enumerates_all.mem_iff]
    constructor
    · intro hx
      refine ⟨x.slot, ?_⟩
      rw [h.validator, (h.enumerates_delegators x.slot).mem_iff]
      cases hv : x.isValidator with
      | true => exact Or.inl ((occupant_eq_some_iff hone).mpr ⟨hx, hv, rfl⟩)
      | false => exact Or.inr ⟨hx, hv, rfl⟩
    · rintro ⟨slot, hx | hx⟩
      · rw [h.validator] at hx
        exact mem_of_occupant hx
      · exact (((h.enumerates_delegators slot).mem_iff x).mp hx).1

namespace Ledger

/-- The registries of a root whose staking records are in order are coherent. -/
theorem Upholds.coherent {s : State} {c : Contents} (h : (root s).Upholds c) : s.Coherent := by
  obtain ⟨current, pending, hcurrent, hpending, honce⟩ := h.nodup_txIds
  obtain ⟨book, ⟨hproper, _, hdurable⟩, _⟩ := h
  cases hcurrent
  cases hpending
  exact ⟨fun phase => (hdurable.registries phase).coherent (hproper.slots phase), honce⟩

/-- So is every root that a run reaches. -/
theorem Runs.coherent {configs : Set StakingConfig} {g : Genesis} {config : StakingConfig}
    {s : State} (h : Runs configs g config (root s)) : s.Coherent := by
  obtain ⟨c, hupholds, _⟩ := h.timely
  exact hupholds.coherent

end Ledger

namespace State

variable {rewards : RewardPolicy} {target : UInt64} {paid : Bool} {s s' mid : State}
  {answer : Answer (List Step)} {step : Step} {members : Phase → Set Staker}

/-! ## One turn of the loop -/

/-- No transaction stakes twice, and the target is not behind. -/
structure Ready (target : UInt64) (s : State) : Prop where
  lists : ∃ members, s.ListsOnce members
  reachable : s.timestamp ≤ target

/-- What a turn that commits does to the root. -/
structure Commits (target : UInt64) (step : Step) (s s' : State) : Prop where
  ready : s'.Ready target
  falls : s'.stepsLeft target < s.stepsLeft target
  height : s'.height.toNat = s.height.toNat + 1
  recorded : step.height = s'.height
  clean : s'.hasUncommittedChanges = false

theorem ListsOnce.of_flushed {height : UInt64} {history : List (Bytes × Bytes)}
    (h : s.ListsOnce members) (hflushed : s.Flushed height history s') : s'.ListsOnce members where
  lists phase := by
    rw [hflushed.registries]
    exact h.lists phase
  injOn := h.injOn
  apart := h.apart

theorem clean_of_flushed {height : UInt64} {history : List (Bytes × Bytes)}
    (hflushed : s.Flushed height history s') : s'.hasUncommittedChanges = false := by
  rw [hflushed.result]
  rfl

theorem stepsLeft_of_flushed {height : UInt64} {history : List (Bytes × Bytes)}
    (hflushed : s.Flushed height history s') : s'.stepsLeft target = s.stepsLeft target := by
  rw [hflushed.result]
  rfl

/-- Whatever a turn comes to, time goes forward and stays within the target. -/
theorem Turns.timestamp_le {outcome : Answer (Option Step)} (hready : s.Ready target)
    (h : s.Turns rewards target paid outcome s') :
    s.timestamp ≤ s'.timestamp ∧ s'.timestamp ≤ target := by
  obtain ⟨members, hlists⟩ := hready.lists
  cases h with
  | refused => exact ⟨UInt64.le_refl _, hready.reachable⟩
  | finished => exact ⟨UInt64.le_refl _, hready.reachable⟩
  | folded hplan =>
      obtain ⟨_, _, hsteps⟩ := of_planStep hplan
      obtain ⟨_, hahead, hwithin, _⟩ := hsteps.progress hlists hready.reachable
      exact ⟨hahead, hwithin⟩
  | committed hplan hcommit =>
      obtain ⟨_, _, hsteps⟩ := of_planStep hplan
      obtain ⟨_, hahead, hwithin, _⟩ := hsteps.progress hlists hready.reachable
      obtain ⟨history, hflushed⟩ := flushed_of_flush (flush_of_commit hcommit).1
      rw [hflushed.result]
      exact ⟨hahead, hwithin⟩

theorem Turns.commits (hready : s.Ready target)
    (h : s.Turns rewards target paid (.ok (some step)) s') : Commits target step s s' := by
  obtain ⟨members, hlists⟩ := hready.lists
  obtain ⟨_, hwithin⟩ := h.timestamp_le hready
  cases h with
  | @committed _ changes height _ hplan hcommit =>
      obtain ⟨_, hstep, hsteps⟩ := of_planStep hplan
      obtain ⟨⟨members', hlists'⟩, _, _, hfalls⟩ := hsteps.progress hlists hready.reachable
      obtain ⟨hflush, hnext⟩ := flush_of_commit hcommit
      obtain ⟨history, hflushed⟩ := flushed_of_flush hflush
      have hheight : s'.height = height := by rw [hflushed.result]
      have hsame : (s.fold changes).height = s.height := height_writeAll s changes.writes
      refine ⟨⟨⟨members', hlists'.of_flushed hflushed⟩, hwithin⟩, ?_, ?_, ?_,
        clean_of_flushed hflushed⟩
      · rw [stepsLeft_of_flushed hflushed]
        exact hfalls
      · rw [hheight, hnext, hsame]
      · rw [hstep, hheight]

/-! ## The loop -/

/-- A run of the loop: steps are taken until none is left or one fails. -/
inductive Loops (rewards : RewardPolicy) (target : UInt64) (paid : Bool) :
    State → Answer (List Step) → State → Prop
  | done {s s' : State} (h : (stepTowards rewards target paid).run s = (.ok none, s')) :
    Loops rewards target paid s (.ok []) s'
  | failed {s s' : State} {e : LedgerError}
    (h : (stepTowards rewards target paid).run s = (.error e, s')) :
    Loops rewards target paid s (.error e) s'
  | next {s mid s' : State} {step : Step} {answer : Answer (List Step)}
    (h : (stepTowards rewards target paid).run s = (.ok (some step), mid))
    (hrest : Loops rewards target paid mid answer s') :
    Loops rewards target paid s (answer.map (step :: ·)) s'

/-- The roots at which the loop takes its turns. -/
inductive Visits (rewards : RewardPolicy) (target : UInt64) (paid : Bool) (s : State) :
    State → Prop
  | start : Visits rewards target paid s s
  | next {mid s' : State} {step : Step} (h : Visits rewards target paid s mid)
    (hstep : (stepTowards rewards target paid).run mid = (.ok (some step), s')) :
    Visits rewards target paid s s'

theorem turns_of_run {outcome : Answer (Option Step)}
    (h : (stepTowards rewards target paid).run s = (outcome, s')) :
    s.Turns rewards target paid outcome s' := by
  have hturns := turns_stepTowards rewards target paid s
  rw [h] at hturns
  exact hturns

theorem Visits.ready (hready : s.Ready target) (h : Visits rewards target paid s mid) :
    mid.Ready target := by
  induction h with
  | start => exact hready
  | next _ hstep ih => exact ((turns_of_run hstep).commits ih).ready

/-- The loop ends in one way only. -/
theorem Loops.unique {answer' : Answer (List Step)} {s'' : State}
    (h : Loops rewards target paid s answer s') (h' : Loops rewards target paid s answer' s'') :
    answer' = answer ∧ s'' = s' := by
  -- A step has one outcome, so the two runs take the same turn each time.
  induction h generalizing answer' s'' with
  | done h =>
      cases h' with
      | done h' => rw [h] at h'; cases h'; exact ⟨rfl, rfl⟩
      | failed h' => rw [h] at h'; cases h'
      | next h' _ => rw [h] at h'; cases h'
  | failed h =>
      cases h' with
      | done h' => rw [h] at h'; cases h'
      | failed h' => rw [h] at h'; cases h'; exact ⟨rfl, rfl⟩
      | next h' _ => rw [h] at h'; cases h'
  | next h _ ih =>
      cases h' with
      | done h' => rw [h] at h'; cases h'
      | failed h' => rw [h] at h'; cases h'
      | next h' hrest =>
          rw [h] at h'
          cases h'
          obtain ⟨rfl, rfl⟩ := ih hrest
          exact ⟨rfl, rfl⟩

theorem run_stepsWithin_succ (bound : Nat) (s : State) :
    (stepsWithin rewards target paid (bound + 1)).run s =
      match (stepTowards rewards target paid).run s with
      | (.error e, mid) => (.error e, mid)
      | (.ok none, mid) => (.ok [], mid)
      | (.ok (some step), mid) =>
        (((stepsWithin rewards target paid bound).run mid).1.map (step :: ·),
          ((stepsWithin rewards target paid bound).run mid).2) := by
  rw [stepsWithin, StateOp.run_bind]
  rcases (stepTowards rewards target paid).run s with ⟨e | _ | step, mid⟩
  · rfl
  · rfl
  · dsimp only
    rw [StateOp.run_bind]
    rcases (stepsWithin rewards target paid bound).run mid with ⟨e | steps, after⟩ <;> rfl

/-- With more steps allowed than are left, the bounded run is that of the loop. -/
theorem loops_stepsWithin {bound : Nat} (hready : s.Ready target)
    (hbound : s.stepsLeft target < bound) :
    Loops rewards target paid s ((stepsWithin rewards target paid bound).run s).1
      ((stepsWithin rewards target paid bound).run s).2 := by
  induction bound generalizing s with
  | zero => omega
  | succ bound ih =>
      rw [run_stepsWithin_succ]
      rcases hrun : (stepTowards rewards target paid).run s with ⟨e | _ | step, mid⟩
      · exact .failed hrun
      · exact .done hrun
      · have hcommits := (turns_of_run hrun).commits hready
        have hfalls := hcommits.falls
        exact .next hrun (ih hcommits.ready (by omega))

theorem run_advanceTo (htarget : s.timestamp ≤ target) :
    (advanceTo rewards target paid).run s =
      (stepsWithin rewards target paid (s.stepsLeft target + 1)).run s := by
  have hahead : ¬ target < s.timestamp := UInt64.not_lt.mpr htarget
  change (StateOp.ask _ >>= fun now => _).run s = _
  rw [StateOp.run_bind]
  change ((if target < s.timestamp then _ else _ : StateOp (List Step))).run s = _
  rw [if_neg hahead]
  rfl

/-- A target behind is refused. -/
theorem run_advanceTo_of_behind (hbehind : target < s.timestamp) :
    (advanceTo rewards target paid).run s =
      (.error (.invalidTransaction (.targetBehind target s.timestamp)), s) := by
  change (StateOp.ask _ >>= fun now => _).run s = _
  rw [StateOp.run_bind]
  change ((if target < s.timestamp then _ else _ : StateOp (List Step))).run s = _
  rw [if_pos hbehind]
  rfl

/-- What the operator does is a run of the loop. -/
theorem loops_advanceTo (rewards : RewardPolicy) (paid : Bool) (hready : s.Ready target) :
    Loops rewards target paid s ((advanceTo rewards target paid).run s).1
      ((advanceTo rewards target paid).run s).2 := by
  rw [run_advanceTo hready.reachable]
  exact loops_stepsWithin hready (Nat.lt_succ_self _)

/-- What a run of the loop that succeeds comes to. -/
structure Lands (target : UInt64) (s : State) (steps : List Step) (s' : State) : Prop where
  timestamp : s'.timestamp = target
  height : s'.height.toNat = s.height.toNat + steps.length
  heights : steps.map (fun step => step.height.toNat) =
    List.range' (s.height.toNat + 1) steps.length
  clean : s'.hasUncommittedChanges = false
  nobodyDue : ∀ x, s'.registries.current.all.toList.head? = some x → x.endTime = target →
    x.priority.isPermissioned = true

theorem Turns.lands (hready : s.Ready target) (hclean : s.hasUncommittedChanges = false)
    (h : s.Turns rewards target paid (.ok none) s') : Lands target s [] s' := by
  cases h with
  | finished hnobody hreached =>
      have htime : s.timestamp = target := UInt64.le_antisymm hready.reachable hreached
      refine ⟨htime, rfl, rfl, hclean, fun x hx hend => ?_⟩
      unfold dueStaker? at hnobody
      rw [hx, htime, ← hend] at hnobody
      simpa using hnobody

theorem Lands.cons {steps : List Step} (hcommits : Commits target step s mid)
    (h : Lands target mid steps s') : Lands target s (step :: steps) s' where
  timestamp := h.timestamp
  height := by
    rw [h.height, hcommits.height, List.length_cons]
    omega
  heights := by
    rw [List.map_cons, h.heights, hcommits.recorded, hcommits.height]
    rfl
  clean := h.clean
  nobodyDue := h.nobodyDue

theorem Loops.lands {steps : List Step} (hready : s.Ready target)
    (hclean : s.hasUncommittedChanges = false) (h : Loops rewards target paid s answer s')
    (hok : answer = .ok steps) : Lands target s steps s' := by
  induction h generalizing steps with
  | done h =>
      cases hok
      exact (turns_of_run h).lands hready hclean
  | failed => cases hok
  | next h _ ih =>
      obtain ⟨rest, hrest, rfl⟩ := map_eq_ok_iff.mp hok
      have hcommits := (turns_of_run h).commits hready
      exact (ih hcommits.ready hcommits.clean hrest).cons hcommits

/-- From a coherent root without uncommitted changes the loop ends, whatever the rewards. Time goes
forward all the while and never beyond the target. If no step fails, the root stands at the target
with one height more for each step, nothing is uncommitted and nobody is due. -/
theorem advanceTo_lands (rewards : RewardPolicy) (paid : Bool) (h : s.Coherent)
    (hclean : s.hasUncommittedChanges = false) (htarget : s.timestamp ≤ target) :
    ∃ answer s', (advanceTo rewards target paid).run s = (answer, s') ∧
      Loops rewards target paid s answer s' ∧
      (∀ mid, Visits rewards target paid s mid →
        mid.timestamp ≤ ((stepTowards rewards target paid).run mid).2.timestamp ∧
          ((stepTowards rewards target paid).run mid).2.timestamp ≤ target) ∧
      ∀ steps, answer = .ok steps → Lands target s steps s' := by
  have hready : s.Ready target := ⟨h.listsOnce, htarget⟩
  have hloops := loops_advanceTo rewards paid hready
  refine ⟨_, _, rfl, hloops, ?_, ?_⟩
  · intro mid hvisits
    exact (turns_stepTowards rewards target paid mid).timestamp_le (hvisits.ready hready)
  · intro steps hok
    exact hloops.lands hready hclean hok

/-- After the sample genesis the operator takes two steps to the end of the one validator: it moves
time there and then pays the reward. -/
theorem advanceTo_lands_sample :
    ∃ s, fromGenesis {} .sample .sample = .ok s ∧ s.Coherent ∧
      s.hasUncommittedChanges = false ∧ s.timestamp ≤ 100000 ∧
      ∃ steps s', (advanceTo (configuredRewards StakingConfig.sample.reward) 100000 true).run s =
        (.ok steps, s') ∧ steps.length = 2 ∧ Lands 100000 s steps s' := by
  have hopened : ∃ s, fromGenesis {} .sample .sample = .ok s ∧
      (s.hasUncommittedChanges = false ∧ s.timestamp ≤ 100000 ∧
        ∃ steps, ((advanceTo (configuredRewards StakingConfig.sample.reward) 100000 true).run s).1 =
          .ok steps ∧ steps.length = 2) := by
    decide +kernel
  obtain ⟨s, hs, hclean, htarget, steps, hsteps, hlength⟩ := hopened
  have hruns : Ledger.Runs ∅ .sample .sample (.root s) := .genesis hs
  have hcoherent := hruns.coherent
  obtain ⟨answer, s', hrun, _, _, hlands⟩ := advanceTo_lands
    (configuredRewards StakingConfig.sample.reward) true hcoherent hclean htarget
  rw [hrun] at hsteps
  obtain rfl : answer = .ok steps := hsteps
  exact ⟨s, hs, hcoherent, hclean, htarget, steps, s', hrun, hlength, hlands steps rfl⟩

end State

end StakingLedger
