import StakingLedger.Operator
import StakingLedger.Proofs.Operation.Run

/-! # One step of the operator

A step runs on a fresh layer over the root: it claims the due staker or else it
moves time, no further than to the target. Then the layer is folded and the root
commits. If the commit fails, the root stays folded.
-/

namespace StakingLedger

/-! ## Computations on the root -/

theorem StateOp.run_bind {α β : Type} (action : StateOp α) (next : α → StateOp β) (s : State) :
    (action >>= next).run s =
      match action.run s with
      | (.ok a, between) => (next a).run between
      | (.error e, between) => (.error e, between) := by
  change StateT.bind action (ExceptT.bindCont next) s = _
  unfold StateT.bind run
  rcases action s with ⟨answer, between⟩
  cases answer <;> rfl

theorem StateOp.run_change_bind {β : Type} (f : State → Answer State) (next : Unit → StateOp β)
    (s : State) :
    (StateOp.change f >>= next).run s =
      match f s with
      | .ok s' => (next ()).run s'
      | .error e => (.error e, s) := by
  rw [run_bind]
  have hrun : (StateOp.change f).run s = match f s with
    | .ok s' => (.ok (), s')
    | .error e => (.error e, s) := rfl
  rw [hrun]
  cases f s <;> rfl

/-! ## Computations on a layer -/

theorem LedgerM.run_forM_write (writes : List Write) (l : Ledger) :
    (writes.forM LedgerM.write).run l = (.ok (), l.writeAll writes) := by
  induction writes generalizing l with
  | nil => rfl
  | cons w rest ih =>
      change (LedgerM.write w >>= fun _ => rest.forM LedgerM.write).run l = _
      rw [LedgerM.run_write_bind]
      exact ih (l.write w)

theorem Ledger.writeAll_layer (parent : Ledger) (id : EntityId) (reachable : Bool)
    (changes : Changes) (writes : List Write) :
    (layer parent id reachable changes).writeAll writes =
      layer parent id reachable (writes.foldl Changes.write changes) := by
  induction writes generalizing changes with
  | nil => rfl
  | cons w rest ih => exact ih (changes.write w)

/-- The height of the commit that a step made. -/
def Step.height : Step → UInt64
  | .rewarded _ _ height => height
  | .advanced _ _ _ height => height

namespace State

variable {rewards : RewardPolicy} {target : UInt64} {paid : Bool} {s s' : State}
  {l l' : Ledger} {height : UInt64} {step : Step} {changes : Changes} {writes : List Write}
  {configs : Set StakingConfig}

/-- The fresh layer on which the next step runs. -/
def opened (s : State) : Ledger :=
  .layer (.root s) (.ofWord s.height) true (.untouched s.timestamp s.feePool)

/-- What a step does on a layer over the root. -/
inductive StepsOn (s : State) (rewards : RewardPolicy) (target : UInt64) (paid : Bool)
    (l l' : Ledger) : Prop
  | rewarded {stakerTx : EntityId} (h : (rewardStaker stakerTx paid).run l = (.ok (), l'))
  | advanced {time : UInt64} {plan : TimeAdvance} (hbound : time ≤ target)
    (hverify : l.verifyAdvance time = .ok ()) (hplan : l.planAdvance rewards time = .ok plan)
    (hprogress : s.timestamp < time ∨ plan.promotions ≠ [] ∨ plan.retirements ≠ [])
    (h : l' = l.applyAdvance plan)

theorem StepsOn.operates (h : s.StepsOn rewards target paid l l') : l.Operates configs l' := by
  cases h with
  | rewarded h => exact .claimed h
  | advanced _ hverify hplan _ h => exact .advanced hverify hplan h

/-- The step that is next on a root, and its writes: the due staker is claimed, or else time moves to
the next change of a staker, or to the target if that comes first. -/
inductive Takes (s : State) (rewards : RewardPolicy) (target : UInt64) (paid : Bool)
    (height : UInt64) : Step → List Write → Prop
  | claims {x : Staker} {writes : List Write} (hdue : s.dueStaker? = some x)
    (hwrites : s.opened.claimWrites x.txId paid = .ok writes)
    (hrun : (rewardStaker x.txId paid).run s.opened = (.ok (), s.opened.writeAll writes)) :
    Takes s rewards target paid height (.rewarded x.txId paid height) writes
  | moves {change : Option UInt64} {time : UInt64} {plan : TimeAdvance}
    (hnobody : s.dueStaker? = none) (hahead : s.timestamp < target)
    (hchange : s.opened.nextChangeTime = .ok change)
    (htime : time = change.elim target (min · target))
    (hverify : s.opened.verifyAdvance time = .ok ())
    (hplan : s.opened.planAdvance rewards time = .ok plan)
    (hprogress : s.timestamp < time ∨ plan.promotions ≠ [] ∨ plan.retirements ≠ []) :
    Takes s rewards target paid height
      (.advanced time plan.promotions.length plan.retirements.length height) plan.writes

/-- Moves time on a layer to a given time. -/
def moveTo (rewards : RewardPolicy) (now time height : UInt64) : LedgerM Step := do
  LedgerM.ask (·.verifyAdvance time)
  let plan ← LedgerM.ask (·.planAdvance rewards time)
  if time ≤ now ∧ plan.promotions.isEmpty ∧ plan.retirements.isEmpty then
    throw (.invariantViolation (.stuck now))
  plan.writes.forM LedgerM.write
  return .advanced time plan.promotions.length plan.retirements.length height

/-- Time moves to the next change, or to the target if that comes first. -/
theorem advanceOn_eq (rewards : RewardPolicy) (now target height : UInt64) :
    advanceOn rewards now target height =
      LedgerM.ask (·.nextChangeTime) >>= fun change =>
        moveTo rewards now (change.elim target (min · target)) height := by
  unfold advanceOn moveTo
  congr
  funext change
  cases change <;> rfl

theorem elim_min_le (change : Option UInt64) (target : UInt64) :
    change.elim target (min · target) ≤ target := by
  cases change with
  | none => exact UInt64.le_refl _
  | some time => exact Std.min_le_right

theorem Takes.height_eq (h : s.Takes rewards target paid height step writes) :
    step.height = height := by
  cases h <;> rfl

theorem Takes.stepsOn (h : s.Takes rewards target paid height step writes) :
    s.StepsOn rewards target paid s.opened (s.opened.writeAll writes) := by
  cases h with
  | claims _ _ hrun => exact .rewarded hrun
  | @moves change _ _ _ _ _ htime hverify hplan hprogress =>
      subst htime
      exact .advanced (elim_min_le change target) hverify hplan hprogress rfl

theorem Takes.performs (h : s.Takes rewards target paid height step writes) :
    s.opened.Performs configs writes := by
  cases h with
  | claims _ hwrites _ =>
      obtain ⟨x, rest, hclaimed, hrewards, rfl⟩ := Ledger.rewards_of_claimWrites hwrites
      exact .claim hclaimed hrewards
  | moves _ _ _ _ hverify hplan _ => exact .advance hverify hplan

theorem takes_of_advanceOn (hnobody : s.dueStaker? = none) (hahead : s.timestamp < target)
    (h : (advanceOn rewards s.timestamp target height).run s.opened = (.ok step, l')) :
    ∃ writes, l' = s.opened.writeAll writes ∧ s.Takes rewards target paid height step writes := by
  rw [advanceOn_eq] at h
  obtain ⟨change, hchange, h⟩ := LedgerM.run_ask_bind_eq_ok_iff.mp h
  obtain ⟨⟨⟩, hverify, h⟩ := LedgerM.run_ask_bind_eq_ok_iff.mp h
  obtain ⟨plan, hplan, h⟩ := LedgerM.run_ask_bind_eq_ok_iff.mp h
  split at h
  · obtain ⟨_, _, hthrow, _⟩ := LedgerM.run_bind_eq_ok_iff.mp h
    cases hthrow
  next hmoves =>
    obtain ⟨_, between, hwritten, h⟩ := LedgerM.run_bind_eq_ok_iff.mp h
    rw [LedgerM.run_forM_write] at hwritten
    cases hwritten
    cases h
    refine ⟨plan.writes, rfl, .moves hnobody hahead hchange rfl hverify hplan ?_⟩
    by_contra hstuck
    simp only [not_or, not_not, UInt64.not_lt] at hstuck
    exact hmoves ⟨hstuck.1, by rw [hstuck.2.1]; rfl, by rw [hstuck.2.2]; rfl⟩

theorem takes_of_rewardOn {x : Staker} (hdue : s.dueStaker? = some x)
    (h : (rewardOn x.txId paid height).run s.opened = (.ok step, l')) :
    ∃ writes, l' = s.opened.writeAll writes ∧ s.Takes rewards target paid height step writes := by
  obtain ⟨⟨⟩, between, hrewarded, h⟩ := LedgerM.run_bind_eq_ok_iff.mp h
  cases h
  obtain ⟨writes, hwrites, rfl⟩ := claimWrites_of_rewardStaker hrewarded
  exact ⟨writes, rfl, .claims hdue hwrites hrewarded⟩

/-- A step is left as long as somebody is due or the target lies ahead. -/
theorem of_stepOn {answer : Option Step}
    (h : (s.stepOn rewards target paid height).run s.opened = (.ok answer, l')) :
    (answer = none ∧ s.dueStaker? = none ∧ target ≤ s.timestamp) ∨
      ∃ step writes, answer = some step ∧ l' = s.opened.writeAll writes ∧
        s.Takes rewards target paid height step writes := by
  unfold stepOn at h
  split at h
  next x hdue =>
    obtain ⟨step, between, hrun, h⟩ := LedgerM.run_bind_eq_ok_iff.mp h
    cases h
    obtain ⟨writes, hafter, htakes⟩ := takes_of_rewardOn hdue hrun
    exact Or.inr ⟨step, writes, rfl, hafter, htakes⟩
  next hnobody =>
    split at h
    next hreached =>
      cases h
      exact Or.inl ⟨rfl, hnobody, hreached⟩
    next hahead =>
      obtain ⟨step, between, hrun, h⟩ := LedgerM.run_bind_eq_ok_iff.mp h
      cases h
      obtain ⟨writes, hafter, htakes⟩ := takes_of_advanceOn hnobody (UInt64.not_le.mp hahead) hrun
      exact Or.inr ⟨step, writes, rfl, hafter, htakes⟩

theorem openLayer_root (s : State) :
    (Versions.insert {} (.ofWord s.height) (.root s)).openLayer (.ofWord s.height) =
      .ok s.opened := by
  unfold Versions.openLayer Versions.resolve? Versions.insert
  rw [OrderedMap.get?_insert_self]
  rfl

theorem planStep_eq (s : State) (rewards : RewardPolicy) (target : UInt64) (paid : Bool) :
    s.planStep rewards target paid = (s.nextHeight >>= fun height =>
      match (s.stepOn rewards target paid height).run s.opened with
      | (.error e, _) => .error e
      | (.ok (some step), .layer _ _ _ changes) => .ok (some (step, changes, height))
      | (.ok _, _) => .ok none) := by
  unfold planStep
  dsimp only
  rw [openLayer_root]
  rfl

/-- A step that is planned is the next one, for the next height. -/
theorem takes_of_planStep
    (h : s.planStep rewards target paid = .ok (some (step, changes, height))) :
    s.nextHeight = .ok height ∧
      ∃ writes, changes = writes.foldl Changes.write (.untouched s.timestamp s.feePool) ∧
        s.Takes rewards target paid height step writes := by
  rw [planStep_eq] at h
  obtain ⟨height', hheight, h⟩ := bind_eq_ok_iff.mp h
  split at h
  · cases h
  next step' parent id reachable changes' hrun =>
    cases h
    rcases of_stepOn hrun with ⟨hnone, _⟩ | ⟨_, writes, hsome, hafter, htakes⟩
    · cases hnone
    · cases hsome
      rw [opened, Ledger.writeAll_layer] at hafter
      cases hafter
      exact ⟨hheight, writes, rfl, htakes⟩
  · cases h

theorem of_planStep (h : s.planStep rewards target paid = .ok (some (step, changes, height))) :
    s.nextHeight = .ok height ∧ step.height = height ∧
      s.StepsOn rewards target paid s.opened
        (.layer (.root s) (.ofWord s.height) true changes) := by
  obtain ⟨hheight, writes, rfl, htakes⟩ := takes_of_planStep h
  refine ⟨hheight, htakes.height_eq, ?_⟩
  -- The step writes to the layer, so what is below it stays.
  have hsteps := htakes.stepsOn
  rw [opened, Ledger.writeAll_layer] at hsteps
  exact hsteps

/-- No step is left only when nobody is due and the target is reached. -/
theorem of_planStep_none (h : s.planStep rewards target paid = .ok none) :
    s.dueStaker? = none ∧ target ≤ s.timestamp := by
  rw [planStep_eq] at h
  obtain ⟨height, _, h⟩ := bind_eq_ok_iff.mp h
  split at h
  · cases h
  · cases h
  next answer after hnot hrun =>
    rcases of_stepOn hrun with ⟨_, hdone⟩ | ⟨step, writes, rfl, hafter, _⟩
    · exact hdone
    · rw [opened, Ledger.writeAll_layer] at hafter
      exact (hnot _ _ _ _ _ hafter rfl).elim

theorem run_stepTowards (rewards : RewardPolicy) (target : UInt64) (paid : Bool) (s : State) :
    (stepTowards rewards target paid).run s =
      match s.planStep rewards target paid with
      | .error e => (.error e, s)
      | .ok none => (.ok none, s)
      | .ok (some (step, changes, height)) =>
        match (s.fold changes).commit height with
        | .error e => (.error e, s.fold changes)
        | .ok s' => (.ok (some step), s') := by
  unfold stepTowards
  rw [StateOp.run_bind]
  have hask : (StateOp.ask (·.planStep rewards target paid)).run s =
    (s.planStep rewards target paid, s) := rfl
  rw [hask]
  rcases s.planStep rewards target paid with e | _ | ⟨step, changes, height⟩
  · rfl
  · rfl
  · dsimp only
    rw [StateOp.run_change_bind]
    dsimp only
    rw [StateOp.run_change_bind]
    cases (s.fold changes).commit height <;> rfl

/-- What one turn of the loop comes to. -/
inductive Turns (s : State) (rewards : RewardPolicy) (target : UInt64) (paid : Bool) :
    Answer (Option Step) → State → Prop
  | refused {e : LedgerError} (h : s.planStep rewards target paid = .error e) :
    Turns s rewards target paid (.error e) s
  | finished (hnobody : s.dueStaker? = none) (hreached : target ≤ s.timestamp) :
    Turns s rewards target paid (.ok none) s
  | folded {step : Step} {changes : Changes} {height : UInt64} {e : LedgerError}
    (h : s.planStep rewards target paid = .ok (some (step, changes, height)))
    (hcommit : (s.fold changes).commit height = .error e) :
    Turns s rewards target paid (.error e) (s.fold changes)
  | committed {step : Step} {changes : Changes} {height : UInt64} {s' : State}
    (h : s.planStep rewards target paid = .ok (some (step, changes, height)))
    (hcommit : (s.fold changes).commit height = .ok s') :
    Turns s rewards target paid (.ok (some step)) s'

theorem turns_stepTowards (rewards : RewardPolicy) (target : UInt64) (paid : Bool) (s : State) :
    s.Turns rewards target paid ((stepTowards rewards target paid).run s).1
      ((stepTowards rewards target paid).run s).2 := by
  rw [run_stepTowards]
  cases hplan : s.planStep rewards target paid with
  | error e => exact .refused hplan
  | ok planned =>
      cases planned with
      | none =>
          obtain ⟨hnobody, hreached⟩ := of_planStep_none hplan
          exact .finished hnobody hreached
      | some planned =>
          obtain ⟨step, changes, height⟩ := planned
          dsimp only
          cases hcommit : (s.fold changes).commit height with
          | error e => exact .folded hplan hcommit
          | ok s' => exact .committed hplan hcommit

end State

end StakingLedger
