import StakingLedger.Proofs.Operator.Lockstep

/-! # Two hops are one

The operator may stop on the way to its target. If a change of phase takes place
just where it stops, it does there what it would have done anyway. If not, it takes
one step more, which only moves time, and what it does next does not depend on
that time.
-/

namespace StakingLedger

/-- Heights aside, the first list of steps is the second one, or the second one with one more move of
time to `time` in it, at which nobody changed phase. -/
def Step.SameButPause (time : UInt64) (steps steps' : List Step) : Prop :=
  ∃ before after, steps'.map (·.atHeight 0) = before ++ after ∧
    (steps.map (·.atHeight 0) = before ++ after ∨
      steps.map (·.atHeight 0) = before ++ .advanced time 0 0 0 :: after)

theorem Step.SameButPause.cons {time : UInt64} {step step' : Step} {steps steps' : List Step}
    (hstep : step.atHeight 0 = step'.atHeight 0) (h : SameButPause time steps steps') :
    SameButPause time (step :: steps) (step' :: steps') := by
  obtain ⟨before, after, hdirect, hhops⟩ := h
  refine ⟨step'.atHeight 0 :: before, after, ?_, ?_⟩
  · rw [List.map_cons, hdirect, List.cons_append]
  · rw [List.map_cons, hstep]
    exact hhops.imp (congrArg (_ :: ·)) (congrArg (_ :: ·))

/-! ## The clock -/

namespace Contents

theorem write_retimed (c : Contents) (time : UInt64) (w : Write) :
    ∃ now, ({ c with timestamp := time } : Contents).write w =
      { c.write w with timestamp := now } := by
  cases w <;> exact ⟨_, rfl⟩

theorem writeAll_retimed (c : Contents) (time : UInt64) (writes : List Write) :
    ∃ now, ({ c with timestamp := time } : Contents).writeAll writes =
      { c.writeAll writes with timestamp := now } := by
  induction writes generalizing c time with
  | nil => exact ⟨time, rfl⟩
  | cons w rest ih =>
      obtain ⟨now, hnow⟩ := c.write_retimed time w
      change ∃ now, (Contents.write _ w).writeAll rest = _
      rw [hnow]
      exact ih (c.write w) now

/-- A plan sets the time, so the time before does not matter. -/
theorem writeAll_plan_retimed (c : Contents) (time : UInt64) (plan : TimeAdvance) :
    ({ c with timestamp := time } : Contents).writeAll plan.writes = c.writeAll plan.writes := by
  obtain ⟨now, hnow⟩ := c.writeAll_retimed time plan.writes
  have hset : ∀ c : Contents, (c.writeAll plan.writes).timestamp = plan.timestamp := fun c => by
    rw [c.writeAll_plan]
  have hsame : now = (c.writeAll plan.writes).timestamp := by
    rw [hset, ← hset { c with timestamp := time }, hnow]
  rw [hnow, hsame]

end Contents

theorem Ledger.Upholds.agreesOffTime {l l' : Ledger} {c : Contents} {time : UInt64}
    (h : l.Upholds { c with timestamp := time }) (h' : l'.Upholds c) : l.AgreesOffTime l' := by
  have hshows : View.Shows { l.view with timestamp := l'.timestamp } c :=
    { h.shows with timestamp := h'.timestamp_eq }
  exact hshows.unique h'.shows

namespace State

variable {rewards : RewardPolicy} {paid : Bool} {s s' t t' mid : State} {c : Contents}
  {near far height height' time : UInt64} {step step' : Step} {writes writes' : List Write}
  {first second direct steps : List Step}

/-! ## The pause -/

/-- After a pause nobody is due. -/
theorem Stands.nobody_after_pause (h : s.Stands c) (hquiet : s.Quiet c time)
    (hmid : mid.Stands { c with timestamp := time }) : mid.dueStaker? = none := by
  cases hdue : mid.dueStaker? with
  | none => rfl
  | some x =>
      have hclaimed := claimedStaker_of_dueStaker? hdue
      obtain ⟨_, hend, _⟩ := Ledger.of_claimedStaker hclaimed
      have hcurrent : x ∈ c.stakers .current := hmid.opened.mem_of_claimedStaker hclaimed
      rw [hmid.opened.timestamp_eq] at hend
      -- A current staker changes phase at its end, which is later than this.
      have hlater := hquiet.later _ x hcurrent
      rw [(h.timely.serves x hcurrent).nextTime, hend] at hlater
      exact absurd hlater (UInt64.lt_irrefl _)

/-- A pause is the last step to its time. -/
theorem Stands.ends_after_pause (h : s.Stands c) (hquiet : s.Quiet c time)
    (hmid : mid.Stands { c with timestamp := time })
    (hloops : Loops rewards time paid mid (.ok steps) s') : steps = [] ∧ s' = mid := by
  have hnobody := h.nobody_after_pause hquiet hmid
  have hnow : mid.timestamp = time := hmid.upholds.timestamp_eq
  rcases hloops.of_ok with ⟨hnil, hsame, _⟩ | ⟨_, _, _, _, hturn, _⟩
  · exact ⟨hnil, hsame⟩
  · obtain ⟨_, _, htakes, _⟩ := hmid.turn hturn
    exact absurd (UInt64.le_of_eq hnow.symm) (htakes.not_finished hnobody)

/-- A pause of a clean root leaves its memory, and the records that stand one by one. -/
theorem Seals.keeps_after_pause (h : s.Seals [.setTimestamp time] c mid)
    (hclean : s.hasUncommittedChanges = false) :
    mid.SameMemory s ∧ mid.store.AgreesOnRecords s.store := by
  obtain ⟨_, _, hflushed⟩ := h.flushed
  obtain ⟨hunflushed, hunchanged⟩ := of_clean hclean
  constructor
  · have hcurrent := Registry.clearDiffs_of_unchanged (hunchanged .current)
    have hpending := Registry.clearDiffs_of_unchanged (hunchanged .pending)
    rw [hflushed.result]
    exact ⟨rfl, rfl, congrArg₂ ByPhase.mk hcurrent hpending⟩
  · have hedits : (s.folded [.setTimestamp time]).unflushed.edits = {} :=
      congrArg Unflushed.edits hunflushed
    rw [← store_folded s [.setTimestamp time]]
    exact hflushed.agreesOnRecords hedits

/-- After a pause the operator takes the step that it would have taken without it. -/
theorem Takes.resume (hmid : mid.Stands { c with timestamp := time }) (ht : t.Stands c)
    (hrewards : rewards.Timeless) (hnobody : mid.dueStaker? = none) (hnobody' : t.dueStaker? = none)
    (h : mid.Takes rewards far paid height step writes)
    (h' : t.Takes rewards far paid height' step' writes') :
    step.atHeight 0 = step'.atHeight 0 ∧ writes = writes' ∧
      ({ c with timestamp := time } : Contents).writeAll writes = c.writeAll writes' := by
  have hagrees : mid.opened.AgreesOffTime t.opened := hmid.opened.agreesOffTime ht.opened
  cases h with
  | claims hdue =>
      rw [hnobody] at hdue
      cases hdue
  | moves _ _ hchange htime _ hplan =>
      cases h' with
      | claims hdue =>
          rw [hnobody'] at hdue
          cases hdue
      | moves _ _ hchange' htime' _ hplan' =>
          cases hagrees.nextChangeTime_eq hchange hchange'
          rw [← htime] at htime'
          subst htime'
          cases hagrees.planAdvance_eq hrewards hplan hplan'
          exact ⟨rfl, rfl, c.writeAll_plan_retimed time _⟩

/-- From where the operator paused it goes on as from where it did not. -/
theorem Twins.resume (h : Twins s t c) (hrewards : rewards.Timeless) (hlt : near < far)
    (hquiet : s.Quiet c near) (hpause : s.Seals [.setTimestamp near] { c with timestamp := near } mid)
    (hsecond : Loops rewards far paid mid (.ok second) s')
    (hdirect : Loops rewards far paid t (.ok direct) t') (hahead : ¬ far ≤ t.timestamp) :
    (∃ c', Twins s' t' c') ∧ second.map (·.atHeight 0) = direct.map (·.atHeight 0) := by
  have hnobody := h.left.nobody_after_pause hquiet hpause.stands
  have hnobody' : t.dueStaker? = none := h.dueStaker?_eq ▸ hquiet.nobody
  have htime : mid.timestamp = near := hpause.stands.upholds.timestamp_eq
  rcases hsecond.of_ok with ⟨_, _, _, hreached⟩ | ⟨step, rest, after, rfl, hturn, hrest⟩
  · rw [htime] at hreached
    exact absurd hlt (UInt64.not_lt.mpr hreached)
  · rcases hdirect.of_ok with ⟨_, _, _, hreached⟩ | ⟨step', rest', after', rfl, hturn', hrest'⟩
    · exact absurd hreached hahead
    · obtain ⟨_, writes, htakes, hseals⟩ := hpause.stands.turn hturn
      obtain ⟨_, writes', htakes', hseals'⟩ := h.right.turn hturn'
      obtain ⟨hstep, rfl, hcontents⟩ :=
        Takes.resume hpause.stands h.right hrewards hnobody hnobody' htakes htakes'
      rw [hcontents] at hseals
      obtain ⟨hmemory, hrecords⟩ := hpause.keeps_after_pause h.left.clean
      have htwins : Twins after after' (c.writeAll writes) :=
        ⟨hseals.stands, hseals'.stands, hseals.sameMemory hseals' (hmemory.trans h.memory),
          hseals.agreesOffHeights hseals' (hrecords.trans h.stores.onRecords)⟩
      obtain ⟨hends, hsteps⟩ := htwins.loops hrewards hrest hrest'
      refine ⟨hends, ?_⟩
      rw [List.map_cons, List.map_cons, hstep, hsteps]

/-! ## Both hops -/

/-- From two roots with the same contents, two hops from the one do what one hop from the other
does. -/
theorem Twins.hops (h : Twins s t c) (hrewards : rewards.Timeless) (hle : near ≤ far)
    (hfirst : Loops rewards near paid s (.ok first) mid)
    (hsecond : Loops rewards far paid mid (.ok second) s')
    (hdirect : Loops rewards far paid t (.ok direct) t') :
    (∃ c', Twins s' t' c') ∧ Step.SameButPause near (first ++ second) direct := by
  -- By induction on the first hop, whose steps are those of the one hop until it pauses.
  induction first generalizing s t c direct with
  | nil =>
      obtain ⟨rfl, _⟩ := hfirst.of_nil
      obtain ⟨hends, hsteps⟩ := h.loops hrewards hsecond hdirect
      exact ⟨hends, [], _, rfl, Or.inl hsteps⟩
  | cons step rest ih =>
      obtain ⟨after, hturn, hrest⟩ := hfirst.of_cons
      rcases h.turn hrewards hle hturn hdirect with
        ⟨step', rest', after', rfl, hstep, hrest', _, hafter⟩ |
          ⟨hlt, hquiet, hstep, hpause, hahead⟩
      · obtain ⟨hends, hsteps⟩ := ih hafter hrest hrest'
        exact ⟨hends, hsteps.cons hstep⟩
      · obtain ⟨rfl, rfl⟩ := h.left.ends_after_pause hquiet hpause.stands hrest
        obtain ⟨hends, hsteps⟩ := h.resume hrewards hlt hquiet hpause hsecond hdirect hahead
        exact ⟨hends, [], _, rfl, Or.inr (congrArg₂ List.cons hstep hsteps)⟩

theorem timestamp_le_of_advanceTo {target : UInt64}
    (h : (advanceTo rewards target paid).run s = (.ok steps, s')) : s.timestamp ≤ target := by
  by_contra hbehind
  rw [run_advanceTo_of_behind (UInt64.not_le.mp hbehind)] at h
  cases h

variable {configs : Set StakingConfig} {g : Genesis} {config : StakingConfig}

theorem Loops.runs {target : UInt64} (h : Ledger.Runs configs g config (.root s))
    (hloops : Loops rewards target paid s (.ok steps) s') :
    Ledger.Runs configs g config (.root s') := by
  induction steps generalizing s with
  | nil =>
      obtain ⟨rfl, _⟩ := hloops.of_nil
      exact h
  | cons step rest ih =>
      obtain ⟨mid, hturn, hrest⟩ := hloops.of_cons
      exact ih (hturn.runs h) hrest

theorem loops_of_advanceTo {target : UInt64} (h : Ledger.Runs configs g config (.root s))
    (hrun : (advanceTo rewards target paid).run s = (.ok steps, s')) :
    Loops rewards target paid s (.ok steps) s' := by
  have hloops := loops_advanceTo rewards paid
    ⟨h.coherent.listsOnce, timestamp_le_of_advanceTo hrun⟩
  rw [hrun] at hloops
  exact hloops

/-- The operator may stop on its way. From a committed root of any run, the moves to `near` and then
to `far` end like the one move to `far`, whether rewards are paid or not, for every policy that does
not look at the clock (the configured rewards do not). Everything that can be read is the same; the
roots differ in nothing but the height and the store, and the stores at most in the height and in the
changes recorded for heights. Heights aside, the steps are the same but for at most one more, which
only moves time to `near`. -/
theorem advanceTo_in_two_hops (h : Ledger.Runs configs g config (.root s))
    (hclean : s.hasUncommittedChanges = false) (hrewards : rewards.Timeless) (hle : near ≤ far)
    (hfirst : (advanceTo rewards near paid).run s = (.ok first, mid))
    (hsecond : (advanceTo rewards far paid).run mid = (.ok second, s'))
    (hdirect : (advanceTo rewards far paid).run s = (.ok direct, t')) :
    (Ledger.root s').view = (Ledger.root t').view ∧
      s' = { t' with height := s'.height, store := s'.store } ∧
      s'.store.AgreesOffHeights t'.store ∧ Step.SameButPause near (first ++ second) direct := by
  obtain ⟨c, hupholds, hsound⟩ := h.sound
  have hstands : s.Stands c := ⟨hupholds, hsound.timely, hclean⟩
  have hloops := loops_of_advanceTo h hfirst
  obtain ⟨⟨_, htwins⟩, hsteps⟩ := (Twins.refl hstands).hops hrewards hle hloops
    (loops_of_advanceTo (hloops.runs h) hsecond) (loops_of_advanceTo h hdirect)
  exact ⟨htwins.view_eq, htwins.eq_but_store, htwins.stores, hsteps⟩

/-- After the sample genesis nobody changes phase before the end of the one validator, so a stop on the
way there takes one step more. -/
theorem advanceTo_in_two_hops_sample :
    (configuredRewards StakingConfig.sample.reward).Timeless ∧ (50000 : UInt64) ≤ 100000 ∧
      ∃ s, Ledger.Runs ∅ .sample .sample (.root s) ∧ s.hasUncommittedChanges = false ∧
        ∃ first mid second s' direct t',
          (advanceTo (configuredRewards StakingConfig.sample.reward) 50000 true).run s =
            (.ok first, mid) ∧
          (advanceTo (configuredRewards StakingConfig.sample.reward) 100000 true).run mid =
            (.ok second, s') ∧
          (advanceTo (configuredRewards StakingConfig.sample.reward) 100000 true).run s =
            (.ok direct, t') ∧
          (first ++ second).length = 3 ∧ direct.length = 2 ∧
          (Ledger.root s').view = (Ledger.root t').view ∧
          s' = { t' with height := s'.height, store := s'.store } ∧
          s'.store.AgreesOffHeights t'.store ∧
          Step.SameButPause 50000 (first ++ second) direct := by
  have hopened : ∃ s, fromGenesis {} .sample .sample = .ok s ∧
      (s.hasUncommittedChanges = false ∧
        ∃ first, ((advanceTo (configuredRewards StakingConfig.sample.reward) 50000 true).run s).1 =
          .ok first ∧
        ∃ second, ((advanceTo (configuredRewards StakingConfig.sample.reward) 100000 true).run
          ((advanceTo (configuredRewards StakingConfig.sample.reward) 50000 true).run s).2).1 =
          .ok second ∧
        ∃ direct, ((advanceTo (configuredRewards StakingConfig.sample.reward) 100000 true).run s).1 =
          .ok direct ∧ ((first ++ second).length = 3 ∧ direct.length = 2)) := by
    decide +kernel
  obtain ⟨s, hs, hclean, first, hfirst, second, hsecond, direct, hdirect, hhops, hone⟩ := hopened
  have hruns : Ledger.Runs ∅ .sample .sample (.root s) := .genesis hs
  have htimeless := configuredRewards_timeless StakingConfig.sample.reward
  have hle : (50000 : UInt64) ≤ 100000 := by decide
  exact ⟨htimeless, hle, s, hruns, hclean, first, _, second, _, direct, _, Prod.ext hfirst rfl,
    Prod.ext hsecond rfl, Prod.ext hdirect rfl, hhops, hone,
    advanceTo_in_two_hops hruns hclean htimeless hle (Prod.ext hfirst rfl) (Prod.ext hsecond rfl)
      (Prod.ext hdirect rfl)⟩

end State

end StakingLedger
