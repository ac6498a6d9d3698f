import StakingLedger.Proofs.Conservation.Supply
import StakingLedger.Proofs.Lifecycle.Backing
import StakingLedger.Proofs.Operator.Termination
import StakingLedger.Proofs.Overflow

/-! # The operator is never stuck

Every figure that a step of the operator looks up is there after a run, and time can
always move: to the target, or to the next change of a staker, which lies ahead as
long as nobody is due. So a step fails only if something leaves its range.
-/

namespace StakingLedger

variable {configs : Set StakingConfig} {g : Genesis} {config : StakingConfig} {l : Ledger}
  {c c' : Contents} {s : Staker} {phase : Phase} {supernet stakerTx : EntityId} {paid : Bool}
  {reward : RewardConfig} {time : UInt64}

/-! ## Computations on a ledger -/

namespace OverflowsAtMost

variable {α β : Type}

theorem run_bind {action : LedgerM α} {next : α → LedgerM β}
    (haction : OverflowsAtMost (action.run l).1)
    (hnext : ∀ a l', action.run l = (.ok a, l') → OverflowsAtMost ((next a).run l').1) :
    OverflowsAtMost ((action >>= next).run l).1 := by
  rw [LedgerM.run_bind]
  rcases hrun : action.run l with ⟨e | a, l'⟩
  · rw [hrun] at haction
    intro e' h
    cases h
    exact haction e rfl
  · exact hnext a l' hrun

theorem run_ask_bind {read : Ledger → Answer α} {next : α → LedgerM β}
    (hread : OverflowsAtMost (read l))
    (hnext : ∀ a, read l = .ok a → OverflowsAtMost ((next a).run l).1) :
    OverflowsAtMost ((LedgerM.ask read >>= next).run l).1 := by
  have haction : OverflowsAtMost ((LedgerM.ask read).run l).1 := hread
  apply run_bind haction
  intro a l' hrun
  obtain ⟨ha, rfl⟩ := LedgerM.run_ask_eq_ok_iff.mp hrun
  exact hnext a ha

end OverflowsAtMost

/-! ## What a run keeps -/

namespace Contents

/-- The stakers are on time, those they depend on are there, and the accounts balance. -/
structure Sound (g : Genesis) (c : Contents) : Prop where
  timely : c.Timely
  backed : c.Backed
  accounted : ∀ supernet, c.Accounted g supernet

/-- A staker that earns rewards stakes on the primary network or on a transformed supernet. -/
theorem Backed.primary_or_transformed (h : c.Backed) (hs : s ∈ c.stakers phase)
    (hrewarded : s.priority.isPermissioned = false) :
    s.supernetId = .primaryNetwork ∨ ∃ t, c.transformation s.supernetId = .ok (some t) := by
  have hopened := h.opened phase s hs
  rw [h.home phase s hs]
  unfold Priority.isPermissioned at hrewarded
  cases hkind : s.priority.kind <;> rw [hkind] at hrewarded hopened
  · exact Or.inl rfl
  · exact Or.inl rfl
  all_goals first | exact Or.inr (hopened rfl) | cases hrewarded

/-- Such a network has a supply and a pool. -/
theorem Sound.exists_balances (h : c.Sound g)
    (hopen : supernet = .primaryNetwork ∨ ∃ t, c.transformation supernet = .ok (some t)) :
    ∃ supply pool, c.supply supernet = .ok supply ∧ c.rewardPool supernet = .ok pool := by
  have hbalances : ∃ total, c.Balances supernet total := by
    cases h.accounted supernet with
    | primary _ _ hbalances => exact ⟨_, hbalances⟩
    | closed hother hnone =>
        rcases hopen with hprimary | ⟨t, ht⟩
        · exact absurd hprimary hother
        · rw [hnone] at ht
          cases ht
    | transformed _ _ _ hbalances => exact ⟨_, hbalances⟩
  obtain ⟨_, supply, pool, hsupply, hpool, _⟩ := hbalances
  exact ⟨supply, pool, hsupply, hpool⟩

end Contents

namespace Ledger

theorem Runs.sound (h : Runs configs g config l) : ∃ c, l.Upholds c ∧ c.Sound g := by
  apply h.invariant
  · intro s r _
    exact ⟨Contents.timely_genesis r, Contents.backed_genesis r, r.accounted_contents⟩
  · intro l c writes hupholds hsound hperforms
    have hmoves := hupholds.moves hperforms
    exact ⟨hupholds.timely hsound.timely hmoves,
      hupholds.backed hsound.timely hsound.backed hmoves,
      fun supernet => (hsound.accounted supernet).continues (hupholds.continues hperforms supernet)⟩

namespace Upholds

/-! ## Claims -/

/-- The staking transaction of a staker is found. -/
theorem exists_stakingTx (h : l.Upholds c) (hs : s ∈ c.stakers phase) :
    ∃ tx, l.stakingTx s.txId = .ok tx := by
  obtain ⟨tx, status, hread, hstaked⟩ := h.stakes hs
  unfold stakingTx
  rw [h.tx_eq, hread]
  unfold StoredTx.stakedOn? at hstaked
  cases hbody : tx.body <;> rw [hbody] at hstaked <;> first | cases hstaked | skip
  next stakerTx => exact ⟨stakerTx, by simp only [orNotFound, bind_ok, hbody]; rfl⟩

theorem exists_rewardAsset (h : l.Upholds c)
    (hopen : supernet = .primaryNetwork ∨ ∃ t, c.transformation supernet = .ok (some t)) :
    ∃ asset, l.rewardAsset supernet = .ok asset := by
  unfold rewardAsset
  split
  next => exact ⟨_, rfl⟩
  next hother =>
    rcases hopen with hprimary | ⟨t, ht⟩
    · exact absurd (EntityId.isPrimaryNetwork_iff.mpr hprimary) hother
    · rw [h.transformation_eq, ht]
      exact ⟨t.assetId, rfl⟩

theorem overflowsAtMost_rewardOutput (h : l.Upholds c)
    (hopen : s.supernetId = .primaryNetwork ∨ ∃ t, c.transformation s.supernetId = .ok (some t))
    (owner : EntityId) : OverflowsAtMost (l.rewardOutput s owner) := by
  obtain ⟨asset, hasset⟩ := h.exists_rewardAsset hopen
  obtain ⟨book, _, hstaked⟩ := id h
  obtain ⟨outputs, houtputs, _⟩ := hstaked.numbered s.txId
  apply OverflowsAtMost.bind (.of_ok hasset)
  intro _ _
  apply OverflowsAtMost.bind
  · rw [h.rewardUtxos_eq]
    exact .of_ok houtputs
  · intro outputs _
    exact .ite (fun _ => .ok _) fun _ => .overflow _

theorem overflowsAtMost_returnToPool (h : l.Upholds c) (hsound : ∃ pool,
    c.rewardPool supernet = .ok pool) (amount : UInt64) :
    OverflowsAtMost ((returnToPool supernet amount).run l).1 := by
  obtain ⟨pool, hpool⟩ := hsound
  apply OverflowsAtMost.run_ask_bind
  · rw [h.rewardPool_eq]
    exact .of_ok hpool
  · intro pool _
    apply OverflowsAtMost.run_ask_bind (overflowsAtMost_checkedAdd _ _ _)
    intro total _
    exact .ok ()

/-- The claim of the staker that is due fails only if something leaves its range. -/
theorem overflowsAtMost_rewardStaker (h : l.Upholds c) (hsound : c.Sound g)
    (hclaimed : l.claimedStaker stakerTx = .ok s) (paid : Bool) :
    OverflowsAtMost ((rewardStaker stakerTx paid).run l).1 := by
  have hcurrent := h.mem_of_claimedStaker hclaimed
  obtain ⟨rfl, _, hrewarded, _⟩ := of_claimedStaker hclaimed
  have hopen := hsound.backed.primary_or_transformed hcurrent hrewarded
  have hretired := h.retire hcurrent
  rw [c.write_delete] at hretired
  obtain ⟨stakingTx, hstaking⟩ := h.exists_stakingTx hcurrent
  apply OverflowsAtMost.run_ask_bind (.of_ok hclaimed)
  intro s' hs'
  rw [hclaimed] at hs'
  cases hs'
  apply OverflowsAtMost.run_ask_bind (.of_ok hstaking)
  intro tx _
  rw [LedgerM.run_write_bind]
  split
  · split
    · apply OverflowsAtMost.run_ask_bind (hretired.overflowsAtMost_rewardOutput hopen _)
      intro utxo _
      exact .ok ()
    · obtain ⟨_, pool, _, hpool⟩ := hsound.exists_balances hopen
      exact hretired.overflowsAtMost_returnToPool ⟨pool, hpool⟩ _
  · exact .ok ()

/-! ## Plans -/

theorem overflowsAtMost_addPromotion (h : l.Upholds c) (hsound : c.Sound g)
    (hs : s ∈ c.stakers .pending) (reward : RewardConfig) (plan : TimeAdvance) :
    OverflowsAtMost (plan.addPromotion (configuredRewards reward) l s) := by
  apply OverflowsAtMost.ite
  · intro _
    exact .ok _
  · intro hrewarded
    have hopen := hsound.backed.primary_or_transformed hs (Bool.not_eq_true _ ▸ hrewarded)
    obtain ⟨supply, pool, hsupply, hpool⟩ := hsound.exists_balances hopen
    apply OverflowsAtMost.bind
    · unfold TimeAdvance.rewardPool
      split
      · exact .ok _
      · rw [h.rewardPool_eq]
        exact .of_ok hpool
    intro pool _
    apply OverflowsAtMost.bind
    · unfold TimeAdvance.supply
      split
      · exact .ok _
      · rw [h.supply_eq]
        exact .of_ok hsupply
    intro supply _
    -- The rule that is found is a curve.
    have hrule : ∃ curve : RewardConfig,
        configuredRewards reward l s.supernetId = .ok curve.rule := by
      unfold configuredRewards
      split
      next => exact ⟨reward, rfl⟩
      next hother =>
        rcases hopen with hprimary | ⟨t, ht⟩
        · exact absurd (EntityId.isPrimaryNetwork_iff.mpr hprimary) hother
        · rw [h.transformation_eq, ht]
          exact ⟨t.staking.reward, rfl⟩
    obtain ⟨curve, hcurve⟩ := hrule
    rw [hcurve, bind_ok]
    apply OverflowsAtMost.bind (curve.overflowsAtMost_reward _ _ _)
    intro calculated _
    apply OverflowsAtMost.bind (overflowsAtMost_fundReward _ _ _ _)
    intro funding _
    exact .ok _

theorem overflowsAtMost_planAdvance (h : l.Upholds c) (hsound : c.Sound g)
    (reward : RewardConfig) (time : UInt64) :
    OverflowsAtMost (l.planAdvance (configuredRewards reward) time) := by
  obtain ⟨pending, hpending⟩ := h.exists_stakers .pending
  obtain ⟨current, hcurrent⟩ := h.exists_stakers .current
  unfold planAdvance
  rw [hpending, hcurrent, bind_ok]
  apply OverflowsAtMost.bind
  · apply OverflowsAtMost.foldlM
    intro plan s hs
    exact h.overflowsAtMost_addPromotion hsound ((h.mem_dueBy_iff hpending time).mp hs).1 reward plan
  · intro plan _
    exact .ok _

/-! ## The next change -/

/-- The next change can be told, and it is that of the first staker of a phase. -/
theorem exists_nextChangeTime (h : l.Upholds c) : ∃ next, l.nextChangeTime = .ok next ∧
    ∀ time, next = some time → ∃ phase sequence s, l.stakers phase = .ok sequence ∧
      sequence.toList.head? = some s ∧ s.nextTime = time := by
  obtain ⟨current, hcurrent⟩ := h.exists_stakers .current
  obtain ⟨pending, hpending⟩ := h.exists_stakers .pending
  unfold nextChangeTime
  rw [hcurrent, hpending, bind_ok, bind_ok]
  cases hfirst : current.toList.head? with
  | none =>
      refine ⟨_, rfl, fun time htime => ?_⟩
      obtain ⟨s, hs, hnext⟩ := Option.map_eq_some_iff.mp htime
      exact ⟨.pending, pending, s, hpending, hs, hnext⟩
  | some s =>
      cases hother : pending.toList.head? with
      | none =>
          refine ⟨_, rfl, fun time htime => ?_⟩
          cases htime
          exact ⟨.current, current, s, hcurrent, hfirst, rfl⟩
      | some t =>
          refine ⟨_, rfl, fun time htime => ?_⟩
          cases htime
          rcases Std.min_eq_or (a := s.nextTime) (b := t.nextTime) with hmin | hmin
          · exact ⟨.current, current, s, hcurrent, hfirst, hmin.symm⟩
          · exact ⟨.pending, pending, t, hpending, hother, hmin.symm⟩

end Upholds

end Ledger

namespace State

variable {state state' : State} {target : UInt64} {step : Step}

/-- With nobody due the next change lies ahead. -/
theorem lt_nextChangeTime (h : state.opened.Upholds c) (htimely : c.Timely)
    (hnobody : state.dueStaker? = none)
    (hnext : state.opened.nextChangeTime = .ok (some time)) : state.timestamp < time := by
  have hnow : c.timestamp = state.timestamp := h.timestamp_eq.symm
  obtain ⟨next, hread, hfirst⟩ := h.exists_nextChangeTime
  rw [hnext] at hread
  cases hread
  obtain ⟨phase, sequence, s, hsequence, hhead, rfl⟩ := hfirst time rfl
  have hs := ((h.enumerates hsequence).mem_iff s).mp (List.mem_of_head? hhead)
  cases phase with
  | pending =>
      have hwaits := htimely.waits s hs
      rw [← hnow, hwaits.nextTime]
      exact hwaits.ahead
  | current =>
      have hserves := htimely.serves s hs
      rw [← hnow, hserves.nextTime]
      refine UInt64.lt_of_le_of_ne hserves.unfinished fun hend => ?_
      cases hpermissioned : s.priority.isPermissioned with
      | true => exact absurd hend (UInt64.ne_of_lt (hserves.remaining hpermissioned))
      | false =>
          -- The first current staker ends now and earns rewards, so it is due.
          rw [stakers_opened] at hsequence
          cases hsequence
          unfold dueStaker? at hnobody
          change state.registries.current.all.toList.head? = some s at hhead
          rw [hhead, ← hnow, hend] at hnobody
          simp [hpermissioned] at hnobody

theorem overflowsAtMost_advanceOn (h : state.opened.Upholds c) (hsound : c.Sound g)
    (hnobody : state.dueStaker? = none) (htarget : state.timestamp < target) (height : UInt64) :
    OverflowsAtMost ((advanceOn (configuredRewards reward) state.timestamp target height).run
      state.opened).1 := by
  rw [advanceOn_eq]
  obtain ⟨next, hnext, _⟩ := h.exists_nextChangeTime
  apply OverflowsAtMost.run_ask_bind (.of_ok hnext)
  intro next hnext
  -- Nobody is due, so the next change lies ahead and the step makes progress.
  have hahead : state.timestamp < next.elim target (min · target) := by
    cases next with
    | none => exact htarget
    | some time =>
        have hchange := lt_nextChangeTime h hsound.timely hnobody hnext
        change state.timestamp < min time target
        rcases Std.min_eq_or (a := time) (b := target) with hmin | hmin <;> rw [hmin]
        · exact hchange
        · exact htarget
  have hverify : state.opened.verifyAdvance (next.elim target (min · target)) = .ok () := by
    unfold Ledger.verifyAdvance
    change (if _ < state.timestamp then _ else _) = _
    rw [if_neg (UInt64.not_lt.mpr (UInt64.le_of_lt hahead)), hnext]
    cases next with
    | none => rfl
    | some time => exact if_neg (UInt64.not_lt.mpr Std.min_le_left)
  apply OverflowsAtMost.run_ask_bind (.of_ok hverify)
  intro _ _
  apply OverflowsAtMost.run_ask_bind (h.overflowsAtMost_planAdvance hsound reward _)
  intro plan _
  rw [if_neg fun hstuck => UInt64.not_le.mpr hahead hstuck.1]
  apply OverflowsAtMost.run_bind
  · rw [LedgerM.run_forM_write]
    exact .ok ()
  · intro _ _ _
    exact .ok _

/-- The due staker is the one that can be claimed. -/
theorem claimedStaker_of_dueStaker? (h : state.dueStaker? = some s) :
    state.opened.claimedStaker s.txId = .ok s := by
  obtain ⟨hfirst, hdue⟩ := Option.filter_eq_some_iff.mp h
  rw [Bool.and_eq_true] at hdue
  unfold Ledger.claimedStaker
  rw [stakers_opened, bind_ok]
  change (state.registries.get .current).all.toList.head? = some s at hfirst
  have hend : s.endTime = state.opened.timestamp := beq_iff_eq.mp hdue.1
  have hrewarded : s.priority.isPermissioned = false := by simpa using hdue.2
  rw [hfirst]
  simp [require, hend, hrewarded]
  rfl

theorem overflowsAtMost_stepOn (h : state.opened.Upholds c) (hsound : c.Sound g) (height : UInt64) :
    OverflowsAtMost ((state.stepOn (configuredRewards reward) target paid height).run
      state.opened).1 := by
  unfold stepOn
  split
  next s hdue =>
    apply OverflowsAtMost.run_bind
    · apply OverflowsAtMost.run_bind
      · exact h.overflowsAtMost_rewardStaker hsound (claimedStaker_of_dueStaker? hdue) paid
      · intro _ _ _
        exact .ok _
    · intro _ _ _
      exact .ok _
  next hnobody =>
    split
    · exact .ok _
    next htarget =>
      apply OverflowsAtMost.run_bind
      · exact overflowsAtMost_advanceOn h hsound hnobody (UInt64.not_le.mp htarget) height
      · intro _ _ _
        exact .ok _

theorem overflowsAtMost_planStep (h : (Ledger.root state).Upholds c) (hsound : c.Sound g) :
    OverflowsAtMost (state.planStep (configuredRewards reward) target paid) := by
  have hopened : state.opened.Upholds c := h.opened (.ofWord state.height)
  rw [planStep_eq]
  apply OverflowsAtMost.bind state.overflowsAtMost_nextHeight
  intro height _
  have hstep : OverflowsAtMost
      ((state.stepOn (configuredRewards reward) target paid height).run state.opened).1 :=
    overflowsAtMost_stepOn hopened hsound height
  split
  next hrun =>
    rw [hrun] at hstep
    obtain ⟨what, rfl⟩ := hstep _ rfl
    exact .overflow what
  next => exact .ok _
  next => exact .ok _

/-! ## The loop -/

theorem Turns.overflowsAtMost {outcome : Answer (Option Step)} (h : (Ledger.root state).Upholds c)
    (hsound : c.Sound g)
    (hturns : state.Turns (configuredRewards reward) target paid outcome state') :
    OverflowsAtMost outcome := by
  cases hturns with
  | refused hplan =>
      obtain ⟨what, rfl⟩ := overflowsAtMost_planStep h hsound _ hplan
      exact .overflow what
  | finished => exact .ok none
  | @folded _ changes height _ hplan hcommit =>
      -- The step was planned for the next height, and folding keeps the height.
      have hnext : (state.fold changes).nextHeight = .ok height := by
        unfold nextHeight fold
        rw [height_writeAll]
        exact (of_planStep hplan).1
      obtain ⟨what, rfl⟩ := overflowsAtMost_commit hnext _ hcommit
      exact .overflow what
  | committed => exact .ok _

/-- A turn that commits goes on with the run. -/
theorem Turns.runs {rewards : RewardPolicy} (h : Ledger.Runs configs g config (.root state))
    (hturns : state.Turns rewards target paid (.ok (some step)) state') :
    Ledger.Runs configs g config (.root state') := by
  cases hturns with
  | @committed _ changes _ _ hplan hcommit =>
      obtain ⟨_, _, hsteps⟩ := of_planStep hplan
      have hopened : Ledger.Runs configs g config state.opened :=
        h.step (.opened (OrderedMap.get?_insert_self _ _ _) (openLayer_root state))
      have hfolded := (hopened.step hsteps.operates).step (.settled .folded)
      have hroot : (Ledger.root state).fold changes = .root (state.fold changes) :=
        Ledger.writeAll_root state changes.writes
      rw [hroot] at hfolded
      exact hfolded.step (.settled (.committed hcommit))

theorem Loops.overflowsAtMost {answer : Answer (List Step)}
    (h : Ledger.Runs configs g config (.root state))
    (hloops : Loops (configuredRewards reward) target paid state answer state') :
    OverflowsAtMost answer := by
  induction hloops with
  | done => exact .ok []
  | failed hstep =>
      obtain ⟨c, hupholds, hsound⟩ := h.sound
      obtain ⟨what, rfl⟩ := (turns_of_run hstep).overflowsAtMost hupholds hsound _ rfl
      exact .overflow what
  | next hstep _ ih =>
      exact (ih ((turns_of_run hstep).runs h)).map _

/-- The operator is never stuck: after every run of a genesis, for every target that is not behind
and whether rewards are paid or not, it ends without failure or because something leaves its
range. -/
theorem advanceTo_never_stuck (h : Ledger.Runs configs g config (.root state))
    (htarget : state.timestamp ≤ target) (paid : Bool) :
    ∃ answer state', (advanceTo (configuredRewards config.reward) target paid).run state =
        (answer, state') ∧
      Loops (configuredRewards config.reward) target paid state answer state' ∧
      ∀ e, answer = .error e → ∃ what, e = .overflow what := by
  have hloops := loops_advanceTo (configuredRewards config.reward) paid
    ⟨h.coherent.listsOnce, htarget⟩
  exact ⟨_, _, rfl, hloops, hloops.overflowsAtMost h⟩

/-- After the sample script the operator claims and moves time to the end of the one primary
validator. -/
theorem advanceTo_never_stuck_sample :
    ∃ state, Ledger.Runs {.sample} .sample .sample (.root state) ∧ state.timestamp ≤ 100000 ∧
      ∃ answer state', (advanceTo (configuredRewards StakingConfig.sample.reward) 100000 false).run
          state = (answer, state') ∧
        Loops (configuredRewards StakingConfig.sample.reward) 100000 false state answer state' ∧
        ∀ e, answer = .error e → ∃ what, e = .overflow what := by
  have hsample := Ledger.runs_sample
  have htime : Ledger.sample.timestamp ≤ 100000 := by decide +kernel
  have hroot : Ledger.sample.parentId? = none := by decide +kernel
  cases hends : Ledger.sample with
  | layer => rw [hends] at hroot; cases hroot
  | root state =>
      rw [hends] at hsample htime
      exact ⟨state, hsample, htime, advanceTo_never_stuck hsample htime false⟩

end State

end StakingLedger
