import StakingLedger.Proofs.Lifecycle.Moves
import StakingLedger.Proofs.Operation.Script

/-! # Stakers change phase on time

A pending staker waits for a start that lies ahead, and a current one serves a
period that has begun and is not over, save that a staker who earns rewards stays
at the very end of its period until it is claimed. So a staker is promoted by the
move of time to its start and leaves when the time is its end.
-/

namespace StakingLedger

/-- The staker waits at a time before its start. -/
structure Staker.Waits (s : Staker) (time : UInt64) : Prop where
  nextTime : s.nextTime = s.startTime
  ahead : time < s.startTime
  window : s.startTime < s.endTime
  priority : s.priority = .pending s.priority.kind

theorem Staker.Waits.lt_endTime {s : Staker} {time : UInt64} (h : s.Waits time) :
    time < s.endTime :=
  UInt64.lt_trans h.ahead h.window

/-- The staker serves its period at the time. A permissioned validator is gone at the end of it. -/
structure Staker.Serves (s : Staker) (time : UInt64) : Prop where
  nextTime : s.nextTime = s.endTime
  started : s.startTime ≤ time
  unfinished : time ≤ s.endTime
  remaining : s.priority.isPermissioned = true → time < s.endTime
  priority : s.priority = .current s.priority.kind

/-- A staker that waits until its start serves from then on. -/
theorem Staker.Waits.promoted {s : Staker} {time : UInt64} (h : s.Waits time) (reward : UInt64) :
    (s.promoted reward).Serves s.startTime where
  nextTime := rfl
  started := UInt64.le_refl _
  unfinished := UInt64.le_of_lt h.window
  remaining _ := h.window
  priority := by
    change s.priority.toCurrent = .current s.priority.toCurrent.kind
    rw [Priority.kind_toCurrent, Priority.current, ← h.priority]

namespace Contents

variable {configs : Set StakingConfig} {config : StakingConfig} {l l' : Ledger} {c c' : Contents}
  {writes : List Write} {g : Genesis} {state : State} {time : UInt64}

/-- Every staker is in the phase that the time asks for. -/
structure Timely (c : Contents) : Prop where
  waits : ∀ s ∈ c.stakers .pending, s.Waits c.timestamp
  serves : ∀ s ∈ c.stakers .current, s.Serves c.timestamp

theorem timely_genesis (r : State.GenesisRecord {} g state) : r.contents.Timely := by
  have htime : r.contents.timestamp = g.timestamp := congrArg Prod.fst r.figures_contents
  constructor <;> rw [r.stakers_contents, htime]
  · exact fun s hs => absurd hs (Set.notMem_empty s)
  · rintro _ ⟨p, hp, rfl⟩
    obtain ⟨hstart, hwindow⟩ := r.checked.window p.tx (r.txs ▸ List.mem_map_of_mem hp)
    have hend : g.timestamp < p.tx.endTime := hstart ▸ hwindow
    refine ⟨rfl, UInt64.le_of_eq hstart, UInt64.le_of_lt hend, fun _ => hend, ?_⟩
    change Priority.current p.tx.kind = .current (Priority.current p.tx.kind).kind
    rw [Priority.kind_current]

theorem Timely.of_same (h : c.Timely) (htime : c'.timestamp = c.timestamp)
    (hstakers : ∀ phase, ∀ s ∈ c'.stakers phase, s ∈ c.stakers phase) : c'.Timely where
  waits s hs := htime ▸ h.waits s (hstakers _ s hs)
  serves s hs := htime ▸ h.serves s (hstakers _ s hs)

theorem Timely.advances (h : c.Timely) (hadvances : c.Advances time c') : c'.Timely where
  waits s hs := by
    obtain ⟨hs, hnext⟩ := (hadvances.pending s).mp hs
    have hwaits := h.waits s hs
    have hlater : time < s.nextTime :=
      UInt64.lt_of_le_of_ne (hadvances.within _ s hs) hnext.symm
    rw [hadvances.timestamp]
    exact { hwaits with ahead := hwaits.nextTime ▸ hlater }
  serves s hs := by
    rw [hadvances.timestamp]
    rcases hadvances.arrived s hs with ⟨hs, hstays⟩ | ⟨p, hp, hdue, reward, rfl⟩
    · -- A staker that stays was not due, or it earns rewards and waits at its very end.
      have hserves := h.serves s hs
      have hwithin : time ≤ s.endTime := hserves.nextTime ▸ hadvances.within _ s hs
      refine { hserves with
        started := UInt64.le_trans hserves.started hadvances.ahead
        unfinished := hwithin
        remaining := fun hpermissioned => UInt64.lt_of_le_of_ne hwithin fun hend => ?_ }
      exact hstays ⟨hpermissioned, hserves.nextTime.trans hend.symm⟩
    · have hwaits := h.waits p hp
      rw [← hdue, hwaits.nextTime]
      exact hwaits.promoted reward

end Contents

/-- A staker that is admitted waits. -/
theorem Ledger.Admits.waits {l : Ledger} {config : StakingConfig} {tx : StakerTx}
    {rules : Option StakingConfig} (h : l.Admits config tx rules) :
    (pendingStaker tx).Waits l.timestamp where
  nextTime := rfl
  ahead := h.ahead
  window := h.window
  priority := by
    change Priority.pending tx.kind = .pending (Priority.pending tx.kind).kind
    rw [Priority.kind_pending]

namespace Ledger

variable {configs : Set StakingConfig} {config : StakingConfig} {l l' : Ledger} {c c' : Contents}
  {writes : List Write} {g : Genesis} {s t : Staker}

/-- Every operation keeps the stakers on time. -/
theorem Upholds.timely (h : l.Upholds c) (htimely : c.Timely) (hmoves : l.Moves configs c writes) :
    (c.writeAll writes).Timely := by
  cases hmoves with
  | unmoved htime hstakers => exact htimely.of_same htime fun phase s hs => hstakers ▸ hs
  | transformed _ _ _ htime hstakers => exact htimely.of_same htime fun phase s hs => hstakers ▸ hs
  | enrolled _ _ hadmits htime hstakers =>
      constructor <;> rw [htime]
      · intro s hs
        rcases (hstakers _ s).mp hs with ⟨_, rfl⟩ | hs
        · exact h.timestamp_eq ▸ hadmits.waits
        · exact htimely.waits s hs
      · intro s hs
        rcases (hstakers _ s).mp hs with ⟨hphase, _⟩ | hs
        · cases hphase
        · exact htimely.serves s hs
  | advanced _ _ _ hadvances => exact htimely.advances hadvances
  | claimed _ htime hstakers =>
      exact htimely.of_same htime fun phase s hs => ((hstakers phase s).mp hs).1

theorem Runs.timely (h : Runs configs g config l) : ∃ c, l.Upholds c ∧ c.Timely :=
  h.invariant (fun r _ => Contents.timely_genesis r)
    fun hupholds htimely hperforms => hupholds.timely htimely (hupholds.moves hperforms)

/-- The second ledger is the first one after a move of time that was accepted. -/
def AdvancesTo (l : Ledger) (time : UInt64) (l' : Ledger) : Prop :=
  ∃ rewards plan, l.verifyAdvance time = .ok () ∧ l.planAdvance rewards time = .ok plan ∧
    l' = l.applyAdvance plan

/-- How the phases of stakers change from one ledger to the next. -/
structure PhasesChange (l l' : Ledger) : Prop where
  left : ∀ s, l.Has .pending s → ¬ l'.Has .pending s →
    l.AdvancesTo s.startTime l' ∧ ∃ reward, l'.Has .current (s.promoted reward)
  arrived : ∀ s, l'.Has .current s → ¬ l.Has .current s →
    ∃ p reward, l.Has .pending p ∧ s = p.promoted reward ∧ l.AdvancesTo p.startTime l'
  retired : ∀ s, l.Has .current s → ¬ l'.Has .current s → l'.timestamp = s.endTime

theorem Upholds.phasesChange_of_same (h : l.Upholds c) (h' : l'.Upholds c')
    (hpending : ∀ s ∈ c.stakers .pending, s ∈ c'.stakers .pending)
    (hcurrent : c'.stakers .current = c.stakers .current) : l.PhasesChange l' where
  left _ hs hleft := absurd (h'.has_iff.mpr (hpending _ (h.has_iff.mp hs))) hleft
  arrived _ hs hnew := absurd (h.has_iff.mpr (hcurrent ▸ h'.has_iff.mp hs)) hnew
  retired _ hs hleft := absurd (h'.has_iff.mpr (hcurrent ▸ h.has_iff.mp hs)) hleft

theorem Upholds.phasesChange_of_advances {time : UInt64} (h : l.Upholds c) (h' : l'.Upholds c')
    (htimely : c.Timely) (hadvances : c.Advances time c') (hmoves : l.AdvancesTo time l') :
    l.PhasesChange l' := by
  -- Who changes phase is due at the new time, and a staker's next time is its start or end.
  have hstart : ∀ p ∈ c.stakers .pending, p.nextTime = time → p.startTime = time :=
    fun p hp hdue => (htimely.waits p hp).nextTime.symm.trans hdue
  refine ⟨fun s hs hleft => ?_, fun s hs hnew => ?_, fun s hs hleft => ?_⟩
  · rw [h.has_iff] at hs
    rw [h'.has_iff, hadvances.pending] at hleft
    have hdue : s.nextTime = time := by_contra fun hne => hleft ⟨hs, hne⟩
    obtain ⟨reward, hreward⟩ := hadvances.promoted s hs hdue
    exact ⟨hstart s hs hdue ▸ hmoves, reward, h'.has_iff.mpr hreward⟩
  · rw [h.has_iff] at hnew
    rcases hadvances.arrived s (h'.has_iff.mp hs) with ⟨hold, _⟩ | ⟨p, hp, hdue, reward, hs⟩
    · exact absurd hold hnew
    · exact ⟨p, reward, h.has_iff.mpr hp, hs, hstart p hp hdue ▸ hmoves⟩
  · rw [h.has_iff] at hs
    rw [h'.has_iff] at hleft
    have hexpires : s.Expires time :=
      by_contra fun hstays => hleft (hadvances.stayed s hs hstays)
    rw [h'.timestamp_eq, hadvances.timestamp, ← hexpires.2, (htimely.serves s hs).nextTime]

theorem Upholds.phasesChange_of_claimed (h : l.Upholds c) (h' : l'.Upholds c')
    (hclaimable : c.Claimable s) (htime : c'.timestamp = c.timestamp)
    (hstakers : ∀ phase t, t ∈ c'.stakers phase ↔
      t ∈ c.stakers phase ∧ (phase = .current → t ≠ s)) : l.PhasesChange l' := by
  -- Only the claimed staker leaves, and it was due.
  refine ⟨fun t ht hleft => ?_, fun t ht hnew => ?_, fun t ht hleft => ?_⟩
  · rw [h.has_iff] at ht
    rw [h'.has_iff, hstakers] at hleft
    exact absurd ⟨ht, fun hphase => by cases hphase⟩ hleft
  · exact absurd (h.has_iff.mpr ((hstakers _ t).mp (h'.has_iff.mp ht)).1) hnew
  · rw [h.has_iff] at ht
    rw [h'.has_iff, hstakers] at hleft
    have hself : t = s := by_contra fun hne => hleft ⟨ht, fun _ => hne⟩
    rw [hself, hclaimable.due, h'.timestamp_eq, htime]

/-- A step of a run changes phases on time. -/
theorem Upholds.phasesChange (h : l.Upholds c) (htimely : c.Timely)
    (hop : l.Operates configs l') : l.PhasesChange l' := by
  rcases h.operates hop with ⟨writes, hperforms, rfl⟩ | hsame
  · have h' := h.performs hperforms
    cases h.moves hperforms with
    | unmoved _ hstakers | transformed _ _ _ _ hstakers =>
        exact h.phasesChange_of_same h' (fun s hs => hstakers ▸ hs) (congrFun hstakers _)
    | enrolled _ _ _ _ hstakers =>
        refine h.phasesChange_of_same h' (fun s hs => (hstakers _ s).mpr (Or.inr hs)) ?_
        ext s
        rw [hstakers]
        simp
    | advanced hverify hplan hwrites hadvances =>
        exact h.phasesChange_of_advances h' htimely hadvances
          ⟨_, _, hverify, hplan, by rw [hwrites]; rfl⟩
    | claimed hclaimable htime hstakers =>
        exact h.phasesChange_of_claimed h' hclaimable htime hstakers
  · exact h.phasesChange_of_same hsame (fun _ => id) rfl

/-- In every ledger of a run each staker is in the phase that the time asks for. A step promotes a
staker only by moving time to just its start, and retires it only when the time is its end. -/
theorem stakers_on_time (h : Runs configs g config l) :
    (∀ phase, ∃ sequence, l.stakers phase = .ok sequence) ∧
      (∀ s, l.Has .pending s → s.nextTime = s.startTime ∧ l.timestamp < s.startTime) ∧
      (∀ s, l.Has .current s → s.nextTime = s.endTime ∧ s.startTime ≤ l.timestamp ∧
        l.timestamp ≤ s.endTime ∧ (s.priority.isPermissioned = true → l.timestamp < s.endTime)) ∧
      ∀ l', l.Operates configs l' → l.PhasesChange l' := by
  obtain ⟨c, hupholds, htimely⟩ := h.timely
  have htime := hupholds.timestamp_eq
  refine ⟨hupholds.exists_stakers, fun s hs => ?_, fun s hs => ?_,
    fun l' hop => hupholds.phasesChange htimely hop⟩
  · have hwaits := htimely.waits s (hupholds.has_iff.mp hs)
    exact ⟨hwaits.nextTime, htime ▸ hwaits.ahead⟩
  · have hserves := htimely.serves s (hupholds.has_iff.mp hs)
    rw [htime]
    exact ⟨hserves.nextTime, hserves.started, hserves.unfinished, hserves.remaining⟩

theorem stakers_on_time_sample :
    Runs {.sample} .sample .sample Ledger.sample ∧
      Ledger.sample.timestamp < (pendingStaker sampleLateTx).startTime ∧
      (currentStaker sampleGuestTx 39954).startTime ≤ Ledger.sample.timestamp ∧
      Ledger.sample.timestamp ≤ (currentStaker sampleGuestTx 39954).endTime ∧
      ∀ l', Ledger.sample.Operates {.sample} l' → Ledger.sample.PhasesChange l' := by
  obtain ⟨hguest, _, hlate⟩ := has_sample
  obtain ⟨_, hwaits, hserves, hchange⟩ := stakers_on_time runs_sample
  obtain ⟨_, hahead⟩ := hwaits _ hlate
  obtain ⟨_, hstarted, hunfinished, _⟩ := hserves _ hguest
  exact ⟨runs_sample, hahead, hstarted, hunfinished, hchange⟩

end Ledger

end StakingLedger
