import StakingLedger.Proofs.Operation.Alike
import StakingLedger.Proofs.Operation.SameView
import StakingLedger.Proofs.Operator.Safety

/-! # Runs in lockstep

Two roots with the same contents are next to take the same step, whatever their
heights. After the step they have the same contents again, and their stores differ
in nothing but what belongs to heights. So with the same target the operator does
the same from both.
-/

namespace StakingLedger

/-- The step as it would be at another height. -/
def Step.atHeight (height : UInt64) : Step → Step
  | .rewarded stakerTx paid _ => .rewarded stakerTx paid height
  | .advanced time promoted retired _ => .advanced time promoted retired height

/-- Of the changes of a layer only time and fees depend on those that it starts from. -/
theorem Changes.foldl_write_figures (changes : Changes) (writes : List Write)
    (timestamp feePool : UInt64) : ∃ timestamp' feePool',
      writes.foldl Changes.write { changes with timestamp := timestamp, feePool := feePool } =
        { writes.foldl Changes.write changes with
          timestamp := timestamp', feePool := feePool' } := by
  induction writes generalizing changes timestamp feePool with
  | nil => exact ⟨timestamp, feePool, rfl⟩
  | cons w rest ih =>
      have hfirst : ∃ timestamp' feePool',
          ({ changes with timestamp := timestamp, feePool := feePool } : Changes).write w =
            { changes.write w with timestamp := timestamp', feePool := feePool' } := by
        cases w <;> exact ⟨_, _, rfl⟩
      obtain ⟨timestamp', feePool', hfirst⟩ := hfirst
      rw [List.foldl_cons, hfirst]
      exact ih (changes.write w) timestamp' feePool'

namespace State

variable {rewards : RewardPolicy} {target : UInt64} {paid : Bool} {s s' t t' : State}
  {c : Contents} {height height' time : UInt64} {step step' : Step} {writes writes' : List Write}
  {steps steps' : List Step}

/-! ## Roots between two steps -/

/-- What is known of a root between two steps: its contents, with every staker in its phase, and
that nothing waits to be committed. -/
structure Stands (s : State) (c : Contents) : Prop where
  upholds : (Ledger.root s).Upholds c
  timely : c.Timely
  clean : s.hasUncommittedChanges = false

/-- The root after the writes of a step, before the commit. -/
def folded (s : State) (writes : List Write) : State :=
  s.fold (writes.foldl Changes.write (.untouched s.timestamp s.feePool))

/-- What a step makes of a root: the layer with the writes is folded and committed. -/
structure Seals (s : State) (writes : List Write) (c : Contents) (s' : State) : Prop where
  stands : s'.Stands c
  durable : ∃ book were, (s.folded writes).Durable book were c ∧ c.Proper book
  flushed : ∃ height history, (s.folded writes).Flushed height history s'

theorem Stands.opened (h : s.Stands c) : s.opened.Upholds c := h.upholds.opened (.ofWord s.height)

/-- A turn that takes a step seals its writes. -/
theorem Stands.turn (h : s.Stands c)
    (hturns : s.Turns rewards target paid (.ok (some step)) s') :
    ∃ height writes, s.Takes rewards target paid height step writes ∧
      s.Seals writes (c.writeAll writes) s' := by
  cases hturns with
  | @committed _ changes height _ hplan hcommit =>
      obtain ⟨_, writes, rfl, htakes⟩ := takes_of_planStep hplan
      have hperforms : s.opened.Performs ∅ writes := htakes.performs
      have hlayer := h.opened.performs hperforms
      rw [State.opened, Ledger.writeAll_layer] at hlayer
      have hfolded : (Ledger.root (s.folded writes)).Upholds (c.writeAll writes) := by
        have hsettled := hlayer.settled .folded
        rwa [Ledger.fold, Ledger.writeAll_root] at hsettled
      obtain ⟨history, hflushed⟩ := flushed_of_flush (flush_of_commit hcommit).1
      obtain ⟨book, ⟨hproper, were, hdurable⟩, _⟩ := id hfolded
      have hstands : s'.Stands (c.writeAll writes) :=
        { upholds := hfolded.settled (.committed hcommit)
          timely := h.opened.timely h.timely (h.opened.moves hperforms)
          clean := clean_of_flushed hflushed }
      exact ⟨height, writes, htakes,
        { stands := hstands
          durable := ⟨book, were, hdurable, hproper⟩
          flushed := ⟨height, history, hflushed⟩ }⟩

theorem store_folded (s : State) (writes : List Write) : (s.folded writes).store = s.store :=
  s.store_writeAll _

/-! ## What is in memory -/

/-- The roots have the same balances and registries in memory. -/
structure SameMemory (s t : State) : Prop where
  supplies : s.supplies = t.supplies
  rewardPools : s.rewardPools = t.rewardPools
  registries : s.registries = t.registries

namespace SameMemory

theorem trans {u : State} (h : s.SameMemory t) (h' : t.SameMemory u) : s.SameMemory u :=
  ⟨h.supplies.trans h'.supplies, h.rewardPools.trans h'.rewardPools,
    h.registries.trans h'.registries⟩

theorem write (h : s.SameMemory t) (w : Write) : (s.write w).SameMemory (t.write w) := by
  obtain ⟨_, _, _, _, supplies, rewardPools, registries, _⟩ := s
  obtain ⟨_, _, _, _, supplies', rewardPools', registries', _⟩ := t
  obtain ⟨hsupplies, hrewardPools, hregistries⟩ := h
  change supplies = supplies' at hsupplies
  change rewardPools = rewardPools' at hrewardPools
  change registries = registries' at hregistries
  subst hsupplies hrewardPools hregistries
  cases w <;> exact ⟨rfl, rfl, rfl⟩

theorem writeAll (h : s.SameMemory t) (writes : List Write) :
    (s.writeAll writes).SameMemory (t.writeAll writes) := by
  induction writes generalizing s t with
  | nil => exact h
  | cons w rest ih => exact ih (h.write w)

/-- Time and fees that a fold sets are neither balances nor registries. -/
theorem fold (h : s.SameMemory t) (changes : Changes) (timestamp feePool : UInt64) :
    (s.fold { changes with timestamp := timestamp, feePool := feePool }).SameMemory
      (t.fold changes) := by
  have hfigures : (s.writeAll [.setTimestamp timestamp, .setFeePool feePool]).SameMemory
      (t.writeAll [.setTimestamp changes.timestamp, .setFeePool changes.feePool]) :=
    ⟨h.supplies, h.rewardPools, h.registries⟩
  exact hfigures.writeAll _

theorem folded (h : s.SameMemory t) (writes : List Write) :
    (s.folded writes).SameMemory (t.folded writes) := by
  obtain ⟨timestamp, feePool, hchanges⟩ := Changes.foldl_write_figures
    (.untouched t.timestamp t.feePool) writes s.timestamp s.feePool
  unfold State.folded
  change (s.fold (writes.foldl Changes.write
    { Changes.untouched t.timestamp t.feePool with
      timestamp := s.timestamp, feePool := s.feePool })).SameMemory _
  rw [hchanges]
  exact h.fold _ _ _

theorem flushed {history history' : List (Bytes × Bytes)} (h : s.SameMemory t)
    (hs : s.Flushed height history s') (ht : t.Flushed height' history' t') : s'.SameMemory t' := by
  rw [hs.result, ht.result]
  refine ⟨h.supplies, h.rewardPools, ?_⟩
  dsimp only
  rw [h.registries]

end SameMemory

namespace Seals

/-- Two steps that end with the same contents leave the same stores but for the heights. -/
theorem agreesOffHeights (h : s.Seals writes c s') (h' : t.Seals writes' c t')
    (hstore : s.store.AgreesOnRecords t.store) : s'.store.AgreesOffHeights t'.store := by
  obtain ⟨_, _, hdurable, hproper⟩ := h.durable
  obtain ⟨_, _, hdurable', hproper'⟩ := h'.durable
  obtain ⟨_, _, hflushed⟩ := h.flushed
  obtain ⟨_, _, hflushed'⟩ := h'.flushed
  apply agreesOffHeights_of_flushed hdurable hproper hflushed hdurable' hproper' hflushed'
  rw [store_folded, store_folded]
  exact hstore

/-- Two steps with the same writes leave the same in memory. -/
theorem sameMemory {c' : Contents} (h : s.Seals writes c s') (h' : t.Seals writes c' t')
    (hmemory : s.SameMemory t) : s'.SameMemory t' := by
  obtain ⟨_, _, hflushed⟩ := h.flushed
  obtain ⟨_, _, hflushed'⟩ := h'.flushed
  exact (hmemory.folded writes).flushed hflushed hflushed'

end Seals

/-! ## Roots with the same contents -/

/-- Two roots with the same contents and the same in memory, whose stores differ at most in what
belongs to heights. -/
structure Twins (s t : State) (c : Contents) : Prop where
  left : s.Stands c
  right : t.Stands c
  memory : s.SameMemory t
  stores : s.store.AgreesOffHeights t.store

theorem Twins.refl (h : s.Stands c) : Twins s s c := ⟨h, h, ⟨rfl, rfl, rfl⟩, fun _ _ => rfl⟩

theorem Twins.view_eq (h : Twins s t c) : (Ledger.root s).view = (Ledger.root t).view :=
  h.left.upholds.shows.unique h.right.upholds.shows

theorem Twins.timestamp_eq (h : Twins s t c) : s.timestamp = t.timestamp :=
  congrArg View.timestamp h.view_eq

theorem Twins.dueStaker?_eq (h : Twins s t c) : s.dueStaker? = t.dueStaker? := by
  have hroot : ∀ u : State, (Ledger.root u).stakers .current = .ok u.registries.current.all :=
    fun _ => rfl
  have hread := (Ledger.AgreesOffTime.of_view_eq h.view_eq).toList_eq (hroot s) (hroot t)
  unfold dueStaker?
  rw [hread, h.timestamp_eq]

/-- Twins differ in nothing but the height and the store. -/
theorem Twins.eq_but_store (h : Twins s t c) :
    s = { t with height := s.height, store := s.store } := by
  have hfees : s.feePool = t.feePool := congrArg View.feePool h.view_eq
  have hunflushed : s.unflushed = t.unflushed :=
    (of_clean h.left.clean).1.trans (of_clean h.right.clean).1.symm
  rw [← h.timestamp_eq, ← hfees, ← hunflushed, ← h.memory.supplies, ← h.memory.rewardPools,
    ← h.memory.registries]

/-! ## The next step -/

/-- Nobody is due, and nobody changes phase by the time. -/
structure Quiet (s : State) (c : Contents) (time : UInt64) : Prop where
  nobody : s.dueStaker? = none
  later : ∀ phase, ∀ x ∈ c.stakers phase, time < x.nextTime

theorem dueBy_of_later {l : Ledger} (h : l.Upholds c) {phase : Phase} {sequence : StakerSeq}
    (hread : l.stakers phase = .ok sequence) (hlater : ∀ x ∈ c.stakers phase, time < x.nextTime) :
    Ledger.dueBy sequence time = [] := by
  apply List.eq_nil_iff_forall_not_mem.mpr
  intro x hx
  obtain ⟨hmem, hdue⟩ := (h.mem_dueBy_iff hread time).mp hx
  exact UInt64.not_le.mpr (hlater x hmem) hdue

/-- The plan for a time by which nobody changes phase is empty. -/
theorem plan_of_later {l : Ledger} (h : l.Upholds c)
    (hlater : ∀ phase, ∀ x ∈ c.stakers phase, time < x.nextTime) {plan : TimeAdvance}
    (hplan : l.planAdvance rewards time = .ok plan) : plan = { timestamp := time } := by
  obtain ⟨pending, hpending, hplan⟩ := bind_eq_ok_iff.mp hplan
  obtain ⟨promoting, hpromoting, hplan⟩ := bind_eq_ok_iff.mp hplan
  obtain ⟨current, hcurrent, hplan⟩ := bind_eq_ok_iff.mp hplan
  rw [dueBy_of_later h hpending (hlater .pending)] at hpromoting
  rw [dueBy_of_later h hcurrent (hlater .current)] at hplan
  cases hpromoting
  cases hplan
  rfl

/-- The move to the nearer target goes as far as the one to the farther, unless the next change lies
beyond the nearer. -/
theorem elim_min_eq_or (change : Option UInt64) {near far : UInt64} (hle : near ≤ far) :
    change.elim near (min · near) = change.elim far (min · far) ∨
      near < far ∧ change.elim near (min · near) = near ∧ ∀ next, change = some next → near < next := by
  cases change with
  | none =>
      by_cases heq : near = far
      · exact Or.inl heq
      · exact Or.inr ⟨UInt64.lt_of_le_of_ne hle heq, rfl, nofun⟩
  | some next =>
      by_cases hnext : next ≤ near
      · have hnear : min next near = next := if_pos hnext
        have hfar : min next far = next := if_pos (UInt64.le_trans hnext hle)
        exact Or.inl (hnear.trans hfar.symm)
      · have hnear : min next near = near := if_neg hnext
        by_cases heq : near = far
        · exact Or.inl (by rw [heq])
        · refine Or.inr ⟨UInt64.lt_of_le_of_ne hle heq, hnear, ?_⟩
          intro later hlater
          cases hlater
          exact UInt64.not_le.mp hnext

/-- Roots with the same contents take the same step, unless the nearer of the two targets is reached
before anybody changes phase. Then the operator just moves time there. -/
theorem Twins.takes {near far : UInt64} (h : Twins s t c) (hrewards : rewards.Timeless)
    (hle : near ≤ far) (hs : s.Takes rewards near paid height step writes)
    (ht : t.Takes rewards far paid height' step' writes') :
    step.atHeight 0 = step'.atHeight 0 ∧ writes = writes' ∨
      near < far ∧ s.Quiet c near ∧ step.atHeight 0 = .advanced near 0 0 0 ∧
        writes = [.setTimestamp near] := by
  have hdue := h.dueStaker?_eq
  cases hs with
  | claims hdues hwrites =>
      cases ht with
      | claims hduet hwrites' =>
          rw [hdue, hduet] at hdues
          cases hdues
          exact Or.inl ⟨rfl, h.left.opened.claimWrites_unique h.right.opened hwrites hwrites'⟩
      | moves hnobody =>
          rw [hdue, hnobody] at hdues
          cases hdues
  | moves hnobody _ hchange htime _ hplan =>
      cases ht with
      | claims hduet =>
          rw [← hdue, hnobody] at hduet
          cases hduet
      | moves _ _ hchange' htime' _ hplan' =>
          have hagrees : s.opened.AgreesOffTime t.opened :=
            .of_view_eq (h.left.opened.shows.unique h.right.opened.shows)
          cases hagrees.nextChangeTime_eq hchange hchange'
          -- Time moves to the same moment, or the nearer target cuts its move short.
          rcases elim_min_eq_or _ hle with hsame | ⟨hlt, hnear, hbeyond⟩
          · rw [← hsame, ← htime] at htime'
            subst htime'
            cases hagrees.planAdvance_eq hrewards hplan hplan'
            exact Or.inl ⟨rfl, rfl⟩
          · rw [htime, hnear] at hplan ⊢
            have hlater : ∀ phase, ∀ x ∈ c.stakers phase, near < x.nextTime := by
              intro phase x hx
              obtain ⟨next, hnext, hfirst⟩ := h.left.opened.le_nextTime hchange hx
              exact UInt64.lt_of_lt_of_le (hbeyond next hnext) hfirst
            cases plan_of_later h.left.opened hlater hplan
            exact Or.inr ⟨hlt, ⟨hnobody, hlater⟩, rfl, rfl⟩

/-- After the same step they have the same contents again. -/
theorem Twins.seals (h : Twins s t c) (hs : s.Seals writes (c.writeAll writes) s')
    (ht : t.Seals writes (c.writeAll writes) t') : Twins s' t' (c.writeAll writes) :=
  ⟨hs.stands, ht.stands, hs.sameMemory ht h.memory, hs.agreesOffHeights ht h.stores.onRecords⟩

/-! ## The loop -/

/-- A run of the loop that succeeds ends where nothing is left to do, or goes on after a step. -/
theorem Loops.of_ok (h : Loops rewards target paid s (.ok steps) s') :
    (steps = [] ∧ s' = s ∧ s.dueStaker? = none ∧ target ≤ s.timestamp) ∨
      ∃ step rest mid, steps = step :: rest ∧ s.Turns rewards target paid (.ok (some step)) mid ∧
        Loops rewards target paid mid (.ok rest) s' := by
  generalize hanswer : Except.ok steps = answer at h
  cases h with
  | done h =>
      cases hanswer
      cases turns_of_run h with
      | finished hnobody hreached => exact Or.inl ⟨rfl, rfl, hnobody, hreached⟩
  | failed => cases hanswer
  | next h hrest =>
      obtain ⟨rest, rfl, rfl⟩ := map_eq_ok_iff.mp hanswer.symm
      exact Or.inr ⟨_, rest, _, rfl, turns_of_run h, hrest⟩

theorem Loops.of_nil (h : Loops rewards target paid s (.ok []) s') :
    s' = s ∧ s.dueStaker? = none ∧ target ≤ s.timestamp := by
  rcases h.of_ok with ⟨_, hended⟩ | ⟨_, _, _, hcons, _⟩
  · exact hended
  · cases hcons

theorem Loops.of_cons (h : Loops rewards target paid s (.ok (step :: steps)) s') :
    ∃ mid, s.Turns rewards target paid (.ok (some step)) mid ∧
      Loops rewards target paid mid (.ok steps) s' := by
  rcases h.of_ok with ⟨hnil, _⟩ | ⟨_, _, mid, hcons, hturn, hrest⟩
  · cases hnil
  · cases hcons
    exact ⟨mid, hturn, hrest⟩

/-- With nobody due and the target reached, no step is left. -/
theorem Takes.not_finished (h : s.Takes rewards target paid height step writes)
    (hnobody : s.dueStaker? = none) : ¬ target ≤ s.timestamp := by
  cases h with
  | claims hdue =>
      rw [hnobody] at hdue
      cases hdue
  | moves _ hahead => exact UInt64.not_le.mpr hahead

/-- A turn from the one root is the first step of the run from the other, whose target is no nearer,
and makes the roots twins again, unless it pauses at the nearer target. -/
theorem Twins.turn {near far : UInt64} (h : Twins s t c) (hrewards : rewards.Timeless)
    (hle : near ≤ far) (hturn : s.Turns rewards near paid (.ok (some step)) s')
    (hloops : Loops rewards far paid t (.ok steps) t') :
    (∃ step' rest mid, steps = step' :: rest ∧ step.atHeight 0 = step'.atHeight 0 ∧
      Loops rewards far paid mid (.ok rest) t' ∧ ∃ c', Twins s' mid c') ∨
      near < far ∧ s.Quiet c near ∧ step.atHeight 0 = .advanced near 0 0 0 ∧
        s.Seals [.setTimestamp near] { c with timestamp := near } s' ∧ ¬ far ≤ t.timestamp := by
  obtain ⟨_, writes, htakes, hseals⟩ := h.left.turn hturn
  rcases hloops.of_ok with ⟨_, _, hnobody, hreached⟩ | ⟨step', rest, mid, rfl, hturn', hrest⟩
  · rw [← h.dueStaker?_eq] at hnobody
    rw [← h.timestamp_eq] at hreached
    exact absurd (UInt64.le_trans hle hreached) (htakes.not_finished hnobody)
  · obtain ⟨_, writes', htakes', hseals'⟩ := h.right.turn hturn'
    rcases h.takes hrewards hle htakes htakes' with ⟨hstep, rfl⟩ | ⟨hlt, hquiet, hstep, rfl⟩
    · exact Or.inl ⟨step', rest, mid, rfl, hstep, hrest, _, h.seals hseals hseals'⟩
    · have hnobody := h.dueStaker?_eq ▸ hquiet.nobody
      exact Or.inr ⟨hlt, hquiet, hstep, hseals, htakes'.not_finished hnobody⟩

/-- With one target the operator takes the same steps from both roots. -/
theorem Twins.loops (h : Twins s t c) (hrewards : rewards.Timeless)
    (hs : Loops rewards target paid s (.ok steps) s')
    (ht : Loops rewards target paid t (.ok steps') t') :
    (∃ c', Twins s' t' c') ∧ steps.map (·.atHeight 0) = steps'.map (·.atHeight 0) := by
  -- By induction on the steps from the one root: after each of them the roots are twins again.
  induction steps generalizing s t c steps' with
  | nil =>
      obtain ⟨rfl, hnobody, hreached⟩ := hs.of_nil
      rcases ht.of_ok with ⟨rfl, rfl, _⟩ | ⟨step', rest', mid', rfl, hturn', _⟩
      · exact ⟨⟨c, h⟩, rfl⟩
      · obtain ⟨_, _, htakes', _⟩ := h.right.turn hturn'
        have hreached' : target ≤ t.timestamp := h.timestamp_eq ▸ hreached
        exact absurd hreached' (htakes'.not_finished (h.dueStaker?_eq ▸ hnobody))
  | cons step rest ih =>
      obtain ⟨mid, hturn, hrest⟩ := hs.of_cons
      rcases h.turn hrewards (UInt64.le_refl _) hturn ht with
        ⟨step', rest', mid', rfl, hstep, hrest', _, hmid⟩ | ⟨hlt, _⟩
      · obtain ⟨hends, hsteps⟩ := ih hmid hrest hrest'
        exact ⟨hends, congrArg₂ List.cons hstep hsteps⟩
      · exact absurd hlt (UInt64.lt_irrefl _)

end State

end StakingLedger
