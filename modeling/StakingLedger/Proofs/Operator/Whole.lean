import StakingLedger.Proofs.Operation.Reproducible
import StakingLedger.Proofs.Operator.Lockstep
import StakingLedger.Proofs.Operator.Succession
import StakingLedger.Proofs.State.Restoring

/-! # Runs that fail between two steps

Whatever can go wrong with a step goes wrong while it is planned: a step that has
been planned is folded, and the commit after it is not refused. So a run of the
operator that fails leaves the root as the last committed step did, with nothing
uncommitted, and as its store restores it.
-/

namespace StakingLedger

variable {w : Write} {writes : List Write}

/-! ## What a step holds back -/

/-- No chain and no transaction is held back. -/
def RecordEdits.RegistersNothing (e : RecordEdits) : Prop := e.chains = .empty ∧ e.txs = .empty

namespace RecordEdits.RegistersNothing

variable {e : RecordEdits}

theorem encodable (h : e.RegistersNothing) : e.encodable = true := by
  rw [RecordEdits.encodable, h.1, h.2]
  rfl

theorem of_mem_replay (h : e.RegistersNothing) (hw : w ∈ e.replay) : w.RegistersNothing := by
  have hchains : e.chains.values = [] := by rw [h.1]; rfl
  have htxs : e.txs.values = [] := by rw [h.2]; rfl
  simp only [replay, hchains, htxs, List.mem_append, List.mem_map, List.mem_flatMap,
    List.not_mem_nil, false_and, exists_const, or_false] at hw
  rcases hw with ((⟨entry, _, rfl⟩ | ⟨_, _, _, _, rfl⟩) | ⟨_, _, rfl⟩) | ⟨_, _, rfl⟩
  · cases entry.2 <;> trivial
  all_goals trivial

end RecordEdits.RegistersNothing

namespace Changes

variable {changes : Changes}

theorem registersNothing_write (h : changes.edits.RegistersNothing)
    (hw : w.RegistersNothing) : (changes.write w).edits.RegistersNothing := by
  cases w with
  | addChain | addTx => exact hw.elim
  | _ => exact h

theorem registersNothing_foldl (h : changes.edits.RegistersNothing)
    (hwrites : ∀ w ∈ writes, w.RegistersNothing) :
    (writes.foldl write changes).edits.RegistersNothing :=
  writes.foldlRecOn (motive := fun changes => changes.edits.RegistersNothing) write h
    fun _ hbefore _ hw => registersNothing_write hbefore (hwrites _ hw)

theorem registersNothing_of_mem_writes
    (h : changes.edits.RegistersNothing) (hw : w ∈ changes.writes) : w.RegistersNothing := by
  rcases List.mem_append.mp hw with hw | hw
  · exact registersNothing_of_mem_front hw
  · exact h.of_mem_replay hw

end Changes

namespace State

variable {rewards : RewardPolicy} {target : UInt64} {paid : Bool} {s s' mid : State}
  {e : LedgerError} {height : UInt64} {step : Step} {members : Phase → Set Staker}

theorem registersNothing_write (h : s.unflushed.edits.RegistersNothing)
    (hw : w.RegistersNothing) : (s.write w).unflushed.edits.RegistersNothing := by
  cases w with
  | addChain | addTx => exact hw.elim
  | _ => exact h

theorem registersNothing_writeAll (h : s.unflushed.edits.RegistersNothing)
    (hwrites : ∀ w ∈ writes, w.RegistersNothing) :
    (s.writeAll writes).unflushed.edits.RegistersNothing :=
  writes.foldlRecOn (motive := fun s => s.unflushed.edits.RegistersNothing) write h
    fun _ hbefore _ hw => registersNothing_write hbefore (hwrites _ hw)

/-! ## One step -/

theorem Restored.edits_eq (h : s.Restored members) : s.unflushed.edits = {} :=
  congrArg Unflushed.edits (load_eq_ok_iff.mp h.loads).unflushed

/-- What a step writes keeps the order of the stakers. -/
theorem Takes.keepsOrder (h : s.Takes rewards target paid height step writes)
    (horder : Orderly members) (hshows : s.opened.view.Shows (s.settled members)) :
    (s.settled members).KeepsOrder writes := by
  cases h with
  | claims _ hwrites _ =>
      obtain ⟨x, rest, hclaimed, hrewards, rfl⟩ := Ledger.rewards_of_claimWrites hwrites
      exact Contents.keepsOrder_claim horder (hshows.mem_of_claimedStaker hclaimed) hrewards
  | moves _ _ _ _ _ hplan _ => exact Contents.keepsOrder_plan horder hshows hplan

/-- Once the writes of a step are folded they can be flushed. -/
theorem exists_flush_of_based {book : Book} {c : Contents} (h : s.Based members c)
    (hproper : c.Proper book) (horder : Orderly members) (hafter : Orderly c.stakers)
    (hedits : s.unflushed.edits.RegistersNothing) (height : UInt64) :
    ∃ s', s.flush height = .ok s' := by
  have hdiffs : ∀ phase, (s.registries.get phase).diffs.encodable = true := fun phase =>
    ((h.diffs phase).encodable_iff (hproper.slots phase) (horder.encoded phase)).mpr
      (hafter.encoded phase)
  have hone : ∀ {members : Phase → Set Staker} (phase : Phase),
      members phase ⊆ {t | ∃ phase, t ∈ members phase} := fun phase _ ht => ⟨phase, ht⟩
  refine exists_flush_iff.mpr ⟨?_, ?_⟩
  · exact Bool.and_eq_true_iff.mpr ⟨Bool.and_eq_true_iff.mpr ⟨hdiffs .current, hdiffs .pending⟩,
      hedits.encodable⟩
  · exact (h.diffs .current).exists_historyWrites_of_bearable (hproper.slots .current)
      (horder.bearable.mono (hone .current)) (hafter.bearable.mono (hone .current))
      (horder.encoded .current) height

/-- Writes that keep the order of a restored root are folded and committed, and the store restores
the root after them. -/
theorem Restored.commit (h : s.Restored members) (horder : Orderly members)
    (hkeeps : (s.settled members).KeepsOrder writes) (hnext : s.nextHeight = .ok height) :
    ∃ s' members', (s.folded writes).commit height = .ok s' ∧ s'.Restored members' ∧
      Orderly members' := by
  obtain ⟨⟨book, hrecorded, haccepts⟩, hsucceeds, hnothing⟩ := hkeeps
  have hafter := horder.succeeds hsucceeds
  have hground := based_grounding hrecorded
  have hroot : (Ledger.root s).Contains book (fun s c => s.Based members c)
      (s.settled members) := ⟨proper_settled hrecorded horder.slots, h.based⟩
  -- The writes are made in a fresh layer, which is folded into the root before the commit.
  have hlayer := (hroot.opened hground (.ofWord s.height)).writeAll hground haccepts
    (Contents.accepts_of_forall fun w hw c =>
      Contents.registersNewChain_of_registersNothing (hnothing w hw) c)
    (Ledger.accepts_nothing _ _)
  rw [Ledger.writeAll_layer] at hlayer
  have hfolded := hlayer.fold hground fun below _ _ => Ledger.accepts_nothing below _
  rw [Ledger.fold, Ledger.writeAll_root] at hfolded
  obtain ⟨hproper, hbased⟩ : _ ∧ (s.folded writes).Based members _ := hfolded
  have hedits : (s.folded writes).unflushed.edits.RegistersNothing := by
    refine registersNothing_writeAll ?_ fun w hw => ?_
    · rw [h.edits_eq]
      exact ⟨rfl, rfl⟩
    · exact Changes.registersNothing_of_mem_writes
        (Changes.registersNothing_foldl ⟨rfl, rfl⟩ hnothing) hw
  have hheight : (s.folded writes).nextHeight = .ok height := by
    have hsame : (s.folded writes).height = s.height := s.height_writeAll _
    rw [nextHeight, hsame]
    exact hnext
  obtain ⟨s', hcommit⟩ := exists_commit_iff.mpr
    ⟨hheight, exists_flush_of_based hbased hproper horder hafter hedits height⟩
  obtain ⟨_, hflushed⟩ := flushed_of_flush (flush_of_commit hcommit).1
  exact ⟨s', _, hcommit,
    hbased.restored_of_flushed hrecorded horder.slots hproper hafter.encoded hflushed, hafter⟩

/-- A fresh layer shows the stakers of the root. -/
theorem Restored.shows_opened (h : s.Restored members) (horder : Orderly members) :
    s.opened.view.Shows (s.settled members) := by
  have hroot : (Ledger.root s).Contains ⟨members, horder.injOn⟩ Mirrors (s.settled members) :=
    ⟨proper_settled (fun _ => subset_rfl) horder.slots, h.based.toMirrors⟩
  exact (hroot.opened (mirrors_grounding _) (.ofWord s.height)).shows (mirrors_grounding _)

/-! ## Whole roots -/

/-- The store restores the root, and its stakers are in order. -/
def Whole (s : State) : Prop := ∃ members, s.Restored members ∧ Orderly members

/-- A turn of the loop leaves a whole root, and the same root if it fails. -/
theorem Whole.turn {outcome : Answer (Option Step)} (h : s.Whole)
    (hturns : s.Turns rewards target paid outcome s') :
    s'.Whole ∧ ∀ e, outcome = .error e → s' = s := by
  obtain ⟨members, hrestored, horder⟩ := id h
  have hcommits : ∀ {step : Step} {changes : Changes} {height : UInt64},
      s.planStep rewards target paid = .ok (some (step, changes, height)) →
        ∃ s' members', (s.fold changes).commit height = .ok s' ∧ s'.Restored members' ∧
          Orderly members' := by
    intro step changes height hplan
    obtain ⟨hnext, writes, rfl, htakes⟩ := takes_of_planStep hplan
    exact hrestored.commit horder
      (htakes.keepsOrder horder (hrestored.shows_opened horder)) hnext
  cases hturns with
  | refused => exact ⟨h, fun _ _ => rfl⟩
  | finished => exact ⟨h, nofun⟩
  | folded hplan hrefused =>
      obtain ⟨after, _, hcommit, _⟩ := hcommits hplan
      cases hrefused.symm.trans hcommit
  | committed hplan hcommit =>
      obtain ⟨after, members', hcommit', hafter⟩ := hcommits hplan
      cases hcommit.symm.trans hcommit'
      exact ⟨⟨members', hafter⟩, nofun⟩

/-- A loop that fails has failed at the last root that it visited, and has left it as it was. -/
theorem Loops.left_whole {answer : Answer (List Step)}
    (h : Loops rewards target paid mid answer s') (hmid : mid.Whole)
    (hvisits : Visits rewards target paid s mid) (herror : answer = .error e) :
    s'.Whole ∧ Visits rewards target paid s s' ∧
      (stepTowards rewards target paid).run s' = (.error e, s') := by
  induction h with
  | done => cases herror
  | failed hrun =>
      cases herror
      obtain ⟨hwhole, hsame⟩ := hmid.turn (turns_of_run hrun)
      obtain rfl := hsame _ rfl
      exact ⟨hwhole, hvisits, hrun⟩
  | @next _ _ _ _ answer hrun _ ih =>
      have hfailed : answer = .error e := by
        cases answer with
        | error => exact herror
        | ok => cases herror
      exact ih (hmid.turn (turns_of_run hrun)).1 (hvisits.next hrun) hfailed

/-! ## Roots in order -/

/-- What an operator finds in a root: it is the one that its store loads as, its registries are
coherent, no node is a validator of a supernet twice, and the weights of a slot can be added up. -/
structure InOrder (s : State) : Prop where
  loads : load s.store = .ok s
  coherent : s.Coherent
  vacant : ∀ slot, s.registries.current.validator? slot = none ∨
    s.registries.pending.validator? slot = none
  weights : ∀ slot, slotWeight
    (s.registries.current.all.toList ++ s.registries.pending.all.toList) slot < UInt64.size

/-- A root in order is whole, unless its store hides a record. -/
theorem InOrder.whole (h : s.InOrder) (hshown : s.HidesNoRecord) : s.Whole := by
  obtain ⟨members, hrestored, hslots, hencoded⟩ := restored_of_load h.loads hshown
  have hholds := hrestored.based.registries
  have hcurrent : ∀ t, t ∈ s.registries.current.all.toList ↔ t ∈ members .current :=
    (hholds .current).enumerates_all.mem_iff
  have hpending : ∀ t, t ∈ s.registries.pending.all.toList ↔ t ∈ members .pending :=
    (hholds .pending).enumerates_all.mem_iff
  -- Over both phases together every transaction is listed once.
  have honce := h.coherent.once
  rw [List.map_append, List.nodup_append] at honce
  obtain ⟨honceCurrent, honcePending, hapart⟩ := honce
  refine ⟨members, hrestored, hslots, fun phase x hx y hy heq => ?_, fun x hx y hy heq => ?_,
    fun x hx y hy hxv hyv hslot => ?_, bearable_of_slotWeight (fun t ht => ?_) h.weights, hencoded⟩
  · cases phase with
    | current =>
        exact List.inj_on_of_nodup_map honceCurrent ((hcurrent x).mpr hx) ((hcurrent y).mpr hy) heq
    | pending =>
        exact List.inj_on_of_nodup_map honcePending ((hpending x).mpr hx) ((hpending y).mpr hy) heq
  · exact hapart _ (List.mem_map_of_mem ((hcurrent x).mpr hx)) _
      (List.mem_map_of_mem ((hpending y).mpr hy)) heq.symm
  · have hx' : s.registries.current.validator? x.slot = some x :=
      ((hholds .current).validator _).trans ((occupant_eq_some_iff (hslots .current)).mpr ⟨hx, hxv, rfl⟩)
    have hy' : s.registries.pending.validator? x.slot = some y :=
      ((hholds .pending).validator _).trans
        ((occupant_eq_some_iff (hslots .pending)).mpr ⟨hy, hyv, hslot.symm⟩)
    rcases h.vacant x.slot with hnone | hnone
    · cases hnone.symm.trans hx'
    · cases hnone.symm.trans hy'
  · obtain ⟨phase, ht⟩ := ht
    cases phase with
    | current => exact List.mem_append_left _ ((hcurrent t).mpr ht)
    | pending => exact List.mem_append_right _ ((hpending t).mpr ht)

/-! ## Runs of the operator -/

/-- The root as a failed run leaves it: nothing is uncommitted, it is the root after the last step
that was committed, and the store loads as just this root. -/
structure LeftOff (rewards : RewardPolicy) (target : UInt64) (paid : Bool) (s : State)
    (e : LedgerError) (s' : State) : Prop where
  clean : s'.hasUncommittedChanges = false
  stopped : target < s.timestamp ∧ s' = s ∨ Visits rewards target paid s s' ∧
    (stepTowards rewards target paid).run s' = (.error e, s')
  loads : load s'.store = .ok s'

/-- From a root in order, of whose store no record is hidden, a run of the operator that fails
leaves no step half done, whatever the target and the rewards. -/
theorem advanceTo_leaves_whole (h : s.InOrder) (hshown : s.HidesNoRecord)
    (hfails : (advanceTo rewards target paid).run s = (.error e, s')) :
    LeftOff rewards target paid s e s' := by
  have hwhole := h.whole hshown
  rcases UInt64.lt_or_le target s.timestamp with hbehind | hreachable
  · rw [run_advanceTo_of_behind hbehind] at hfails
    cases hfails
    exact ⟨clean_of_load h.loads, Or.inl ⟨hbehind, rfl⟩, h.loads⟩
  · have hloops := loops_advanceTo rewards paid ⟨h.coherent.listsOnce, hreachable⟩
    rw [hfails] at hloops
    obtain ⟨⟨_, hrestored, _⟩, hvisits, hstopped⟩ := hloops.left_whole hwhole .start rfl
    exact ⟨clean_of_load hrestored.loads, Or.inr ⟨hvisits, hstopped⟩, hrestored.loads⟩

/-! ## A pool that overflows, and a record that is hidden -/

/-- A loaded root with few stakers is in order. -/
theorem InOrder.of_lists (hload : load s.store = .ok s)
    (honce : ((s.registries.current.all.toList ++ s.registries.pending.all.toList).map
      Staker.txId).Nodup)
    (hvacant : ∀ x ∈ s.registries.current.all.toList, ∀ y ∈ s.registries.pending.all.toList,
      x.slot ≠ y.slot)
    (htotal : ((s.registries.current.all.toList ++ s.registries.pending.all.toList).map
      fun t => t.weight.toNat).sum < UInt64.size) : s.InOrder := by
  have hregistries := fun phase =>
    holds_of_loadRegistry ((load_eq_ok_iff.mp hload).registries phase)
  choose members hholds hslots _ using hregistries
  have hmem : ∀ phase slot x, (s.registries.get phase).validator? slot = some x →
      x ∈ (s.registries.get phase).all.toList ∧ x.slot = slot := by
    intro phase slot x hx
    rw [(hholds phase).validator] at hx
    obtain ⟨hx, _, hslot⟩ := spec_of_occupant hx
    exact ⟨((hholds phase).enumerates_all.mem_iff x).mpr hx, hslot⟩
  refine ⟨hload, ⟨fun phase => (hholds phase).coherent (hslots phase), honce⟩, fun slot => ?_,
    fun slot => Nat.lt_of_le_of_lt (slotWeight_le _ slot) htotal⟩
  cases hcurrent : s.registries.current.validator? slot with
  | none => exact Or.inl rfl
  | some x =>
      cases hpending : s.registries.pending.validator? slot with
      | none => exact Or.inr rfl
      | some y =>
          obtain ⟨hx, hxslot⟩ := hmem .current slot x hcurrent
          obtain ⟨hy, hyslot⟩ := hmem .pending slot y hpending
          exact absurd (hxslot.trans hyslot.symm) (hvacant x hx y hy)

/-- The sample network with a pool that cannot take anything back. -/
def brimming : State :=
  match fromGenesis {} .sample .sample with
  | .ok s =>
    match (s.write (.setRewardPool .primaryNetwork (.ofNat (UInt64.size - 1)))).commit 1 with
    | .ok s => s
    | .error _ => default
  | .error _ => default

/-- The one validator ends at 100000, and its reward finds no room in the pool. The step to 100000
stays committed. -/
theorem advanceTo_leaves_whole_brimming : ∃ e s', brimming.InOrder ∧ brimming.HidesNoRecord ∧
    (advanceTo (configuredRewards StakingConfig.sample.reward) 200000 false).run brimming =
      (.error e, s') ∧ s'.timestamp = 100000 ∧
      LeftOff (configuredRewards StakingConfig.sample.reward) 200000 false brimming e s' := by
  have horder : brimming.InOrder := .of_lists (by decide +kernel) (by decide +kernel)
    (by decide +kernel) (by decide +kernel)
  have hshown : brimming.HidesNoRecord := by
    intro phase
    cases phase <;> decide +kernel
  have hfails : ((advanceTo (configuredRewards StakingConfig.sample.reward) 200000 false).run
      brimming).1 = .error (.overflow (.sum "reward pool" 18446744073709551615 729282407)) := by
    decide +kernel
  have htime : ((advanceTo (configuredRewards StakingConfig.sample.reward) 200000 false).run
      brimming).2.timestamp = 100000 := by
    decide +kernel
  rcases hrun : (advanceTo (configuredRewards StakingConfig.sample.reward) 200000 false).run
    brimming with ⟨answer, s'⟩
  rw [hrun] at hfails htime
  obtain rfl : answer = _ := hfails
  exact ⟨_, s', horder, hshown, rfl, htime, advanceTo_leaves_whole horder hshown hrun⟩

/-- A permissioned validator of a supernet of its own. -/
def guest (word weight endTime : UInt64) : Staker where
  txId := .ofWord word
  nodeId := .zero 20
  publicKey := none
  supernetId := .ofWord 9
  weight := weight
  startTime := 5
  endTime := endTime
  potentialReward := 0
  nextTime := endTime
  priority := .current .permissionedValidator

/-- A validator that waits on a supernet without a reward pool. -/
def stranded : Staker where
  txId := .ofWord 4
  nodeId := .zero 20
  publicKey := none
  supernetId := .ofWord 8
  weight := 10
  startTime := 150
  endTime := 400
  potentialReward := 0
  nextTime := 150
  priority := .pending .permissionlessValidator

/-- The store of the sample network with two validators of one slot and a stranded one. -/
def veiledStore : Store :=
  match fromGenesis {} .sample .sample with
  | .ok s => s.store.write
    ⟨[stakerEntry .currentStaker (guest 2 10 300), stakerEntry .currentStaker (guest 3 20 100),
      stakerEntry .pendingStaker stranded], []⟩
  | .error _ => default

/-- The root that this store loads as: of the two validators the later one stands in the slot. -/
def veiled : State :=
  match load veiledStore with
  | .ok s => s
  | .error _ => default

/-- If one of two stored validators of a slot is hidden, a run that fails may uncover it: the step
that retires the other is committed, and then the store loads as a root with another view, in which
the hidden validator is back in its slot. -/
theorem advanceTo_uncovers : ¬ ∀ (rewards : RewardPolicy) (target : UInt64) (paid : Bool)
    (s s' : State) (e : LedgerError), s.InOrder →
      (advanceTo rewards target paid).run s = (.error e, s') →
        ∃ loaded, load s'.store = .ok loaded ∧
          (Ledger.root loaded).view = (Ledger.root s').view := by
  intro h
  have horder : veiled.InOrder := .of_lists (by decide +kernel) (by decide +kernel)
    (by decide +kernel) (by decide +kernel)
  have hfails : ((advanceTo (configuredRewards StakingConfig.sample.reward) 200 false).run
      veiled).1 = .error (.notFound (.rewardPool (.ofWord 8))) := by
    decide +kernel
  have hvacant : ((advanceTo (configuredRewards StakingConfig.sample.reward) 200 false).run
      veiled).2.registries.current.validator? (guest 2 10 300).slot = none := by
    decide +kernel
  have hback : (load ((advanceTo (configuredRewards StakingConfig.sample.reward) 200 false).run
      veiled).2.store).map (fun loaded =>
        loaded.registries.current.validator? (guest 2 10 300).slot) =
      .ok (some (guest 2 10 300)) := by
    decide +kernel
  rcases hrun : (advanceTo (configuredRewards StakingConfig.sample.reward) 200 false).run veiled
    with ⟨answer, s'⟩
  rw [hrun] at hfails hvacant hback
  obtain rfl : answer = _ := hfails
  obtain ⟨loaded, hload, hview⟩ := h _ _ _ _ _ _ horder hrun
  rw [hload] at hback
  have hread : loaded.registries.current.validator? (guest 2 10 300).slot =
      s'.registries.current.validator? (guest 2 10 300).slot :=
    Except.ok.inj (congrFun (congrFun (congrArg View.validator hview) .current) _)
  cases (Except.ok.inj hback).symm.trans (hread.trans hvacant)

end State

end StakingLedger
