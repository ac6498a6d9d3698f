import StakingLedger.Proofs.Ledger.Arising
import StakingLedger.Proofs.Lifecycle.PeakValue
import StakingLedger.Proofs.Operation.Script

/-! # What counts towards the weight of a validator

The greatest weight over a window is never too small: it is at least what the
validator carries at each moment. It may be too large by those who end at the
moment at which another delegation starts. Delegations that are over when the
window begins do not count, save those that end just then while another one starts.
-/

namespace StakingLedger

namespace Ledger

variable {l : Ledger} {validator : Staker} {start finish m : UInt64} {current pending : StakerSeq}

/-! ## One delegation begins when another one ends -/

/-- A delegation to the validator of the genesis. -/
def handoverTx (word weight startTime endTime : UInt64) : StakerTx :=
  { soloTx with
    txId := .ofWord word, kind := .primaryDelegator, weight := weight, startTime := startTime
    endTime := endTime }

/-- It serves until 200. -/
def retiring : Staker := (pendingStaker (handoverTx 2 100 5 200)).promoted 1

/-- It waits until 200. -/
def succeeding : Staker := pendingStaker (handoverTx 3 50 200 300)

/-- A validator with a delegation that ends when another one starts. -/
def handover : Ledger :=
  (root .solo).writeAll [.putDelegator .current retiring, .putDelegator .pending succeeding]

theorem arises_handover : handover.Arises :=
  ((Arises.founded State.fromGenesis_solo).written _).written _

theorem delegators_handover :
    (∃ current, handover.delegators .current retiring.slot = .ok current ∧
        current.toList = [retiring]) ∧
      ∃ pending, handover.delegators .pending retiring.slot = .ok pending ∧
        pending.toList = [succeeding] := by
  decide +kernel

theorem wellTimed_handover : WellTimed [retiring] [succeeding] := by
  refine .of_made (by decide +kernel) (fun s hs => ?_) fun s hs => ?_
  · have hmade : Staker.newPending (handoverTx 2 100 5 200) =
        .ok (pendingStaker (handoverTx 2 100 5 200)) := rfl
    exact ⟨_, _, 1, hmade, List.mem_singleton.mp hs⟩
  · have hmade : Staker.newPending (handoverTx 3 50 200 300) = .ok succeeding := rfl
    exact ⟨_, List.mem_singleton.mp hs ▸ hmade⟩

/-! ## The greatest weight -/

theorem addWeights_error {own : UInt64} {stakers : List Staker} {e : LedgerError}
    (h : addWeights own stakers = .error e) :
    (UInt64.size : Int) ≤ own.toNat + totalWeight stakers ∧ ∃ what, e = .overflow what := by
  constructor
  · by_contra hfits
    obtain ⟨sum, hsum, _⟩ := addWeights_eq_ok (Int.not_le.mp hfits)
    rw [h] at hsum
    cases hsum
  · induction stakers generalizing own with
    | nil => cases h
    | cons s rest ih =>
        change (checkedAdd own s.weight "validator weight" >>= fun next => addWeights next rest) = _
          at h
        cases hadd : checkedAdd own s.weight "validator weight" with
        | ok next =>
            rw [hadd] at h
            exact ih h
        | error e' =>
            obtain ⟨_, rfl⟩ := checkedAdd_eq_error_iff.mp hadd
            rw [hadd] at h
            cases h
            exact ⟨_, rfl⟩

/-- The greatest weight over a window is that of the peaks, once the current delegators have been
added up. -/
theorem peaks_maxValidatorWeight (h : l.Filed)
    (hcurrent : l.delegators .current validator.slot = .ok current)
    (hpending : l.delegators .pending validator.slot = .ok pending)
    (htimed : WellTimed current.toList pending.toList) (hwindow : start ≤ finish) :
    ((UInt64.size : Int) ≤ validator.weight.toNat + totalWeight current.toList ∧
        ∃ what, l.maxValidatorWeight validator start finish = .error (.overflow what)) ∨
      (validator.weight.toNat + totalWeight current.toList < (UInt64.size : Int) ∧
        Peaks validator.weight.toNat start finish none current.toList pending.toList
          (l.maxValidatorWeight validator start finish)) := by
  unfold maxValidatorWeight
  rw [hcurrent, bind_ok]
  cases hweight : addWeights validator.weight current.toList with
  | error e =>
      obtain ⟨hlarge, what, rfl⟩ := addWeights_error hweight
      exact Or.inl ⟨hlarge, what, rfl⟩
  | ok weight =>
      have hsum := addWeights_eq hweight
      have hword := weight.toNat_lt_size
      have hranked := htimed.ranked (h.delegators_sorted hcurrent).1 (h.delegators_sorted hpending).1
      have hevents := hranked.foretells
      rw [show (OrderedMap.empty : StakerTree).values = [] from rfl, List.append_nil] at hevents
      rw [bind_ok, hpending, bind_ok]
      exact Or.inr ⟨by omega, peaks_peakWeight hevents hranked.ordered
        (fun p hp => (htimed.starts p hp).2.2) hwindow (Int.natCast_nonneg _) hsum
        fun _ hq => nomatch hq⟩

theorem delegators_of_maxValidatorWeight (h : l.maxValidatorWeight validator start finish = .ok m) :
    ∃ current pending, l.delegators .current validator.slot = .ok current ∧
      l.delegators .pending validator.slot = .ok pending := by
  obtain ⟨current, hcurrent, h⟩ := bind_eq_ok_iff.mp h
  obtain ⟨_, _, h⟩ := bind_eq_ok_iff.mp h
  obtain ⟨pending, hpending, _⟩ := bind_eq_ok_iff.mp h
  exact ⟨current, pending, hcurrent, hpending⟩

/-- Beside an unreachable parent, only a weight that is no word stands in the way. -/
theorem maxValidatorWeight_error {e : LedgerError} (h : l.Filed)
    (htimed : ∀ current pending, l.delegators .current validator.slot = .ok current →
      l.delegators .pending validator.slot = .ok pending →
      WellTimed current.toList pending.toList) (hwindow : start ≤ finish)
    (he : l.maxValidatorWeight validator start finish = .error e) :
    (∃ id, e = .missingParent id) ∨ ∃ what, e = .overflow what := by
  cases hcurrent : l.delegators .current validator.slot with
  | error e' =>
      obtain ⟨id, rfl⟩ := delegators_eq_error hcurrent
      rw [maxValidatorWeight, hcurrent] at he
      cases he
      exact Or.inl ⟨id, rfl⟩
  | ok current =>
      cases hpending : l.delegators .pending validator.slot with
      | error e' =>
          obtain ⟨id, rfl⟩ := delegators_eq_error hpending
          rw [maxValidatorWeight, hcurrent, bind_ok, hpending] at he
          cases hweight : addWeights validator.weight current.toList with
          | error e'' =>
              obtain ⟨_, what, rfl⟩ := addWeights_error hweight
              rw [hweight] at he
              cases he
              exact Or.inr ⟨what, rfl⟩
          | ok weight =>
              rw [hweight] at he
              cases he
              exact Or.inl ⟨id, rfl⟩
      | ok pending =>
          rcases peaks_maxValidatorWeight h hcurrent hpending
            (htimed current pending hcurrent hpending) hwindow with ⟨_, what, herror⟩ | ⟨_, hpeaks⟩
          · rw [he] at herror
            cases herror
            exact Or.inr ⟨what, rfl⟩
          · rw [he] at hpeaks
            cases hpeaks
            exact Or.inr ⟨_, rfl⟩

theorem maxValidatorWeight_ok (h : l.Filed)
    (hcurrent : l.delegators .current validator.slot = .ok current)
    (hpending : l.delegators .pending validator.slot = .ok pending)
    (htimed : WellTimed current.toList pending.toList) (hwindow : start ≤ finish)
    (hm : l.maxValidatorWeight validator start finish = .ok m) :
    IsGreatest (heights validator.weight.toNat start finish none current.toList pending.toList)
        m.toNat ∧
      Fits validator.weight.toNat finish current.toList pending.toList ∧
      validator.weight.toNat + totalWeight current.toList < (UInt64.size : Int) := by
  rcases peaks_maxValidatorWeight h hcurrent hpending htimed hwindow with
    ⟨_, _, herror⟩ | ⟨hsum, hpeaks⟩
  · rw [hm] at herror
    cases herror
  · rw [hm] at hpeaks
    cases hpeaks with
    | ok hgreatest hfits => exact ⟨hgreatest, hfits, hsum⟩

/-- On any ledger, the greatest weight over a window never falls below zero on the way. It is at
least what the validator carries at each moment of the window, and at most what it carries at some
moment together with those who end just then. -/
theorem maxValidatorWeight_bounds (hl : l.Arises) (validator : Staker) (hwindow : start ≤ finish)
    (htimed : ∀ current pending, l.delegators .current validator.slot = .ok current →
      l.delegators .pending validator.slot = .ok pending →
      WellTimed current.toList pending.toList) :
    (∀ what, l.maxValidatorWeight validator start finish ≠ .error (.underflow what)) ∧
      ∀ m, l.maxValidatorWeight validator start finish = .ok m →
        ∃ current pending, l.delegators .current validator.slot = .ok current ∧
          l.delegators .pending validator.slot = .ok pending ∧
          (∀ time, start ≤ time → time ≤ finish →
            validator.weight.toNat + loadAt time current.toList pending.toList ≤ m.toNat) ∧
          ∃ time, start ≤ time ∧ time ≤ finish ∧
            m.toNat ≤ validator.weight.toNat + loadThrough time current.toList pending.toList := by
  have hfiled := hl.filed
  constructor
  · intro what hunder
    rcases maxValidatorWeight_error hfiled htimed hwindow hunder with ⟨_, he⟩ | ⟨_, he⟩ <;> cases he
  · intro m hm
    obtain ⟨current, pending, hcurrent, hpending⟩ := delegators_of_maxValidatorWeight hm
    have hwell := htimed current pending hcurrent hpending
    have hranked := hwell.ranked (hfiled.delegators_sorted hcurrent).1
      (hfiled.delegators_sorted hpending).1
    refine ⟨current, pending, hcurrent, hpending, fun time hstart hfinish =>
      load_le_maxValidatorWeight hcurrent hpending hranked.toUpcoming hm hstart hfinish, ?_⟩
    rcases (maxValidatorWeight_ok hfiled hcurrent hpending hwell hwindow hm).1.1 with
      hbegin | ⟨p, _, hstart, hfinish, heq⟩
    · refine ⟨start, UInt64.le_refl _, hwindow, ?_⟩
      rw [hbegin]
      exact Int.add_le_add_left (loadAt_le_loadThrough (UInt64.le_refl _)
        (fun r _ hr => UInt64.le_of_lt hr) fun p _ _ hp => UInt64.le_of_lt hp) _
    · exact ⟨p.startTime, hstart, hfinish, Int.le_of_eq heq⟩

theorem maxValidatorWeight_bounds_handover :
    handover.Arises ∧ (200 : UInt64) ≤ 300 ∧
      handover.maxValidatorWeight (currentStaker soloTx 1) 200 300 = .ok 2150 ∧
      ∃ current pending, handover.delegators .current retiring.slot = .ok current ∧
        handover.delegators .pending retiring.slot = .ok pending ∧
        (∀ time, 200 ≤ time → time ≤ 300 →
          2000 + loadAt time current.toList pending.toList ≤ 2150) ∧
        ∃ time, 200 ≤ time ∧ time ≤ (300 : UInt64) ∧
          2150 ≤ 2000 + loadThrough time current.toList pending.toList := by
  obtain ⟨⟨current, hcurrent, hlist⟩, pending, hpending, hlist'⟩ := delegators_handover
  have hm : handover.maxValidatorWeight (currentStaker soloTx 1) 200 300 = .ok 2150 := by
    decide +kernel
  have hbounds := (maxValidatorWeight_bounds arises_handover (currentStaker soloTx 1)
    (by decide : (200 : UInt64) ≤ 300) fun read read' hread hread' => ?_).2 _ hm
  · exact ⟨arises_handover, by decide, hm, hbounds⟩
  · cases hcurrent.symm.trans hread
    cases hpending.symm.trans hread'
    rw [hlist, hlist']
    exact wellTimed_handover

/-! ## Delegations that are over -/

/-- Deletes the delegators for which the condition holds. -/
def dismissals (ended : Staker → Bool) (current pending : List Staker) : List Write :=
  (current.filter ended).map (.deleteDelegator .current) ++
    (pending.filter ended).map (.deleteDelegator .pending)

/-- What is left of the delegators of a slot when some of them are deleted. -/
theorem delegators_dismissals {slot : Slot} (h : l.Filed)
    (hcurrent : l.delegators .current slot = .ok current)
    (hpending : l.delegators .pending slot = .ok pending)
    (htimed : WellTimed current.toList pending.toList) (ended : Staker → Bool) :
    ∃ current' pending',
      (l.writeAll (dismissals ended current.toList pending.toList)).delegators .current slot =
          .ok current' ∧
        (l.writeAll (dismissals ended current.toList pending.toList)).delegators .pending slot =
          .ok pending' ∧
        current'.toList = current.toList.filter (fun s => !ended s) ∧
        pending'.toList = pending.toList.filter fun s => !ended s := by
  have hrest : ∀ stakers : List Staker,
      stakers.filter (fun t => t ∉ stakers.filter ended) = stakers.filter fun t => !ended t := by
    refine fun stakers => List.filter_congr fun t ht => ?_
    simp [ht]
  obtain ⟨current', hleft, hlist⟩ := h.delegators_deleteAll hcurrent htimed.unique_current
    (htimed.unique_current.of_map.filter ended) (List.filter_subset_self _)
  have hsame := (Filed.delegators_writeAll_ne (by decide : Phase.pending ≠ .current) l
    (current.toList.filter ended) slot).trans hpending
  obtain ⟨pending', hleft', hlist'⟩ := (h.writeAll _).delegators_deleteAll hsame
    htimed.unique_pending (htimed.unique_pending.of_map.filter ended) (List.filter_subset_self _)
  refine ⟨current', pending', ?_, ?_, hlist.trans (hrest _), hlist'.trans (hrest _)⟩
  · rw [dismissals, writeAll, List.foldl_append]
    exact (Filed.delegators_writeAll_ne (by decide) _ _ slot).trans hleft
  · rw [dismissals, writeAll, List.foldl_append]
    exact hleft'

/-- Those for whom a condition fails can be taken out before the others are picked. -/
theorem filter_filter_of_over {stakers : List Staker} {ended p : Staker → Bool}
    (h : ∀ s ∈ stakers, ended s = true → p s = false) :
    (stakers.filter fun s => !ended s).filter p = stakers.filter p := by
  rw [List.filter_filter]
  refine List.filter_congr fun s hs => ?_
  cases hended : ended s with
  | false => simp
  | true => simp [h s hs hended]

section Over

variable {ended : Staker → Bool} {running waiting : List Staker} {time : UInt64} {base : Int}

theorem loadAt_over (hended : ∀ s, ended s = true → s.endTime ≤ time) :
    loadAt time (running.filter fun s => !ended s) (waiting.filter fun s => !ended s) =
      loadAt time running waiting := by
  rw [loadAt, loadAt, filter_filter_of_over fun s _ h => ?_, filter_filter_of_over fun s _ h => ?_]
  · exact decide_eq_false fun hin => UInt64.not_lt.mpr (hended s h) hin.2
  · exact decide_eq_false (UInt64.not_lt.mpr (hended s h))

theorem loadThrough_over (hended : ∀ s, ended s = true → s.endTime < time) :
    loadThrough time (running.filter fun s => !ended s) (waiting.filter fun s => !ended s) =
      loadThrough time running waiting := by
  rw [loadThrough, loadThrough, filter_filter_of_over fun s _ h => ?_,
    filter_filter_of_over fun s _ h => ?_]
  · exact decide_eq_false fun hin => UInt64.not_le.mpr (hended s h) hin.2
  · exact decide_eq_false (UInt64.not_le.mpr (hended s h))

theorem loadThrough_filter_le (p : Staker → Bool) :
    loadThrough time (running.filter p) (waiting.filter p) ≤ loadThrough time running waiting :=
  Int.add_le_add (totalWeight_sublist (List.filter_sublist.filter _))
    (totalWeight_sublist (List.filter_sublist.filter _))

theorem heights_over (hwaits : ∀ p ∈ waiting, p.startTime < p.endTime)
    (hended : ∀ s, ended s = true → s.endTime ≤ start)
    (hidle : ∀ p ∈ waiting, p.startTime = start → ∀ s, ended s = true → s.endTime < start) :
    heights base start finish none (running.filter fun s => !ended s)
        (waiting.filter fun s => !ended s) =
      heights base start finish none running waiting := by
  have hload : ∀ p ∈ waiting, start ≤ p.startTime →
      loadThrough p.startTime (running.filter fun s => !ended s) (waiting.filter fun s => !ended s) =
        loadThrough p.startTime running waiting := by
    refine fun p hp hstart => loadThrough_over fun s hs => ?_
    rcases UInt64.lt_or_eq_of_le hstart with hlt | heq
    · exact UInt64.lt_of_le_of_lt (hended s hs) hlt
    · exact heq ▸ hidle p hp heq.symm s hs
  rw [heights, heights, loadAt_over hended]
  refine congrArg _ (Set.ext fun w => exists_congr fun p => ?_)
  constructor
  · rintro ⟨hp, hstart, hfinish, rfl⟩
    have hp := List.mem_of_mem_filter hp
    exact ⟨hp, hstart, hfinish, by rw [hload p hp hstart]⟩
  · rintro ⟨hp, hstart, hfinish, rfl⟩
    -- Whoever starts in the window is not over when it begins.
    have hkept : (!ended p) = true := by
      rw [Bool.not_eq_true', ← Bool.not_eq_true]
      exact fun hended' => UInt64.not_lt.mpr (UInt64.le_trans (hended p hended') hstart) (hwaits p hp)
    exact ⟨List.mem_filter.mpr ⟨hp, hkept⟩, hstart, hfinish, by rw [hload p hp hstart]⟩

end Over

/-- Deleting delegations that are over before the window begins, or that end just as it begins while
nobody starts, leaves the greatest weight as it is. -/
theorem maxValidatorWeight_dismissals (h : l.Filed)
    (hcurrent : l.delegators .current validator.slot = .ok current)
    (hpending : l.delegators .pending validator.slot = .ok pending)
    (htimed : WellTimed current.toList pending.toList) (hwindow : start ≤ finish)
    (hm : l.maxValidatorWeight validator start finish = .ok m) {ended : Staker → Bool}
    (hended : ∀ s, ended s = true → s.endTime ≤ start)
    (hidle : ∀ p ∈ pending.toList, p.startTime = start → ∀ s, ended s = true → s.endTime < start) :
    (l.writeAll (dismissals ended current.toList pending.toList)).maxValidatorWeight validator start
      finish = .ok m := by
  obtain ⟨hgreatest, hfits, hsum⟩ :=
    maxValidatorWeight_ok h hcurrent hpending htimed hwindow hm
  obtain ⟨current', pending', hcurrent', hpending', hlist, hlist'⟩ :=
    delegators_dismissals h hcurrent hpending htimed ended
  have htimed' : WellTimed current'.toList pending'.toList := by
    rw [hlist, hlist']
    exact htimed.filter _
  have hless : totalWeight current'.toList ≤ totalWeight current.toList := by
    rw [hlist]
    exact totalWeight_filter_le _ _
  rcases peaks_maxValidatorWeight (h.writeAll _) hcurrent' hpending' htimed' hwindow with
    ⟨hlarge, _⟩ | ⟨_, hpeaks⟩
  · omega
  · rw [hlist, hlist'] at hpeaks
    revert hpeaks
    generalize (l.writeAll _).maxValidatorWeight validator start finish = answer
    intro hpeaks
    cases hpeaks with
    | ok hgreatest' _ =>
        rw [heights_over (fun p hp => (htimed.starts p hp).2.2) hended hidle] at hgreatest'
        have heq := Int.ofNat.inj (hgreatest'.unique hgreatest)
        rw [UInt64.toNat_inj.mp heq]
    | overflow hlarge =>
        refine absurd (fun p hp hin => ?_) hlarge
        exact Int.lt_of_le_of_lt (Int.add_le_add_left (loadThrough_filter_le _) _)
          (hfits p (List.mem_of_mem_filter hp) hin)

/-- On any ledger, the greatest weight over a window is the same without the delegations that are
over before it begins, and, unless a pending delegation starts as the window begins, without those
that end just then. -/
theorem maxValidatorWeight_without_over (hl : l.Arises)
    (hcurrent : l.delegators .current validator.slot = .ok current)
    (hpending : l.delegators .pending validator.slot = .ok pending)
    (htimed : WellTimed current.toList pending.toList) (hwindow : start ≤ finish)
    (hm : l.maxValidatorWeight validator start finish = .ok m) :
    (l.writeAll (dismissals (·.endTime < start) current.toList pending.toList)).maxValidatorWeight
        validator start finish = .ok m ∧
      ((∀ p ∈ pending.toList, p.startTime ≠ start) →
        (l.writeAll (dismissals (·.endTime ≤ start) current.toList
          pending.toList)).maxValidatorWeight validator start finish = .ok m) := by
  have hfiled := hl.filed
  refine ⟨maxValidatorWeight_dismissals hfiled hcurrent hpending htimed hwindow hm
    (fun s hs => UInt64.le_of_lt (of_decide_eq_true hs)) fun _ _ _ s hs => of_decide_eq_true hs,
    fun hidle => ?_⟩
  exact maxValidatorWeight_dismissals hfiled hcurrent hpending htimed hwindow hm
    (fun s hs => of_decide_eq_true hs) fun p hp heq => absurd heq (hidle p hp)

theorem maxValidatorWeight_without_over_handover :
    handover.Arises ∧ WellTimed [retiring] [succeeding] ∧ (300 : UInt64) ≤ 400 ∧
      handover.maxValidatorWeight (currentStaker soloTx 1) 300 400 = .ok 2000 ∧
      (handover.writeAll (dismissals (·.endTime < 300) [retiring] [succeeding])).maxValidatorWeight
        (currentStaker soloTx 1) 300 400 = .ok 2000 ∧
      (∀ p ∈ [succeeding], p.startTime ≠ 300) ∧
      (handover.writeAll (dismissals (·.endTime ≤ 300) [retiring] [succeeding])).maxValidatorWeight
        (currentStaker soloTx 1) 300 400 = .ok 2000 := by
  obtain ⟨⟨current, hcurrent, hlist⟩, pending, hpending, hlist'⟩ := delegators_handover
  have hm : handover.maxValidatorWeight (currentStaker soloTx 1) 300 400 = .ok 2000 := by
    decide +kernel
  have hidle : ∀ p ∈ [succeeding], p.startTime ≠ 300 := by decide
  have hhost : retiring.slot = (currentStaker soloTx 1).slot := rfl
  rw [hhost] at hcurrent hpending
  obtain ⟨hbefore, hjust⟩ := maxValidatorWeight_without_over arises_handover hcurrent hpending
    (hlist ▸ hlist' ▸ wellTimed_handover) (by decide) hm
  rw [hlist, hlist'] at hbefore hjust
  exact ⟨arises_handover, wellTimed_handover, by decide, hm, hbefore, hidle, hjust hidle⟩

/-- A delegation that ends as the window begins counts where another one starts just then. -/
theorem ended_delegation_counts :
    handover.Arises ∧
      (∃ current pending, handover.delegators .current retiring.slot = .ok current ∧
        handover.delegators .pending retiring.slot = .ok pending ∧
        current.toList = [retiring] ∧ pending.toList = [succeeding]) ∧
      Staker.newPending (handoverTx 2 100 5 200) = .ok (pendingStaker (handoverTx 2 100 5 200)) ∧
      Staker.newPending (handoverTx 3 50 200 300) = .ok succeeding ∧
      handover.maxValidatorWeight (currentStaker soloTx 1) 200 300 = .ok 2150 ∧
      (handover.writeAll (dismissals (·.endTime ≤ 200) [retiring] [succeeding])).maxValidatorWeight
        (currentStaker soloTx 1) 200 300 = .ok 2050 := by
  obtain ⟨⟨current, hcurrent, hlist⟩, pending, hpending, hlist'⟩ := delegators_handover
  exact ⟨arises_handover, ⟨current, pending, hcurrent, hpending, hlist, hlist'⟩, rfl, rfl,
    by decide +kernel, by decide +kernel⟩

end Ledger

end StakingLedger
