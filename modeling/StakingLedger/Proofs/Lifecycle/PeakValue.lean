import Mathlib.Order.Bounds.Basic
import StakingLedger.Proofs.Lifecycle.PeakWeight
import StakingLedger.Proofs.Staker.TimelineTies
import StakingLedger.Proofs.ValidatorSet.Current

/-! # The value of the peak

At one time the starts come before the ends. So the peak over a window is the
greatest of what a validator carries as the window begins and, for each pending
delegation that starts within the window, of what it carries at that start
together with those who end just then. Nothing is ever taken off that was not
added before, and a sum that leaves the range is one of these.
-/

namespace StakingLedger.Ledger

variable {start finish weight more time : UInt64} {peak : Option UInt64} {s : Staker}
  {running running' pending : List Staker} {events rest : List StakerEvent} {base w : Int}
  {answer : Answer UInt64}

/-! ## Those who end just then -/

/-- What running and pending stakers weigh at a time, with those who end at that time. -/
def loadThrough (time : UInt64) (running pending : List Staker) : Int :=
  totalWeight (running.filter fun s => time ≤ s.endTime) +
    totalWeight (pending.filter fun s => s.startTime ≤ time ∧ time ≤ s.endTime)

theorem totalWeight_filter_mono {stakers : List Staker} {p q : Staker → Bool}
    (h : ∀ s ∈ stakers, p s = true → q s = true) :
    totalWeight (stakers.filter p) ≤ totalWeight (stakers.filter q) := by
  have hsame : stakers.filter p = (stakers.filter q).filter p := by
    rw [List.filter_filter]
    refine List.filter_congr fun s hs => ?_
    cases hp : p s with
    | false => rfl
    | true => rw [h s hs hp]; rfl
  rw [hsame]
  exact totalWeight_filter_le _ _

/-- What is carried at a time is part of what is carried at a later start, if nobody ends in
between. -/
theorem loadAt_le_loadThrough {later : UInt64} (hlater : time ≤ later)
    (hrunning : ∀ r ∈ running, time < r.endTime → later ≤ r.endTime)
    (hpending : ∀ p ∈ pending, p.startTime ≤ time → time < p.endTime → later ≤ p.endTime) :
    loadAt time running pending ≤ loadThrough later running pending := by
  refine Int.add_le_add (totalWeight_filter_mono fun r hr h => ?_)
    (totalWeight_filter_mono fun p hp h => ?_)
  · rw [decide_eq_true_iff] at h ⊢
    exact hrunning r hr h
  · rw [decide_eq_true_iff] at h ⊢
    exact ⟨UInt64.le_trans h.1 hlater, hpending p hp h.1 h.2⟩

theorem loadThrough_ended (hrunning : running.Perm (s :: running')) (hover : s.endTime < time) :
    loadThrough time running pending = loadThrough time running' pending := by
  have hperm := totalWeight_perm (hrunning.filter fun s => decide (time ≤ s.endTime))
  rw [List.filter_cons_of_neg (by simpa using hover)] at hperm
  rw [loadThrough, loadThrough, hperm]

/-- A staker that has started counts as running. -/
theorem loadThrough_started (hrunning : running'.Perm (s :: running)) (hstarted : s.startTime ≤ time) :
    loadThrough time running (s :: pending) = loadThrough time running' pending := by
  have hperm := totalWeight_perm (hrunning.filter fun s => decide (time ≤ s.endTime))
  rw [loadThrough, loadThrough, hperm, List.filter_cons, List.filter_cons]
  by_cases hends : time ≤ s.endTime
  · rw [if_pos (decide_eq_true ⟨hstarted, hends⟩), if_pos (decide_eq_true hends), totalWeight_cons,
      totalWeight_cons]
    omega
  · rw [if_neg (by simp [hends]), if_neg (by simp [hends])]

theorem loadAt_started_eq (hrunning : running'.Perm (s :: running)) (hstarted : s.startTime ≤ time) :
    loadAt time running (s :: pending) = loadAt time running' pending := by
  have hperm := totalWeight_perm (hrunning.filter fun s => decide (time < s.endTime))
  rw [loadAt, loadAt, hperm, List.filter_cons, List.filter_cons]
  by_cases hends : time < s.endTime
  · rw [if_pos (decide_eq_true ⟨hstarted, hends⟩), if_pos (decide_eq_true hends), totalWeight_cons,
      totalWeight_cons]
    omega
  · rw [if_neg (by simp [hends]), if_neg (by simp [hends])]

/-- As long as nobody starts or ends the load is the weight of those who run. -/
theorem loadAt_eq (hrunning : ∀ r ∈ running, time < r.endTime)
    (hpending : ∀ p ∈ pending, time < p.startTime) :
    loadAt time running pending = totalWeight running := by
  have hall : (running.filter fun s => decide (time < s.endTime)) = running :=
    List.filter_eq_self.mpr fun r hr => decide_eq_true (hrunning r hr)
  have hnobody : (pending.filter fun s => s.startTime ≤ time ∧ time < s.endTime) = [] := by
    refine List.filter_eq_nil_iff.mpr fun p hp => ?_
    rw [decide_eq_true_iff]
    exact fun hstarted => absurd (hpending p hp) (UInt64.not_lt.mpr hstarted.1)
  rw [loadAt, hall, hnobody]
  exact Int.add_zero _

/-- Those who run until a time weigh all they do at that time, and the pending ones add to it. -/
theorem loadThrough_eq (hrunning : ∀ r ∈ running, time ≤ r.endTime) (pending : List Staker) :
    loadThrough time running pending = totalWeight running +
      totalWeight (pending.filter fun s => s.startTime ≤ time ∧ time ≤ s.endTime) := by
  have hall : (running.filter fun s => decide (time ≤ s.endTime)) = running :=
    List.filter_eq_self.mpr fun r hr => decide_eq_true (hrunning r hr)
  rw [loadThrough, hall]

/-! ## Where a peak may stand -/

/-- The weights at the starts that are still to come within the window. -/
def startHeights (base : Int) (start finish : UInt64) (running pending : List Staker) : Set Int :=
  {w | ∃ p ∈ pending, start ≤ p.startTime ∧ p.startTime ≤ finish ∧
    w = base + loadThrough p.startTime running pending}

/-- The weights among which the peak is the greatest: the peak so far, or else the weight as the
window begins, and those at the starts to come. -/
def heights (base : Int) (start finish : UInt64) (peak : Option UInt64)
    (running pending : List Staker) : Set Int :=
  insert ((peak.map fun q => (q.toNat : Int)).getD (base + loadAt start running pending))
    (startHeights base start finish running pending)

/-- The weight at each start until the end of the window is a word. -/
def Fits (base : Int) (finish : UInt64) (running pending : List Staker) : Prop :=
  ∀ p ∈ pending, p.startTime ≤ finish →
    base + loadThrough p.startTime running pending < UInt64.size

/-- The answer is the greatest of the weights, unless one of them is too large. -/
inductive Peaks (base : Int) (start finish : UInt64) (peak : Option UInt64)
    (running pending : List Staker) : Answer UInt64 → Prop
  | ok {m : UInt64} (hgreatest : IsGreatest (heights base start finish peak running pending) m.toNat)
    (hfits : Fits base finish running pending) : Peaks base start finish peak running pending (.ok m)
  | overflow {what : Overflow} (hlarge : ¬ Fits base finish running pending) :
    Peaks base start finish peak running pending (.error (.overflow what))

namespace Peaks

/-- The window is over before anybody else starts or ends. -/
theorem idle (hwindow : start ≤ finish) (hweight : (weight.toNat : Int) = base + totalWeight running)
    (hrunning : ∀ r ∈ running, finish < r.endTime) (hpending : ∀ p ∈ pending, finish < p.startTime) :
    Peaks base start finish peak running pending (.ok (peak.getD weight)) := by
  have hnone : startHeights base start finish running pending = ∅ := by
    refine Set.eq_empty_iff_forall_notMem.mpr ?_
    rintro w ⟨p, hp, _, hin, _⟩
    exact UInt64.not_lt.mpr hin (hpending p hp)
  have hload : loadAt start running pending = totalWeight running :=
    loadAt_eq (fun r hr => UInt64.lt_of_le_of_lt hwindow (hrunning r hr))
      fun p hp => UInt64.lt_of_le_of_lt hwindow (hpending p hp)
  refine .ok ?_ fun p hp hin => absurd (hpending p hp) (UInt64.not_lt.mpr hin)
  rw [heights, hnone, hload, insert_empty_eq, ← hweight]
  cases peak <;> exact isGreatest_singleton

/-- Where the weights are the same, so is what the answer is. -/
theorem congr {peak' : Option UInt64}
    (hfits : Fits base finish running pending ↔ Fits base finish running' pending)
    (hheights : heights base start finish peak running pending =
      heights base start finish peak' running' pending)
    (h : Peaks base start finish peak' running' pending answer) :
    Peaks base start finish peak running pending answer := by
  cases h with
  | ok hgreatest hin => exact .ok (hheights ▸ hgreatest) (hfits.mpr hin)
  | overflow hlarge => exact .overflow fun hin => hlarge (hfits.mp hin)

/-- Whoever ends before the starts to come has no part in them. -/
theorem of_ended (hrunning : running.Perm (s :: running'))
    (hlast : ∀ r ∈ running', s.endTime ≤ r.endTime) (hfirst : ∀ p ∈ pending, s.endTime < p.startTime)
    (hweight : (weight.toNat : Int) = base + totalWeight running)
    (h : Peaks base start finish (if start < s.endTime ∧ peak.isNone then some weight else peak)
      running' pending answer) : Peaks base start finish peak running pending answer := by
  have hloads : ∀ p ∈ pending,
      loadThrough p.startTime running pending = loadThrough p.startTime running' pending :=
    fun p hp => loadThrough_ended hrunning (hfirst p hp)
  have hstarts : startHeights base start finish running pending =
      startHeights base start finish running' pending := by
    refine Set.ext fun w => exists_congr fun p => and_congr_right fun hp => ?_
    rw [hloads p hp]
  refine congr (forall₂_congr fun p hp => by rw [hloads p hp]) ?_ h
  rw [heights, heights, hstarts]
  cases peak with
  | some q => simp
  | none =>
      by_cases hin : start < s.endTime
      · -- Nobody has ended since the window began, so this is the weight at its beginning.
        have hload : loadAt start running pending = totalWeight running := by
          refine loadAt_eq (fun r hr => ?_) fun p hp => UInt64.lt_trans hin (hfirst p hp)
          rcases List.mem_cons.mp (hrunning.mem_iff.mp hr) with rfl | hr
          · exact hin
          · exact UInt64.lt_of_lt_of_le hin (hlast r hr)
        simp [hin, hload, hweight]
      · simp [hin, loadAt_ended hrunning (UInt64.not_lt.mp hin)]

end Peaks

/-! ## A start -/

/-- The weight after the start of a staker is at most that at its start, and less only where
another one starts at the same time. -/
theorem more_le_height (hfirst : ∀ p ∈ pending, s.startTime ≤ p.startTime)
    (hlast : ∀ r ∈ running', s.startTime ≤ r.endTime)
    (hmore : (more.toNat : Int) = base + totalWeight running') :
    more.toNat ≤ base + loadThrough s.startTime running' pending ∧
      (base + loadThrough s.startTime running' pending = more.toNat ∨
        ∃ p ∈ pending, p.startTime = s.startTime) := by
  rw [loadThrough_eq hlast, hmore, ← Int.add_assoc]
  refine ⟨Int.le_add_of_nonneg_right (totalWeight_nonneg _), ?_⟩
  cases hnow : pending.filter fun p => p.startTime ≤ s.startTime ∧ s.startTime ≤ p.endTime with
  | nil => exact Or.inl (Int.add_zero _)
  | cons p _ =>
      have hp : p ∈ pending.filter fun p => p.startTime ≤ s.startTime ∧ s.startTime ≤ p.endTime :=
        hnow ▸ List.mem_cons_self
      obtain ⟨hp, hstarts⟩ := List.mem_filter.mp hp
      rw [decide_eq_true_iff] at hstarts
      exact Or.inr ⟨p, hp, UInt64.le_antisymm hstarts.1 (hfirst p hp)⟩

section Start

variable (hrunning : running'.Perm (s :: running))
  (hfirst : ∀ p ∈ pending, s.startTime ≤ p.startTime)

include hrunning hfirst

theorem startHeights_started :
    startHeights base start finish running (s :: pending) =
      if start ≤ s.startTime ∧ s.startTime ≤ finish then
        insert (base + loadThrough s.startTime running' pending)
          (startHeights base start finish running' pending)
      else startHeights base start finish running' pending := by
  have hrest : ∀ p ∈ pending, loadThrough p.startTime running (s :: pending) =
      loadThrough p.startTime running' pending := fun p hp =>
    loadThrough_started hrunning (hfirst p hp)
  ext w
  constructor
  · rintro ⟨p, hp, hstart, hfinish, rfl⟩
    rcases List.mem_cons.mp hp with rfl | hp
    · rw [if_pos ⟨hstart, hfinish⟩, loadThrough_started hrunning (UInt64.le_refl _)]
      exact Set.mem_insert _ _
    · have hmem : base + loadThrough p.startTime running (s :: pending) ∈
          startHeights base start finish running' pending :=
        ⟨p, hp, hstart, hfinish, by rw [hrest p hp]⟩
      split
      · exact Set.mem_insert_of_mem _ hmem
      · exact hmem
  · have hlater : startHeights base start finish running' pending ⊆
        startHeights base start finish running (s :: pending) := by
      rintro w ⟨p, hp, hstart, hfinish, rfl⟩
      exact ⟨p, List.mem_cons_of_mem _ hp, hstart, hfinish, by rw [hrest p hp]⟩
    split
    next hin =>
      rintro (rfl | hw)
      · exact ⟨s, List.mem_cons_self, hin.1, hin.2,
          by rw [loadThrough_started hrunning (UInt64.le_refl _)]⟩
      · exact hlater hw
    next => exact fun hw => hlater hw

theorem fits_started (hin : s.startTime ≤ finish)
    (hlast : ∀ r ∈ running', s.startTime ≤ r.endTime)
    (hmore : (more.toNat : Int) = base + totalWeight running') :
    Fits base finish running (s :: pending) ↔ Fits base finish running' pending := by
  have hrest : ∀ p ∈ pending, loadThrough p.startTime running (s :: pending) =
      loadThrough p.startTime running' pending := fun p hp =>
    loadThrough_started hrunning (hfirst p hp)
  constructor
  · intro h p hp hpin
    rw [← hrest p hp]
    exact h p (List.mem_cons_of_mem _ hp) hpin
  · intro h p hp hpin
    rcases List.mem_cons.mp hp with rfl | hp
    · rw [loadThrough_started hrunning (UInt64.le_refl _)]
      rcases (more_le_height hfirst hlast hmore).2 with heq | ⟨q, hq, heq⟩
      · rw [heq]
        exact Int.ofNat_lt.mpr more.toNat_lt_size
      · rw [← heq]
        exact h q hq (heq ▸ hpin)
    · rw [hrest p hp]
      exact h p hp hpin

/-- A window carries no more as it begins than at a start in it, as long as nobody has ended. -/
theorem loadAt_le_started (hlast : ∀ r ∈ running', s.startTime ≤ r.endTime)
    (hends : ∀ p ∈ pending, p.startTime < p.endTime) (hstart : start ≤ s.startTime) :
    loadAt start running (s :: pending) ≤ loadThrough s.startTime running' pending := by
  rw [← loadThrough_started hrunning (UInt64.le_refl _)]
  refine loadAt_le_loadThrough hstart (fun r hr _ => ?_) fun p hp _ _ => ?_
  · exact hlast r (hrunning.mem_iff.mpr (List.mem_cons_of_mem _ hr))
  · rcases List.mem_cons.mp hp with rfl | hp
    · exact hlast _ (hrunning.mem_iff.mpr List.mem_cons_self)
    · exact UInt64.le_trans (hfirst p hp) (UInt64.le_of_lt (hends p hp))

/-- A start before the window is over when the window begins. -/
theorem heights_started_before (hbefore : ¬ start ≤ s.startTime) :
    heights base start finish none running (s :: pending) =
      heights base start finish none running' pending := by
  have hload : loadAt start running (s :: pending) = loadAt start running' pending :=
    loadAt_started_eq hrunning (UInt64.le_of_lt (UInt64.not_le.mp hbefore))
  rw [heights, heights, startHeights_started hrunning hfirst, if_neg fun hin => hbefore hin.1,
    Option.map_none, Option.getD_none, Option.getD_none, hload]

end Start

/-- A height joins, and the weight that the others were compared with is one of those it tops. -/
theorem isGreatest_insert_top {x y top m : Int} {others : Set Int} (reached : Int)
    (hy : y = x ∨ y = reached) (hreached : reached ≤ y) (hx : x ≤ y ∨ x ≤ top)
    (htop : reached ≤ top) (hothers : top = reached ∨ top ∈ others)
    (h : IsGreatest (insert y others) m) : IsGreatest (insert x (insert top others)) m := by
  have hym : y ≤ m := h.2 (Set.mem_insert _ _)
  have htopm : top ≤ m := by
    rcases hothers with rfl | hmem
    · exact Int.le_trans hreached hym
    · exact h.2 (Set.mem_insert_of_mem _ hmem)
  refine ⟨?_, ?_⟩
  · rcases h.1 with rfl | hmem
    · rcases hy with rfl | rfl
      · exact Set.mem_insert _ _
      · exact Set.mem_insert_of_mem _ (Or.inl (Int.le_antisymm htop htopm))
    · exact Set.mem_insert_of_mem _ (Set.mem_insert_of_mem _ hmem)
  · rintro w (rfl | rfl | hmem)
    · rcases hx with hle | hle
      · exact Int.le_trans hle hym
      · exact Int.le_trans hle htopm
    · exact htopm
    · exact h.2 (Set.mem_insert_of_mem _ hmem)

/-- At a start within the window the peak so far takes up the weight after the start. -/
theorem isGreatest_heights_started {m : Int} (hrunning : running'.Perm (s :: running))
    (hfirst : ∀ p ∈ pending, s.startTime ≤ p.startTime)
    (hlast : ∀ r ∈ running', s.startTime ≤ r.endTime)
    (hends : ∀ p ∈ pending, p.startTime < p.endTime) (hstart : start ≤ s.startTime)
    (hin : s.startTime ≤ finish) (hadded : weight.toNat + s.weight.toNat = more.toNat)
    (hmore : (more.toNat : Int) = base + totalWeight running')
    (h : IsGreatest (heights base start finish
      ((if peak.isNone then some weight else peak).map fun p => max p more) running' pending) m) :
    IsGreatest (heights base start finish peak running (s :: pending)) m := by
  rw [heights] at h ⊢
  rw [startHeights_started hrunning hfirst, if_pos ⟨hstart, hin⟩]
  obtain ⟨htop, hothers⟩ := more_le_height hfirst hlast hmore
  have hmem : base + loadThrough s.startTime running' pending = more.toNat ∨
      base + loadThrough s.startTime running' pending ∈
        startHeights base start finish running' pending := by
    refine hothers.imp_right ?_
    rintro ⟨p, hp, heq⟩
    exact ⟨p, hp, heq ▸ hstart, heq ▸ hin, by rw [heq]⟩
  cases peak with
  | some q =>
      simp only [Option.isNone_some, Bool.false_eq_true, if_false, Option.map_some,
        Option.getD_some, UInt64.toNat_max] at h ⊢
      refine isGreatest_insert_top more.toNat ?_ ?_ ?_ htop hmem h
      · omega
      · omega
      · omega
  | none =>
      simp only [Option.isNone_none, if_true, Option.map_some, Option.getD_some,
        Option.map_none, Option.getD_none, UInt64.toNat_max] at h ⊢
      refine isGreatest_insert_top more.toNat ?_ ?_ (Or.inr ?_) htop hmem h
      · omega
      · omega
      · exact Int.add_le_add_left (loadAt_le_started hrunning hfirst hlast hends hstart) base

/-- Whoever has started runs, and the peak takes up its start. -/
theorem Peaks.of_started (hrunning : running'.Perm (s :: running))
    (hfirst : ∀ p ∈ pending, s.startTime ≤ p.startTime)
    (hlast : ∀ r ∈ running', s.startTime ≤ r.endTime)
    (hends : ∀ p ∈ pending, p.startTime < p.endTime) (hin : s.startTime ≤ finish)
    (hadded : weight.toNat + s.weight.toNat = more.toNat)
    (hmore : (more.toNat : Int) = base + totalWeight running')
    (hinside : ∀ q, peak = some q → start ≤ s.startTime)
    (h : Peaks base start finish
      ((if start ≤ s.startTime ∧ peak.isNone then some weight else peak).map fun p => max p more)
      running' pending answer) : Peaks base start finish peak running (s :: pending) answer := by
  have hfits := fits_started hrunning hfirst hin hlast hmore
  cases h with
  | overflow hlarge => exact .overflow fun hall => hlarge (hfits.mp hall)
  | ok hgreatest hall =>
      refine .ok ?_ (hfits.mpr hall)
      by_cases hstart : start ≤ s.startTime
      · simp only [hstart, true_and] at hgreatest
        exact isGreatest_heights_started hrunning hfirst hlast hends hstart hin hadded hmore
          hgreatest
      · -- The peak is not begun yet, and the start is over when the window begins.
        have hnone : peak = none := by
          cases peak with
          | none => rfl
          | some q => exact absurd (hinside q rfl) hstart
        subst hnone
        rw [if_neg fun hin => hstart hin.1, Option.map_none] at hgreatest
        rwa [heights_started_before hrunning hfirst hstart]

/-! ## All events -/

theorem peakWeight_late {event : StakerEvent} (h : finish < event.time) :
    peakWeight start finish weight peak (event :: rest) = .ok (peak.getD weight) := by
  rw [peakWeight, if_pos h]

theorem peakWeight_end (h : ¬ finish < s.endTime) :
    peakWeight start finish weight peak (⟨s, false⟩ :: rest) =
      (checkedSub weight s.weight "validator weight" >>= fun left =>
        peakWeight start finish left
          (if start < s.endTime ∧ peak.isNone then some weight else peak) rest) := by
  rw [peakWeight, if_neg (by simpa [StakerEvent.time] using h)]
  rfl

theorem peakWeight_start (h : ¬ finish < s.startTime) :
    peakWeight start finish weight peak (⟨s, true⟩ :: rest) =
      (checkedAdd weight s.weight "validator weight" >>= fun more =>
        peakWeight start finish more
          ((if start ≤ s.startTime ∧ peak.isNone then some weight else peak).map
            fun p => max p more) rest) := by
  rw [peakWeight, if_neg (by simpa [StakerEvent.time] using h)]
  rfl

section Step

variable (hrunning : running.Perm (s :: running')) (hwindow : start ≤ finish)
  (hweight : (weight.toNat : Int) = base + totalWeight running)

include hrunning hwindow hweight

/-- The step at an end. The window is over before it, or the rest goes on with the weight that is
left. -/
theorem peaks_end (hlast : ∀ r ∈ running', s.endTime ≤ r.endTime)
    (hfirst : ∀ p ∈ pending, s.endTime < p.startTime) (hbase : 0 ≤ base)
    (hinside : ∀ q, peak = some q → ∀ p ∈ pending, start ≤ p.startTime)
    (hrest : ∀ {left : UInt64} {peak' : Option UInt64},
      (left.toNat : Int) = base + totalWeight running' →
      (∀ q, peak' = some q → ∀ p ∈ pending, start ≤ p.startTime) →
      Peaks base start finish peak' running' pending (peakWeight start finish left peak' rest)) :
    Peaks base start finish peak running pending
      (peakWeight start finish weight peak (⟨s, false⟩ :: rest)) := by
  by_cases hlate : finish < s.endTime
  · rw [peakWeight_late hlate]
    refine .idle hwindow hweight (fun r hr => ?_) fun p hp => UInt64.lt_trans hlate (hfirst p hp)
    rcases List.mem_cons.mp (hrunning.mem_iff.mp hr) with rfl | hr
    · exact hlate
    · exact UInt64.lt_of_lt_of_le hlate (hlast r hr)
  · -- Whoever ends is among those who run, so there is enough to take its weight off.
    have hsum := totalWeight_perm hrunning
    have hothers := totalWeight_nonneg running'
    rw [totalWeight_cons] at hsum
    have hle : s.weight ≤ weight := UInt64.le_iff_toNat_le.mpr (by omega)
    have hleft : (weight - s.weight).toNat + s.weight.toNat = weight.toNat := by
      have hnat := UInt64.le_iff_toNat_le.mp hle
      rw [UInt64.toNat_sub_of_le _ _ hle]
      omega
    rw [peakWeight_end hlate, checkedSub_eq_ok_iff.mpr hleft.symm, bind_ok]
    refine .of_ended hrunning hlast hfirst hweight (hrest (by omega) fun q hq p hp => ?_)
    split at hq
    next hin => exact UInt64.le_of_lt (UInt64.lt_trans hin.1 (hfirst p hp))
    next => exact hinside q hq p hp

end Step

/-- The step at a start. The window is over before it, or the rest goes on with the greater weight,
unless this leaves the range. -/
theorem peaks_start (hrunning : running'.Perm (s :: running)) (hwindow : start ≤ finish)
    (hweight : (weight.toNat : Int) = base + totalWeight running)
    (hfirst : ∀ p ∈ pending, s.startTime ≤ p.startTime)
    (hlast : ∀ r ∈ running', s.startTime ≤ r.endTime)
    (hends : ∀ p ∈ pending, p.startTime < p.endTime)
    (hinside : ∀ q, peak = some q → ∀ p ∈ s :: pending, start ≤ p.startTime)
    (hrest : ∀ {more : UInt64} {peak' : Option UInt64},
      (more.toNat : Int) = base + totalWeight running' →
      (∀ q, peak' = some q → ∀ p ∈ pending, start ≤ p.startTime) →
      Peaks base start finish peak' running' pending (peakWeight start finish more peak' rest)) :
    Peaks base start finish peak running (s :: pending)
      (peakWeight start finish weight peak (⟨s, true⟩ :: rest)) := by
  by_cases hlate : finish < s.startTime
  · rw [peakWeight_late hlate]
    refine .idle hwindow hweight (fun r hr => ?_) fun p hp => ?_
    · exact UInt64.lt_of_lt_of_le hlate
        (hlast r (hrunning.mem_iff.mpr (List.mem_cons_of_mem _ hr)))
    · rcases List.mem_cons.mp hp with rfl | hp
      · exact hlate
      · exact UInt64.lt_of_lt_of_le hlate (hfirst p hp)
  have hin := UInt64.not_lt.mp hlate
  have hsum := totalWeight_perm hrunning
  rw [totalWeight_cons] at hsum
  rw [peakWeight_start hlate]
  cases hadd : checkedAdd weight s.weight "validator weight" with
  | ok more =>
      have hmore := checkedAdd_eq_ok_iff.mp hadd
      refine .of_started hrunning hfirst hlast hends hin hmore (by omega)
        (fun q hq => hinside q hq s List.mem_cons_self) (hrest (by omega) fun q hq p hp => ?_)
      obtain ⟨before, hbefore, _⟩ := Option.map_eq_some_iff.mp hq
      split at hbefore
      next hstart => exact UInt64.le_trans hstart.1 (hfirst p hp)
      next => exact hinside before hbefore p (List.mem_cons_of_mem _ hp)
  | error e =>
      -- The sum is part of what the stakers weigh at this start.
      obtain ⟨hlarge, rfl⟩ := checkedAdd_eq_error_iff.mp hadd
      refine .overflow fun hfits => ?_
      have hword := hfits s List.mem_cons_self hin
      rw [loadThrough_started hrunning (UInt64.le_refl _), loadThrough_eq hlast] at hword
      have hpending := totalWeight_nonneg
        (pending.filter fun p => p.startTime ≤ s.startTime ∧ s.startTime ≤ p.endTime)
      omega

/-- What events that come in order lead to is the greatest of the weights within the window. -/
theorem peaks_peakWeight (hevents : Foretells running pending events)
    (hordered : events.Pairwise StakerEvent.Precedes)
    (hends : ∀ p ∈ pending, p.startTime < p.endTime) (hwindow : start ≤ finish) (hbase : 0 ≤ base)
    (hweight : (weight.toNat : Int) = base + totalWeight running)
    (hinside : ∀ q, peak = some q → ∀ p ∈ pending, start ≤ p.startTime) :
    Peaks base start finish peak running pending
      (peakWeight start finish weight peak events) := by
  -- By induction on the events. All to come are later, which the steps need of those who run and
  -- wait.
  induction hevents generalizing weight peak with
  | finished =>
      exact .idle hwindow hweight (fun r hr => absurd hr List.not_mem_nil)
        fun p hp => absurd hp List.not_mem_nil
  | ends hrunning _ hrest ih =>
      obtain ⟨hprecedes, hordered⟩ := List.pairwise_cons.mp hordered
      exact peaks_end hrunning hwindow hweight (fun r hr => (hprecedes _ (hrest.end_mem hr)).le)
        (fun p hp => (hprecedes _ (hrest.start_mem hp)).resolve_right fun htie => nomatch htie.2 rfl)
        hbase hinside fun hleft hpeak => ih hordered hends hleft hpeak
  | starts hrunning hfirst hrest ih =>
      obtain ⟨hprecedes, hordered⟩ := List.pairwise_cons.mp hordered
      have hlater := fun p hp => hends p (List.mem_cons_of_mem _ hp)
      exact peaks_start hrunning hwindow hweight hfirst
        (fun r hr => (hprecedes _ (hrest.end_mem hr)).le) hlater hinside
        fun hmore hpeak => ih hordered hlater hmore hpeak

end StakingLedger.Ledger
