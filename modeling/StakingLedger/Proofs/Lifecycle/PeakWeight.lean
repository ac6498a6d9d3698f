import StakingLedger.Proofs.Staker.TimelineOrder
import StakingLedger.Proofs.ValidatorSet.Weight
import StakingLedger.Transaction

/-! # The peak weight of a validator

The peak over a window is at least what a validator carries at any moment of it.
Weights are added as stakers start and taken off as they end, so between two
events the weight is that of the stakers then running; the peak takes it up with
the first event inside the window and with every start from then on.
-/

namespace StakingLedger.Ledger

variable {start finish weight p : UInt64} {peak : Option UInt64} {s : Staker}
  {running rest' pending : List Staker} {events rest : List StakerEvent} {base : Int}
  {time : UInt64}

/-- What running and pending stakers weigh at a time. -/
def loadAt (time : UInt64) (running pending : List Staker) : Int :=
  totalWeight (running.filter fun s => time < s.endTime) +
    totalWeight (pending.filter fun s => s.startTime ≤ time ∧ time < s.endTime)

theorem totalWeight_filter_le (l : List Staker) (q : Staker → Bool) :
    totalWeight (l.filter q) ≤ totalWeight l :=
  totalWeight_sublist List.filter_sublist

/-- As long as nobody starts the load is part of the weight of those who run. -/
theorem loadAt_le (time : UInt64) (running pending : List Staker)
    (hidle : ∀ s ∈ pending, time < s.startTime) :
    loadAt time running pending ≤ totalWeight running := by
  have hnobody : (pending.filter fun s => s.startTime ≤ time ∧ time < s.endTime) = [] := by
    refine List.filter_eq_nil_iff.mpr fun s hs => ?_
    rw [decide_eq_true_iff]
    exact fun hstarted => absurd (hidle s hs) (UInt64.not_lt.mpr hstarted.1)
  rw [loadAt, hnobody]
  exact (Int.add_zero _).trans_le (totalWeight_filter_le _ _)

/-- A staker whose period is over adds nothing. -/
theorem loadAt_ended (hrunning : running.Perm (s :: rest')) (hover : s.endTime ≤ time) :
    loadAt time running pending = loadAt time rest' pending := by
  have hperm := totalWeight_perm (hrunning.filter fun s => decide (time < s.endTime))
  rw [List.filter_cons_of_neg (by simpa using hover)] at hperm
  rw [loadAt, loadAt, hperm]

/-- A staker that starts weighs no less afterwards. -/
theorem loadAt_started (hrunning : rest'.Perm (s :: running)) (time : UInt64)
    (pending : List Staker) :
    loadAt time running (s :: pending) ≤ loadAt time rest' pending := by
  have hperm := totalWeight_perm (hrunning.filter fun s => decide (time < s.endTime))
  rw [loadAt, loadAt, hperm, List.filter_cons, List.filter_cons]
  split
  next hnow =>
    rw [decide_eq_true_iff] at hnow
    rw [if_pos (decide_eq_true hnow.2), totalWeight_cons, totalWeight_cons]
    omega
  next =>
    split
    · rw [totalWeight_cons]
      omega
    · omega

/-! ## One event -/

theorem peakWeight_ends (h : peakWeight start finish weight peak (⟨s, false⟩ :: rest) = .ok p) :
    (finish < s.endTime ∧ p = peak.getD weight) ∨ ∃ left : UInt64,
      weight.toNat = left.toNat + s.weight.toNat ∧
        peakWeight start finish left
          (if start < s.endTime ∧ peak.isNone then some weight else peak) rest = .ok p := by
  unfold peakWeight at h
  simp only [StakerEvent.time, Bool.false_eq_true, if_false] at h
  split at h
  next hlate =>
    cases h
    exact Or.inl ⟨hlate, rfl⟩
  next =>
    obtain ⟨left, hleft, h⟩ := bind_eq_ok_iff.mp h
    exact Or.inr ⟨left, checkedSub_eq_ok_iff.mp hleft, h⟩

theorem peakWeight_starts (h : peakWeight start finish weight peak (⟨s, true⟩ :: rest) = .ok p) :
    (finish < s.startTime ∧ p = peak.getD weight) ∨ ∃ more : UInt64,
      weight.toNat + s.weight.toNat = more.toNat ∧
        peakWeight start finish more
          ((if start ≤ s.startTime ∧ peak.isNone then some weight else peak).map
            fun p => max p more) rest = .ok p := by
  unfold peakWeight at h
  simp only [StakerEvent.time, if_true] at h
  split at h
  next hlate =>
    cases h
    exact Or.inl ⟨hlate, rfl⟩
  next =>
    obtain ⟨more, hmore, h⟩ := bind_eq_ok_iff.mp h
    exact Or.inr ⟨more, checkedAdd_eq_ok_iff.mp hmore, h⟩

/-- A peak that is kept is no less than the weight that it was taken from. -/
theorem le_getD (hpeak : ∀ q, peak = some q → weight.toNat ≤ q.toNat) :
    weight.toNat ≤ (peak.getD weight).toNat ∧
      ∀ q, peak = some q → q.toNat ≤ (peak.getD weight).toNat := by
  cases peak with
  | none => exact ⟨Nat.le_refl _, fun _ hq => by cases hq⟩
  | some q => exact ⟨hpeak q rfl, fun _ hq => by cases hq; exact Nat.le_refl _⟩

/-- The peak after an event was reached: it is kept, or begins with the weight inside the window. -/
theorem peak_reached (inside : Prop) [Decidable inside]
    (hpeak : ∀ q, peak = some q → weight.toNat ≤ q.toNat) :
    (∀ q, (if inside ∧ peak.isNone then some weight else peak) = some q → weight.toNat ≤ q.toNat) ∧
      (∀ q, peak = some q → (if inside ∧ peak.isNone then some weight else peak) = some q) ∧
      (inside → ∃ q, (if inside ∧ peak.isNone then some weight else peak) = some q) := by
  cases peak with
  | none =>
      refine ⟨fun q hq => ?_, fun _ hq => (nomatch hq), fun hinside => ⟨weight, by simp [hinside]⟩⟩
      split at hq
      · cases hq
        exact Nat.le_refl _
      · cases hq
  | some q => simpa using hpeak

/-! ## All events -/

/-- The peak `p` is no less than the one seen so far, and than the weight at each moment to come. -/
structure Bounds (base : Int) (start finish : UInt64) (peak : Option UInt64)
    (running pending : List Staker) (p : UInt64) : Prop where
  seen : ∀ q, peak = some q → q.toNat ≤ p.toNat
  load : ∀ time, start ≤ time → time ≤ finish → base + loadAt time running pending ≤ p.toNat

namespace Bounds

/-- Until the window is over nobody else starts. -/
theorem idle (hweight : (weight.toNat : Int) = base + totalWeight running)
    (hpeak : ∀ q, peak = some q → weight.toNat ≤ q.toNat)
    (hidle : ∀ s ∈ pending, finish < s.startTime) :
    Bounds base start finish peak running pending (peak.getD weight) := by
  obtain ⟨hle, hkept⟩ := le_getD hpeak
  refine ⟨hkept, fun time _ htime => ?_⟩
  have hload := loadAt_le time running pending fun s hs =>
    UInt64.lt_of_le_of_lt htime (hidle s hs)
  omega

/-- What bounds the weight after the end of a staker bounds it before, too. -/
theorem of_ended (hrunning : running.Perm (s :: rest'))
    (hfirst : ∀ x ∈ pending, s.endTime ≤ x.startTime)
    (hweight : (weight.toNat : Int) = base + totalWeight running)
    (hpeak : ∀ q, peak = some q → weight.toNat ≤ q.toNat)
    (h : Bounds base start finish (if start < s.endTime ∧ peak.isNone then some weight else peak)
      rest' pending p) : Bounds base start finish peak running pending p := by
  obtain ⟨hbegun, hkept, hinside⟩ := peak_reached (start < s.endTime) hpeak
  refine ⟨fun q hq => h.seen q (hkept q hq), fun time hstart hfinish => ?_⟩
  by_cases hover : s.endTime ≤ time
  · rw [loadAt_ended hrunning hover]
    exact h.load time hstart hfinish
  · -- Until its end everybody who is running now is, and nobody else.
    have hbefore := UInt64.not_le.mp hover
    have hload := loadAt_le time running pending fun x hx =>
      UInt64.lt_of_lt_of_le hbefore (hfirst x hx)
    obtain ⟨q, hq⟩ := hinside (UInt64.lt_of_le_of_lt hstart hbefore)
    have hle := hbegun q hq
    have hseen := h.seen q hq
    omega

/-- What bounds the weight after the start of a staker bounds it before, too. -/
theorem of_started {more : UInt64} (hrunning : rest'.Perm (s :: running))
    (hpeak : ∀ q, peak = some q → weight.toNat ≤ q.toNat)
    (h : Bounds base start finish
      ((if start ≤ s.startTime ∧ peak.isNone then some weight else peak).map fun p => max p more)
      rest' pending p) : Bounds base start finish peak running (s :: pending) p := by
  obtain ⟨_, hkept, _⟩ := peak_reached (start ≤ s.startTime) hpeak
  refine ⟨fun q hq => ?_, fun time hstart hfinish => ?_⟩
  · have hmax := h.seen (max q more) (by rw [hkept q hq]; rfl)
    rw [UInt64.toNat_max] at hmax
    omega
  · have hload := loadAt_started hrunning time pending
    have hnext := h.load time hstart hfinish
    omega

end Bounds

/-- The peak that the events lead to bounds the weight throughout the window. -/
theorem peakWeight_bounds (hevents : Foretells running pending events)
    (hweight : (weight.toNat : Int) = base + totalWeight running)
    (hpeak : ∀ q, peak = some q → weight.toNat ≤ q.toNat)
    (h : peakWeight start finish weight peak events = .ok p) :
    Bounds base start finish peak running pending p := by
  -- By induction on the events; the weight is at any time that of those who run, and the peak tops
  -- it.
  induction hevents generalizing weight peak with
  | finished =>
      cases h
      exact .idle hweight hpeak fun _ hs => absurd hs List.not_mem_nil
  | @ends running running' pending s rest hrunning hfirst _ ih =>
      have hsum := totalWeight_perm hrunning
      rw [totalWeight_cons] at hsum
      rcases peakWeight_ends h with ⟨hlate, rfl⟩ | ⟨left, hleft, hrest⟩
      · exact .idle hweight hpeak fun x hx => UInt64.lt_of_lt_of_le hlate (hfirst x hx)
      · have hbegun := (peak_reached (start < s.endTime) hpeak).1
        refine .of_ended hrunning hfirst hweight hpeak (ih (by omega) (fun q hq => ?_) hrest)
        have hle := hbegun q hq
        omega
  | @starts running running' pending s rest hrunning hfirst _ ih =>
      have hsum := totalWeight_perm hrunning
      rw [totalWeight_cons] at hsum
      rcases peakWeight_starts h with ⟨hlate, rfl⟩ | ⟨more, hmore, hrest⟩
      · refine .idle hweight hpeak fun x hx => ?_
        rcases List.mem_cons.mp hx with rfl | hx
        · exact hlate
        · exact UInt64.lt_of_lt_of_le hlate (hfirst x hx)
      · refine .of_started hrunning hpeak (ih (by omega) (fun q hq => ?_) hrest)
        obtain ⟨before, _, rfl⟩ := Option.map_eq_some_iff.mp hq
        rw [UInt64.toNat_max]
        exact Nat.le_max_right _ _

/-! ## The peak that is checked -/

theorem addWeights_eq {stakers : List Staker} {own total : UInt64}
    (h : addWeights own stakers = .ok total) :
    (total.toNat : Int) = own.toNat + totalWeight stakers := by
  induction stakers generalizing own with
  | nil =>
      cases h
      simp [totalWeight]
  | cons s rest ih =>
      obtain ⟨next, hnext, hrest⟩ := bind_eq_ok_iff.mp h
      have hsum := checkedAdd_eq_ok_iff.mp hnext
      rw [ih hrest, totalWeight_cons]
      omega

/-- At each moment of the window a validator carries at most the peak. -/
theorem load_le_maxValidatorWeight {l : Ledger} {validator : Staker} {current pending : StakerSeq}
    (hcurrent : l.delegators .current validator.slot = .ok current)
    (hpending : l.delegators .pending validator.slot = .ok pending)
    (hupcoming : Upcoming current.toList pending.toList .empty)
    (h : l.maxValidatorWeight validator start finish = .ok p) (hstart : start ≤ time)
    (hfinish : time ≤ finish) :
    validator.weight.toNat + loadAt time current.toList pending.toList ≤ p.toNat := by
  obtain ⟨current', hread, h⟩ := bind_eq_ok_iff.mp h
  rw [hcurrent] at hread
  cases hread
  obtain ⟨weight, hweight, h⟩ := bind_eq_ok_iff.mp h
  obtain ⟨pending', hread, h⟩ := bind_eq_ok_iff.mp h
  rw [hpending] at hread
  cases hread
  have hevents := hupcoming.foretells
  rw [show (OrderedMap.empty : StakerTree).values = [] from rfl, List.append_nil] at hevents
  exact (peakWeight_bounds hevents (addWeights_eq hweight) (fun _ hq => by cases hq) h).load
    time hstart hfinish

end StakingLedger.Ledger
