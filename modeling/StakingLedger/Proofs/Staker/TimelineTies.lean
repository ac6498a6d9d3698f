import StakingLedger.Proofs.Answer
import StakingLedger.Proofs.Staker.TimelineOrder

/-! # The order of a timeline

The events of a timeline come in the order of their times, then of the priorities
that the stakers have in them, then of the transactions. At one time every start
comes before every end: a pending priority ranks before each current one. So
whoever ends has ended before those who are still pending start. If no two stakers
are of one transaction, no two events have the same place.
-/

namespace StakingLedger

variable {current pending running : List Staker} {ending : StakerTree} {events : List StakerEvent}
  {s : Staker} {first e : StakerEvent}

theorem Priority.toCurrent_of_isCurrent {p : Priority} (h : p.isCurrent = true) :
    p.toCurrent = p := by
  cases p <;> first | rfl | cases h

/-- The event takes place before the other one; at one time no end comes before a start. -/
def StakerEvent.Precedes (a b : StakerEvent) : Prop :=
  a.time < b.time ∨ a.time = b.time ∧ (b.starting = true → a.starting = true)

theorem StakerEvent.Precedes.le (h : first.Precedes e) : first.time ≤ e.time := by
  rcases h with hlt | ⟨heq, _⟩
  · exact UInt64.le_of_lt hlt
  · exact UInt64.le_of_eq heq

/-- The place of an event on a timeline: its time, the priority that the staker has in it, and the
transaction. -/
def StakerEvent.key (event : StakerEvent) : StakerKey :=
  if event.starting then ⟨event.staker.startTime, event.staker.priority, event.staker.txId⟩
  else event.staker.endKey

namespace StakerEvent

theorem key_nextTime (e : StakerEvent) : e.key.nextTime = e.time := by
  obtain ⟨s, _ | _⟩ := e <;> rfl

theorem key_txId (e : StakerEvent) : e.key.txId = e.staker.txId := by
  obtain ⟨s, _ | _⟩ := e <;> rfl

theorem time_le (h : compare first.key e.key ≠ .gt) : first.time ≤ e.time := by
  rw [← key_nextTime, ← key_nextTime]
  exact StakerKey.nextTime_le h

theorem starting_of_pending (h : e.key.priority.isPending = true) : e.starting = true := by
  obtain ⟨s, _ | _⟩ := e
  · have hcurrent := s.priority.isCurrent_toCurrent
    rw [Priority.isCurrent, show s.priority.toCurrent.isPending = true from h] at hcurrent
    cases hcurrent
  · rfl

end StakerEvent

/-- The events of a set of stakers: a current one ends, a pending one starts and ends. -/
def stakerEvents (current pending : List Staker) : List StakerEvent :=
  current.map (fun s => ⟨s, false⟩) ++ pending.flatMap fun s => [⟨s, true⟩, ⟨s, false⟩]

/-! ## The events of a staker -/

namespace Foretells

/-- Each running staker ends once, each pending one starts once and ends once, and nothing else
happens. -/
theorem perm (h : Foretells running pending events) :
    events.Perm (stakerEvents running pending) := by
  induction h with
  | finished => exact .refl _
  | ends hrunning _ _ ih =>
      have hended := hrunning.symm.map fun s => (⟨s, false⟩ : StakerEvent)
      exact (ih.cons _).trans (hended.append_right _)
  | starts hrunning _ _ ih =>
      -- The staker that starts moves from the pending stakers to the running ones.
      have hmoved := ih.trans ((hrunning.map _).append_right _)
      exact (hmoved.cons _).trans (List.perm_middle.trans (List.perm_middle.cons _)).symm

theorem end_mem (h : Foretells running pending events) (hs : s ∈ running) :
    ⟨s, false⟩ ∈ events :=
  h.perm.mem_iff.mpr (List.mem_append_left _ (List.mem_map_of_mem hs))

theorem start_mem (h : Foretells running pending events) (hs : s ∈ pending) :
    ⟨s, true⟩ ∈ events :=
  h.perm.mem_iff.mpr (List.mem_append_right _ (List.mem_flatMap.mpr ⟨s, hs, List.mem_cons_self⟩))

/-- An event is the start of a pending staker, or the end of a running or pending one. -/
theorem staker_of_mem (h : Foretells running pending events) (he : e ∈ events) :
    (e.starting = true ∧ e.staker ∈ pending) ∨
      (e.starting = false ∧ (e.staker ∈ running ∨ e.staker ∈ pending)) := by
  rcases List.mem_append.mp (h.perm.mem_iff.mp he) with he | he
  · obtain ⟨s, hs, rfl⟩ := List.mem_map.mp he
    exact Or.inr ⟨rfl, Or.inl hs⟩
  · obtain ⟨s, hs, he⟩ := List.mem_flatMap.mp he
    rcases List.mem_pair.mp he with rfl | rfl
    · exact Or.inl ⟨rfl, hs⟩
    · exact Or.inr ⟨rfl, Or.inr hs⟩

/-- A pending staker ends after it has started. -/
theorem start_then_end (h : Foretells running pending events) (hs : s ∈ pending) :
    [⟨s, true⟩, ⟨s, false⟩].Sublist events := by
  induction h with
  | finished => cases hs
  | ends _ _ _ ih => exact (ih hs).cons _
  | starts hrunning _ hrest ih =>
      rcases List.mem_cons.mp hs with rfl | hs
      · have hend := hrest.end_mem (hrunning.mem_iff.mpr List.mem_cons_self)
        exact (List.singleton_sublist.mpr hend).cons_cons _
      · exact (ih hs).cons _

end Foretells

/-! ## The order of a timeline -/

/-- Walks over current and pending stakers in the order of their keys. -/
structure Ranked (current pending : List Staker) (ending : StakerTree) : Prop extends
    Upcoming current pending ending where
  currentSorted : current.Pairwise fun a b => a.notAfter b = true
  pendingSorted : pending.Pairwise fun a b => a.notAfter b = true
  serving : ∀ s ∈ current, s.priority.isCurrent = true
  waiting : ∀ s ∈ pending, s.priority.isPending = true ∧ s.startTime < s.endTime

namespace Ranked

theorem start (h : Ranked current (s :: pending) ending) :
    Ranked current pending (ending.insert s.endKey s) where
  toUpcoming := h.toUpcoming.start
  currentSorted := h.currentSorted
  pendingSorted := (List.pairwise_cons.mp h.pendingSorted).2
  serving := h.serving
  waiting p hp := h.waiting p (List.mem_cons_of_mem _ hp)

theorem stop (h : Ranked (s :: current) pending ending) : Ranked current pending ending where
  toUpcoming := h.toUpcoming.stop
  currentSorted := (List.pairwise_cons.mp h.currentSorted).2
  pendingSorted := h.pendingSorted
  serving t ht := h.serving t (List.mem_cons_of_mem _ ht)
  waiting := h.waiting

theorem pop (h : Ranked current pending ending) {e : StakerKey × Staker} {rest : StakerTree}
    (hentries : ending.entries = e :: rest.entries) : Ranked current pending rest where
  toUpcoming := h.toUpcoming.pop hentries
  currentSorted := h.currentSorted
  pendingSorted := h.pendingSorted
  serving := h.serving
  waiting := h.waiting

/-- A current staker stands at its end. -/
theorem endKey_eq (h : Ranked current pending ending) (hs : s ∈ current) : s.endKey = s.key := by
  rw [Staker.endKey, Staker.key, h.ends s hs, Priority.toCurrent_of_isCurrent (h.serving s hs)]

/-- A pending staker stands at its start. -/
theorem startKey_eq (h : Ranked current pending ending) (hs : s ∈ pending) :
    StakerEvent.key ⟨s, true⟩ = s.key := by
  rw [StakerEvent.key, if_pos rfl, Staker.key, h.starts s hs]

theorem key_before_endKey (h : Ranked current pending ending) (hs : s ∈ pending) :
    compare s.key s.endKey ≠ .gt := by
  have hlt : s.key.nextTime < s.endKey.nextTime := by
    rw [show s.key.nextTime = s.startTime from h.starts s hs]
    exact (h.waiting s hs).2
  rw [StakerKey.compare_of_nextTime_lt hlt]
  decide

/-- What is not after the first of some ordered stakers is not after any of them. -/
theorem not_after_all {stakers : List Staker} {key : StakerKey}
    (hsorted : stakers.Pairwise fun a b => a.notAfter b = true)
    (hhead : ∀ s, stakers.head? = some s → compare key s.key ≠ .gt) (hs : s ∈ stakers) :
    compare key s.key ≠ .gt := by
  cases stakers with
  | nil => cases hs
  | cons first rest =>
      have hfirst := hhead first rfl
      rcases List.mem_cons.mp hs with rfl | hs
      · exact hfirst
      · exact StakerKey.compare_trans hfirst
          (Staker.notAfter_iff.mp ((List.pairwise_cons.mp hsorted).1 s hs))

/-- The next event is not after any start and not after any end. -/
theorem next (h : Ranked current pending ending) {source : EventSource}
    (hsource : earliest (heads current pending ending) = some source) :
    ∃ key, (key, source) ∈ heads current pending ending ∧
      (∀ p ∈ pending, compare key p.key ≠ .gt) ∧
      ∀ r ∈ current ++ ending.values, compare key r.endKey ≠ .gt := by
  obtain ⟨key, hmem, hleast⟩ := earliest_spec hsource
  have hpending : ∀ s ∈ pending, compare key s.key ≠ .gt := fun s hs =>
    not_after_all h.pendingSorted
      (fun first hfirst => hleast (first.key, .pending) (by simp [heads, hfirst])) hs
  have hcurrent : ∀ s ∈ current, compare key s.endKey ≠ .gt := fun s hs => by
    rw [h.endKey_eq hs]
    exact not_after_all h.currentSorted
      (fun first hfirst => hleast (first.key, .current) (by simp [heads, hfirst])) hs
  -- The ends that wait are kept in the order of their keys.
  have hending : ∀ e ∈ ending.entries, compare key e.1 ≠ .gt := by
    intro e he
    have hsorted := ending.sorted
    cases hentries : ending.entries with
    | nil => rw [hentries] at he; cases he
    | cons first rest =>
        rw [hentries] at he hsorted
        have hfirst := hleast (first.1, .ending) (by simp [heads, hentries])
        rcases List.mem_cons.mp he with rfl | he
        · exact hfirst
        · refine StakerKey.compare_trans hfirst ?_
          rw [(List.pairwise_cons.mp hsorted).1 e he]
          decide
  refine ⟨key, hmem, hpending, fun r hr => ?_⟩
  rcases List.mem_append.mp hr with hr | hr
  · exact hcurrent r hr
  · obtain ⟨e, he, rfl⟩ := List.mem_map.mp hr
    rw [← h.keyed e he]
    exact hending e he

/-- What is not after any start and not after any end is not after any event. -/
theorem not_after_events (h : Ranked current pending ending) {key : StakerKey}
    (hstarts : ∀ p ∈ pending, compare key p.key ≠ .gt)
    (hends : ∀ r ∈ current ++ ending.values, compare key r.endKey ≠ .gt)
    (he : e ∈ timelineFrom current pending ending) : compare key e.key ≠ .gt := by
  obtain ⟨s, starting⟩ := e
  rcases h.foretells.staker_of_mem he with ⟨rfl, hs⟩ | ⟨rfl, hs | hs⟩
  · rw [h.startKey_eq hs]
    exact hstarts s hs
  · exact hends s hs
  · exact StakerKey.compare_trans (hstarts s hs) (h.key_before_endKey hs)

/-- The events of a timeline come in the order of their places. -/
theorem keys_ordered (h : Ranked current pending ending) :
    (timelineFrom current pending ending).Pairwise fun a b => compare a.key b.key ≠ .gt := by
  fun_induction timelineFrom current pending ending with
  | case1 => exact .nil
  | case2 => exact .nil
  | case3 pending ending s rest candidates hsource ih =>
      obtain ⟨key, hmem, hstarts, hends⟩ := h.next hsource
      obtain rfl : key = s.key := by simpa [heads] using hmem
      have hplace : StakerEvent.key ⟨s, false⟩ = s.key := h.endKey_eq List.mem_cons_self
      refine List.pairwise_cons.mpr ⟨fun e he => ?_, ih h.stop⟩
      rw [hplace]
      exact h.stop.not_after_events hstarts (fun r hr => hends r (List.mem_cons_of_mem _ hr)) he
  | case4 => exact .nil
  | case5 current ending s rest candidates hsource ih =>
      obtain ⟨key, hmem, hstarts, hends⟩ := h.next hsource
      obtain rfl : key = s.key := by simpa [heads] using hmem
      refine List.pairwise_cons.mpr ⟨fun e he => ?_, ih h.start⟩
      rw [h.startKey_eq List.mem_cons_self]
      refine h.start.not_after_events (fun p hp => hstarts p (List.mem_cons_of_mem _ hp))
        (fun r hr => ?_) he
      -- The staker itself ends after its start.
      have hperm := (h.values_insert.append_left current).trans List.perm_middle
      rcases List.mem_cons.mp (hperm.mem_iff.mp hr) with rfl | hr
      · exact h.key_before_endKey List.mem_cons_self
      · exact hends r hr
  | case6 => exact .nil
  | case7 current pending ending candidates hsource e rest hpop ih =>
      have hentries := OrderedMap.entries_of_popFirst? hpop
      obtain ⟨key, hmem, hstarts, hends⟩ := h.next hsource
      obtain rfl : key = e.1 := by simpa [heads, hentries] using hmem
      have hplace : StakerEvent.key ⟨e.2, false⟩ = e.1 :=
        (h.keyed e (by rw [hentries]; exact List.mem_cons_self)).symm
      refine List.pairwise_cons.mpr ⟨fun x hx => ?_, ih (h.pop hentries)⟩
      rw [hplace]
      refine (h.pop hentries).not_after_events hstarts (fun r hr => hends r ?_) hx
      rw [OrderedMap.values, hentries]
      rcases List.mem_append.mp hr with hr | hr
      · exact List.mem_append_left _ hr
      · exact List.mem_append_right _ (List.mem_cons_of_mem _ hr)

/-- The events of a timeline come in order, and at one time the starts come first. -/
theorem ordered (h : Ranked current pending ending) :
    (timelineFrom current pending ending).Pairwise StakerEvent.Precedes := by
  refine h.keys_ordered.imp_of_mem fun {a b} _ hb hle => ?_
  rcases UInt64.lt_or_eq_of_le (StakerEvent.time_le hle) with hlt | heq
  · exact Or.inl hlt
  refine Or.inr ⟨heq, fun hstarting => ?_⟩
  -- A start has a pending priority, and what is not after it at its time has one as well.
  obtain ⟨_, hmem⟩ | ⟨hnot, _⟩ := h.foretells.staker_of_mem hb
  · have hwaits : b.key.priority.isPending = true := by
      rw [StakerEvent.key, if_pos hstarting]
      exact (h.waiting b.staker hmem).1
    have hrank := StakerKey.rank_le hle (by rw [StakerEvent.key_nextTime, heq, b.key_nextTime])
    rw [Priority.isPending, decide_eq_true_iff] at hwaits
    exact StakerEvent.starting_of_pending (decide_eq_true (Nat.le_trans hrank hwaits))
  · rw [hnot] at hstarting
    cases hstarting

end Ranked

/-! ## Stakers that stand at their times -/

/-- Stakers of the two phases: no two are of one transaction, the current ones stand at their end,
the pending ones at their start. -/
structure WellTimed (current pending : List Staker) : Prop where
  unique : ((current ++ pending).map Staker.txId).Nodup
  ends : ∀ s ∈ current, s.priority.isCurrent = true ∧ s.nextTime = s.endTime
  starts : ∀ s ∈ pending,
    s.priority.isPending = true ∧ s.nextTime = s.startTime ∧ s.startTime < s.endTime

namespace WellTimed

theorem unique_current (h : WellTimed current pending) : (current.map Staker.txId).Nodup := by
  have hunique := h.unique
  rw [List.map_append] at hunique
  exact (List.nodup_append.mp hunique).1

theorem unique_pending (h : WellTimed current pending) : (pending.map Staker.txId).Nodup := by
  have hunique := h.unique
  rw [List.map_append] at hunique
  exact (List.nodup_append.mp hunique).2.1

theorem ranked (h : WellTimed current pending)
    (hcurrent : current.Pairwise fun a b => a.notAfter b = true)
    (hpending : pending.Pairwise fun a b => a.notAfter b = true) :
    Ranked current pending .empty where
  ends s hs := (h.ends s hs).2
  starts s hs := (h.starts s hs).2.1
  sorted := hpending.imp fun hle =>
    StakerKey.nextTime_le (a := Staker.key _) (b := Staker.key _) (Staker.notAfter_iff.mp hle)
  keyed _ he := absurd he List.not_mem_nil
  apart := by
    rw [show (OrderedMap.empty : StakerTree).values = [] from rfl, List.append_nil]
    exact List.pairwise_map.mp h.unique_pending
  currentSorted := hcurrent
  pendingSorted := hpending
  serving s hs := (h.ends s hs).1
  waiting s hs := ⟨(h.starts s hs).1, (h.starts s hs).2.2⟩

/-- Those that transactions make, and the promoted ones among them, are well timed. -/
theorem of_made (hunique : ((current ++ pending).map Staker.txId).Nodup)
    (hcurrent : ∀ s ∈ current, ∃ tx p reward, Staker.newPending tx = .ok p ∧ s = p.promoted reward)
    (hpending : ∀ s ∈ pending, ∃ tx, Staker.newPending tx = .ok s) : WellTimed current pending where
  unique := hunique
  ends s hs := by
    obtain ⟨tx, p, reward, _, rfl⟩ := hcurrent s hs
    exact ⟨p.priority.isCurrent_toCurrent, rfl⟩
  starts s hs := by
    obtain ⟨tx, hmade⟩ := hpending s hs
    obtain ⟨_, hwindow, hmade⟩ := bind_eq_ok_iff.mp hmade
    cases hmade
    refine ⟨?_, rfl, ?_⟩
    · change (Priority.pending tx.kind).isPending = true
      cases tx.kind <;> rfl
    · unfold Staker.checkWindow at hwindow
      split at hwindow
      next hlt => exact hlt
      next => cases hwindow

/-- Fewer stakers are as well timed. -/
theorem filter (h : WellTimed current pending) (p : Staker → Bool) :
    WellTimed (current.filter p) (pending.filter p) where
  unique := by
    rw [← List.filter_append]
    exact h.unique.sublist (List.filter_sublist.map _)
  ends s hs := h.ends s (List.mem_of_mem_filter hs)
  starts s hs := h.starts s (List.mem_of_mem_filter hs)

end WellTimed

end StakingLedger
