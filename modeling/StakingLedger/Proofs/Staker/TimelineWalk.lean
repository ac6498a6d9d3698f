import StakingLedger.Proofs.Staker.Iteration
import StakingLedger.Proofs.Staker.TimelineTies
import StakingLedger.Staker.EventSequence

/-! # Walking a timeline

A walk over the events of two sequences meets the timeline of their stakers, one
event at a time. Each current staker ends, each pending one starts and later ends,
all in strictly increasing order.
-/

namespace StakingLedger

variable {current pending : StakerSeq} {w : EventSeq}

/-! ## The timeline by its next source -/

section Equations

variable {current pending : List Staker} {ending rest : StakerTree} {s : Staker}
  {e : StakerKey × Staker}

theorem timelineFrom_none (h : earliest (heads current pending ending) = none) :
    timelineFrom current pending ending = [] := by
  rw [timelineFrom.eq_def]
  simp only [heads] at h
  simp only [h]

theorem timelineFrom_current (h : earliest (heads (s :: current) pending ending) = some .current) :
    timelineFrom (s :: current) pending ending =
      ⟨s, false⟩ :: timelineFrom current pending ending := by
  rw [timelineFrom.eq_def]
  simp only [heads] at h
  simp only [h]

theorem timelineFrom_pending (h : earliest (heads current (s :: pending) ending) = some .pending) :
    timelineFrom current (s :: pending) ending =
      ⟨s, true⟩ :: timelineFrom current pending (ending.insert s.endKey s) := by
  rw [timelineFrom.eq_def]
  simp only [heads] at h
  simp only [h]

theorem timelineFrom_ending (h : earliest (heads current pending ending) = some .ending)
    (hpop : ending.popFirst? = some (e, rest)) :
    timelineFrom current pending ending = ⟨e.2, false⟩ :: timelineFrom current pending rest := by
  rw [timelineFrom.eq_def]
  simp only [heads] at h
  simp only [h]
  split
  next hnone => rw [hpop] at hnone; cases hnone
  next hsome =>
    rw [hpop] at hsome
    cases hsome
    rfl

end Equations

namespace EventSeq

/-- The events that the rest of a walk meets. -/
def events (w : EventSeq) : List StakerEvent :=
  timelineFrom (w.currentHead.toList ++ w.current.toList) (w.pendingHead.toList ++ w.pending.toList)
    w.ending

/-- A staker is held ahead on each side that is not over. -/
structure Held (w : EventSeq) : Prop where
  current : w.currentHead = none → w.current.toList = []
  pending : w.pendingHead = none → w.pending.toList = []

/-! ## One step -/

theorem refill_toList (head : Option Staker) (walk : StakerSeq) :
    (refill head walk).1.toList ++ (refill head walk).2.toList = head.toList ++ walk.toList := by
  cases head with
  | some s => rfl
  | none =>
      rw [refill, walk.next_fst, walk.toList_next_snd]
      cases walk.toList <;> rfl

theorem refill_eq_none {head : Option Staker} {walk : StakerSeq}
    (h : (refill head walk).1 = none) : (refill head walk).2.toList = [] := by
  cases head with
  | some s => cases h
  | none =>
      rw [refill, walk.next_fst, List.head?_eq_none_iff] at h
      rw [refill, walk.toList_next_snd, h, List.tail_nil]

theorem filled_held (w : EventSeq) : w.filled.Held := ⟨refill_eq_none, refill_eq_none⟩

theorem events_filled (w : EventSeq) : w.filled.events = w.events := by
  unfold events filled
  rw [refill_toList, refill_toList]

theorem Held.candidates_eq (h : w.Held) :
    w.candidates = heads (w.currentHead.toList ++ w.current.toList)
      (w.pendingHead.toList ++ w.pending.toList) w.ending := by
  have hhead : ∀ {head : Option Staker} {rest : List Staker}, (head = none → rest = []) →
      (head.toList ++ rest).head? = head := by
    intro head rest hnone
    cases head with
    | none => rw [hnone rfl]; rfl
    | some s => rfl
  rw [candidates, heads, hhead h.current, hhead h.pending]

/-- Meeting the event of the earliest source leaves the others. -/
theorem Held.take_spec (h : w.Held) {source : EventSource}
    (hsource : earliest w.candidates = some source) :
    (w.take source).1 = w.events.head? ∧ (w.take source).2.events = w.events.tail := by
  rw [h.candidates_eq] at hsource
  obtain ⟨key, hmem, _⟩ := earliest_spec hsource
  obtain ⟨current, pending, currentHead, pendingHead, ending⟩ := w
  -- The source has a candidate, so it is not empty; what it holds is the event of the timeline
  -- there.
  cases source with
  | current =>
      cases currentHead with
      | none => simp [heads, h.current rfl] at hmem
      | some s =>
          have hevents : events ⟨current, pending, some s, pendingHead, ending⟩ = _ :=
            timelineFrom_current hsource
          rw [hevents]
          exact ⟨rfl, rfl⟩
  | pending =>
      cases pendingHead with
      | none => simp [heads, h.pending rfl] at hmem
      | some s =>
          have hevents : events ⟨current, pending, currentHead, some s, ending⟩ = _ :=
            timelineFrom_pending hsource
          rw [hevents]
          exact ⟨rfl, rfl⟩
  | ending =>
      cases hpop : ending.popFirst? with
      | none =>
          unfold OrderedMap.popFirst? at hpop
          split at hpop
          next hempty => simp [heads, hempty] at hmem
          · cases hpop
      | some popped =>
          have hevents : events ⟨current, pending, currentHead, pendingHead, ending⟩ = _ :=
            timelineFrom_ending hsource hpop
          rw [hevents, take, hpop]
          exact ⟨rfl, rfl⟩

theorem next_spec (w : EventSeq) :
    w.next.1 = w.events.head? ∧ w.next.2.events = w.events.tail := by
  rw [← w.events_filled]
  unfold next
  split
  next hnone =>
    rw [w.filled_held.candidates_eq] at hnone
    have hover : w.filled.events = [] := timelineFrom_none hnone
    rw [hover]
    exact ⟨rfl, rfl⟩
  next source hsource => exact w.filled_held.take_spec hsource

/-- A walk yields the timeline of its stakers. -/
theorem yields_events (w : EventSeq) : Yields next w w.events :=
  .of_view (fun w => w.next_spec.1) (fun w => w.next_spec.2) w

end EventSeq

/-! ## The timeline of well timed stakers -/

/-- The events of a timeline: each current staker ends once, each pending one starts once and later
ends once, nothing else happens, and the events come in strictly increasing order of their places.
At one time every start comes before every end. -/
structure Timetable (current pending : List Staker) (events : List StakerEvent) : Prop where
  complete : events.Perm (stakerEvents current pending)
  later : ∀ s ∈ pending, [⟨s, true⟩, ⟨s, false⟩].Sublist events
  ordered : events.Pairwise fun a b => compare a.key b.key = .lt
  startsFirst : events.Pairwise fun a b => a.time = b.time → b.starting = true → a.starting = true

namespace WellTimed

variable {current pending : List Staker}

/-- No two events of stakers of different transactions, and no start and end of a staker, have the
same place. -/
theorem keys_apart (h : WellTimed current pending) :
    (stakerEvents current pending).Pairwise fun a b => a.key ≠ b.key := by
  have hkey : ∀ {a b : StakerEvent}, a.staker.txId ≠ b.staker.txId → a.key ≠ b.key :=
    fun {a b} hne heq => hne (by rw [← a.key_txId, heq, b.key_txId])
  have hunique := h.unique
  rw [List.map_append, List.nodup_append] at hunique
  obtain ⟨_, _, hacross⟩ := hunique
  have hstaker : ∀ {s : Staker} {e : StakerEvent},
      e ∈ [(⟨s, true⟩ : StakerEvent), ⟨s, false⟩] → e.staker = s := by
    rintro s e he
    rcases List.mem_pair.mp he with rfl | rfl <;> rfl
  refine List.pairwise_append.mpr ⟨?_, List.pairwise_flatMap.mpr ⟨fun s hs => ?_, ?_⟩, ?_⟩
  · exact List.pairwise_map.mpr ((List.pairwise_map.mp h.unique_current).imp hkey)
  · refine List.pairwise_pair.mpr fun heq => ?_
    have htime : s.startTime = s.endTime := congrArg StakerKey.nextTime heq
    exact UInt64.ne_of_lt (h.starts s hs).2.2 htime
  · refine (List.pairwise_map.mp h.unique_pending).imp fun hne a ha b hb => hkey ?_
    rwa [hstaker ha, hstaker hb]
  · intro a ha b hb
    obtain ⟨s, hs, rfl⟩ := List.mem_map.mp ha
    obtain ⟨t, ht, hb⟩ := List.mem_flatMap.mp hb
    refine hkey ?_
    rw [hstaker hb]
    exact hacross _ (List.mem_map_of_mem hs) _ (List.mem_map_of_mem ht)

theorem timetable (h : WellTimed current pending)
    (hcurrent : current.Pairwise fun a b => a.notAfter b = true)
    (hpending : pending.Pairwise fun a b => a.notAfter b = true) :
    Timetable current pending (timeline current pending) := by
  have hranked := h.ranked hcurrent hpending
  have hevents := hranked.foretells
  rw [show (OrderedMap.empty : StakerTree).values = [] from rfl, List.append_nil] at hevents
  have hapart := (hevents.perm.pairwise_iff fun hne => Ne.symm hne).mpr h.keys_apart
  refine ⟨hevents.perm, fun s hs => hevents.start_then_end hs, ?_, ?_⟩
  · exact (hranked.keys_ordered.and hapart).imp fun hplaces =>
      OrderedMap.compare_lt_of_ne_gt hplaces.2 hplaces.1
  · refine hranked.ordered.imp fun {a b} hprecedes heq => ?_
    rcases hprecedes with hlt | ⟨_, hstarts⟩
    · rw [heq] at hlt
      exact absurd hlt (UInt64.lt_irrefl _)
    · exact hstarts

end WellTimed

/-- A walk over current and pending stakers yields their timeline, and this is the whole timetable
of the stakers, in strict order. -/
theorem EventSeq.yields_timeline (htimed : WellTimed current.toList pending.toList)
    (hcurrent : current.toList.Pairwise fun a b => a.notAfter b = true)
    (hpending : pending.toList.Pairwise fun a b => a.notAfter b = true) :
    Yields EventSeq.next (.start current pending) (timeline current.toList pending.toList) ∧
      Timetable current.toList pending.toList (timeline current.toList pending.toList) :=
  ⟨(EventSeq.start current pending).yields_events, htimed.timetable hcurrent hpending⟩

/-- A pending delegator. -/
def startingStaker (word startTime endTime : UInt64) : Staker :=
  { (default : Staker) with
    txId := .ofWord word
    startTime := startTime
    endTime := endTime
    nextTime := startTime
    priority := .primaryNetworkDelegatorPending }

theorem EventSeq.yields_timeline_turning :
    let current := StakerSeq.ofTree (.ofStakers [endingStaker 1 10 200])
    let pending :=
      StakerSeq.ofTree (.ofStakers [startingStaker 2 200 300, startingStaker 3 200 250])
    let events : List StakerEvent :=
      [⟨startingStaker 2 200 300, true⟩, ⟨startingStaker 3 200 250, true⟩,
        ⟨endingStaker 1 10 200, false⟩, ⟨startingStaker 3 200 250, false⟩,
        ⟨startingStaker 2 200 300, false⟩]
    WellTimed current.toList pending.toList ∧ Yields EventSeq.next (.start current pending) events ∧
      Timetable current.toList pending.toList events := by
  intro current pending events
  have htimed : WellTimed current.toList pending.toList :=
    ⟨by decide +kernel, by decide +kernel, by decide +kernel⟩
  have hevents : timeline current.toList pending.toList = events := by decide +kernel
  have h := EventSeq.yields_timeline htimed (by decide +kernel) (by decide +kernel)
  rw [hevents] at h
  exact ⟨htimed, h⟩

end StakingLedger
