import StakingLedger.Staker.Timeline

/-! # Walks over a timeline

The events of two staker sequences are met one at a time, without listing either
sequence first. Of both sides one staker is held ahead, and the end of a staker
that has started waits for its turn among the others.
-/

namespace StakingLedger

/-- A walk over the events of current and pending stakers, possibly under way. -/
structure EventSeq where
  current : StakerSeq
  pending : StakerSeq
  /-- The staker already taken from the current ones, if its end is not yet met. -/
  currentHead : Option Staker
  /-- The staker already taken from the pending ones, if its start is not yet met. -/
  pendingHead : Option Staker
  /-- The stakers that have started, by the place at which they end. -/
  ending : StakerTree

namespace EventSeq

/-- The walk over the events of two sequences, from the beginning. -/
def start (current pending : StakerSeq) : EventSeq := ⟨current, pending, none, none, .empty⟩

/-- The head of a side, or else what its walk meets next, and what is left of the walk. -/
def refill (head : Option Staker) (walk : StakerSeq) : Option Staker × StakerSeq :=
  match head with
  | some s => (some s, walk)
  | none => walk.next

/-- The walk with a staker held ahead on both sides, as far as there is one. -/
def filled (events : EventSeq) : EventSeq :=
  let current := refill events.currentHead events.current
  let pending := refill events.pendingHead events.pending
  ⟨current.2, pending.2, current.1, pending.1, events.ending⟩

/-- The keys among which the next event is chosen. -/
def candidates (events : EventSeq) : List (StakerKey × EventSource) :=
  (events.currentHead.map fun s => (s.key, EventSource.current)).toList ++
    (events.pendingHead.map fun s => (s.key, EventSource.pending)).toList ++
    (events.ending.entries.head?.map fun e => (e.1, EventSource.ending)).toList

/-- Meets the event of a source. -/
def take (events : EventSeq) : EventSource → Option StakerEvent × EventSeq
  | .current =>
    (events.currentHead.map fun s => ⟨s, false⟩, { events with currentHead := none })
  | .pending =>
    match events.pendingHead with
    | none => (none, events)
    | some s =>
      (some ⟨s, true⟩,
        { events with pendingHead := none, ending := events.ending.insert s.endKey s })
  | .ending =>
    match events.ending.popFirst? with
    | none => (none, events)
    | some (e, rest) => (some ⟨e.2, false⟩, { events with ending := rest })

/-- The next event of a walk, or `none` at its end, and the walk that is left. -/
def next (events : EventSeq) : Option StakerEvent × EventSeq :=
  match earliest events.filled.candidates with
  | none => (none, events.filled)
  | some source => events.filled.take source

end EventSeq

end StakingLedger
