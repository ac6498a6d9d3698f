import StakingLedger.Staker.Sequence

/-! # The timeline of a staker set

Fed with the current and the pending stakers of one validator, the timeline
lists every future change of their weight: a pending staker starts and later
ends, a current one ends. At the end of its period a staker counts with its
current priority, so that at one time the starts come before the ends.
-/

namespace StakingLedger

/-- One change on a timeline. -/
structure StakerEvent where
  staker : Staker
  /-- The staker starts; otherwise it ends. -/
  starting : Bool
  deriving DecidableEq

/-- When the change takes place. -/
def StakerEvent.time (event : StakerEvent) : UInt64 :=
  if event.starting then event.staker.startTime else event.staker.endTime

/-- The place on a timeline at which a staker ends. -/
def Staker.endKey (s : Staker) : StakerKey := ⟨s.endTime, s.priority.toCurrent, s.txId⟩

/-- Which of the three sources of a timeline moves next. -/
inductive EventSource where
  | current
  | pending
  | ending
  deriving DecidableEq

/-- The source with the least key; of equal keys the first source counts. -/
def earliest : List (StakerKey × EventSource) → Option EventSource
  | [] => none
  | first :: rest =>
    some (rest.foldl (fun best next => if compare next.1 best.1 = .lt then next else best) first).2

/-- The events of the current and the pending stakers, when the stakers in `ending` have already
started. -/
def timelineFrom (current pending : List Staker) (ending : StakerTree) : List StakerEvent :=
  let candidates :=
    (current.head?.map fun s => (s.key, EventSource.current)).toList ++
    (pending.head?.map fun s => (s.key, EventSource.pending)).toList ++
    (ending.entries.head?.map fun e => (e.1, EventSource.ending)).toList
  match earliest candidates with
  | none => []
  | some .current =>
    match current with
    | [] => []
    | s :: rest => ⟨s, false⟩ :: timelineFrom rest pending ending
  | some .pending =>
    match pending with
    | [] => []
    | s :: rest => ⟨s, true⟩ :: timelineFrom current rest (ending.insert s.endKey s)
  | some .ending =>
    match _h : ending.popFirst? with
    | none => []
    | some (e, rest) => ⟨e.2, false⟩ :: timelineFrom current pending rest
termination_by current.length + 2 * pending.length + ending.size
decreasing_by
  · simp only [List.length_cons]; omega
  · have hsize := OrderedMap.size_insert_le ending s.endKey s
    simp only [List.length_cons]; omega
  · have hsize := OrderedMap.size_of_popFirst? _h
    omega

/-- Every future change of a set of current and pending stakers, in order. -/
def timeline (current pending : List Staker) : List StakerEvent :=
  timelineFrom current pending .empty

end StakingLedger
