import StakingLedger.Proofs.OrderedMap.Lookup
import StakingLedger.Proofs.Staker.KeyOrder
import StakingLedger.Staker.Timeline

/-! # The events of a timeline

A timeline takes the stakers that have started to their ends and the pending ones
first to their starts, always with the next change in time. So when an event takes
place, no staker that is still pending starts before it.
-/

namespace StakingLedger

/-- The events are those of some running and pending stakers: a running one ends, or a pending one
starts and then runs, and nobody who is still pending starts before. -/
inductive Foretells : List Staker → List Staker → List StakerEvent → Prop
  | finished : Foretells [] [] []
  | ends {running running' pending : List Staker} {s : Staker} {rest : List StakerEvent}
    (hrunning : running.Perm (s :: running'))
    (hfirst : ∀ p ∈ pending, s.endTime ≤ p.startTime) (h : Foretells running' pending rest) :
    Foretells running pending (⟨s, false⟩ :: rest)
  | starts {running running' pending : List Staker} {s : Staker} {rest : List StakerEvent}
    (hrunning : running'.Perm (s :: running))
    (hfirst : ∀ p ∈ pending, s.startTime ≤ p.startTime) (h : Foretells running' pending rest) :
    Foretells running (s :: pending) (⟨s, true⟩ :: rest)

/-! ## The next event -/

/-- What is left of some candidates is one of them and has the least key. -/
theorem foldl_earlier (best : StakerKey × EventSource) (rest : List (StakerKey × EventSource)) :
    rest.foldl (fun best next => if compare next.1 best.1 = .lt then next else best) best ∈
        best :: rest ∧
      ∀ e ∈ best :: rest, compare (rest.foldl
        (fun best next => if compare next.1 best.1 = .lt then next else best) best).1 e.1 ≠ .gt := by
  -- By induction on the candidates that are left, for whatever candidate is best so far.
  induction rest generalizing best with
  | nil =>
      refine ⟨List.mem_cons_self, fun e he => ?_⟩
      have hself : compare best.1 best.1 = .eq := Std.ReflCmp.compare_self
      rw [List.mem_singleton.mp he, List.foldl_nil, hself]
      decide
  | cons next rest ih =>
      rw [List.foldl_cons]
      split
      next hlt =>
        obtain ⟨hmem, hleast⟩ := ih next
        refine ⟨List.mem_cons_of_mem _ hmem, fun e he => ?_⟩
        rcases List.mem_cons.mp he with rfl | he
        · exact StakerKey.compare_trans (hleast next List.mem_cons_self) (by rw [hlt]; decide)
        · exact hleast e he
      next hnot =>
        obtain ⟨hmem, hleast⟩ := ih best
        have hbest : compare best.1 next.1 ≠ .gt := fun hgt => hnot (Std.OrientedCmp.lt_of_gt hgt)
        refine ⟨?_, fun e he => ?_⟩
        · rcases List.mem_cons.mp hmem with heq | hmem
          · rw [heq]
            exact List.mem_cons_self
          · exact List.mem_cons_of_mem _ (List.mem_cons_of_mem _ hmem)
        · rcases List.mem_cons.mp he with rfl | he
          · exact hleast e List.mem_cons_self
          rcases List.mem_cons.mp he with rfl | he
          · exact StakerKey.compare_trans (hleast best List.mem_cons_self) hbest
          · exact hleast e (List.mem_cons_of_mem _ he)

/-- The source that moves next has the least key. -/
theorem earliest_spec {candidates : List (StakerKey × EventSource)} {source : EventSource}
    (h : earliest candidates = some source) :
    ∃ key, (key, source) ∈ candidates ∧ ∀ e ∈ candidates, compare key e.1 ≠ .gt := by
  cases candidates with
  | nil => cases h
  | cons first rest =>
      cases h
      obtain ⟨hmem, hleast⟩ := foldl_earlier first rest
      exact ⟨_, hmem, hleast⟩

/-! ## The whole timeline -/

theorem OrderedMap.entries_of_popFirst? {α β : Type} [Ord α] {m rest : OrderedMap α β} {e : α × β}
    (h : m.popFirst? = some (e, rest)) : m.entries = e :: rest.entries := by
  unfold popFirst? at h
  split at h
  · cases h
  next hentries =>
    cases h
    exact hentries

/-- A new entry joins the others. -/
theorem OrderedMap.insertEntry_perm {α β : Type} [Ord α] {k : α} {v : β} {l : List (α × β)}
    (hnew : ∀ e ∈ l, compare k e.1 ≠ .eq) : (insertEntry k v l).Perm ((k, v) :: l) := by
  induction l with
  | nil => exact .refl _
  | cons e rest ih =>
      unfold insertEntry
      split
      · exact .refl _
      next heq => exact absurd heq (hnew e List.mem_cons_self)
      · exact ((ih fun e he => hnew e (List.mem_cons_of_mem _ he)).cons e).trans (.swap _ _ _)

/-- Walks over the current and the pending stakers of a validator, with those that have started. -/
structure Upcoming (current pending : List Staker) (ending : StakerTree) : Prop where
  ends : ∀ s ∈ current, s.nextTime = s.endTime
  starts : ∀ s ∈ pending, s.nextTime = s.startTime
  sorted : pending.Pairwise fun a b => a.nextTime ≤ b.nextTime
  keyed : ∀ e ∈ ending.entries, e.1 = e.2.endKey
  apart : (pending ++ ending.values).Pairwise fun a b => a.txId ≠ b.txId

variable {current pending : List Staker} {ending : StakerTree} {s : Staker}

/-- The keys among which the next event is chosen. -/
def heads (current pending : List Staker) (ending : StakerTree) : List (StakerKey × EventSource) :=
  (current.head?.map fun s => (s.key, EventSource.current)).toList ++
    (pending.head?.map fun s => (s.key, EventSource.pending)).toList ++
    (ending.entries.head?.map fun e => (e.1, EventSource.ending)).toList

namespace Upcoming

/-- Nobody who is pending starts before the next event. -/
theorem next (h : Upcoming current pending ending) {source : EventSource}
    (hsource : earliest (heads current pending ending) = some source) :
    ∃ key, (key, source) ∈ heads current pending ending ∧
      ∀ p ∈ pending, key.nextTime ≤ p.startTime := by
  obtain ⟨key, hmem, hleast⟩ := earliest_spec hsource
  refine ⟨key, hmem, fun p hp => ?_⟩
  rw [← h.starts p hp]
  -- The pending walk is sorted, so it is enough to look at its head, which is a candidate.
  cases pending with
  | nil => cases hp
  | cons first rest =>
      have hfirst : key.nextTime ≤ first.nextTime :=
        StakerKey.nextTime_le (hleast (first.key, .pending) (by simp [heads]))
      rcases List.mem_cons.mp hp with rfl | hp
      · exact hfirst
      · exact UInt64.le_trans hfirst ((List.pairwise_cons.mp h.sorted).1 p hp)

theorem values_insert (h : Upcoming current (s :: pending) ending) :
    (ending.insert s.endKey s).values.Perm (s :: ending.values) := by
  refine (OrderedMap.insertEntry_perm fun e he => ?_).map Prod.snd
  refine OrderedMap.compare_ne_eq_of_ne fun heq => ?_
  have happart := (List.pairwise_cons.mp h.apart).1 e.2
    (List.mem_append_right _ (List.mem_map_of_mem he))
  rw [h.keyed e he] at heq
  exact happart (congrArg StakerKey.txId heq)

/-- The first pending staker starts. -/
theorem start (h : Upcoming current (s :: pending) ending) :
    Upcoming current pending (ending.insert s.endKey s) where
  ends := h.ends
  starts p hp := h.starts p (List.mem_cons_of_mem _ hp)
  sorted := (List.pairwise_cons.mp h.sorted).2
  keyed e he := by
    rcases OrderedMap.mem_insertEntry he with rfl | he
    · rfl
    · exact h.keyed e he
  apart := by
    have hperm : (s :: pending ++ ending.values).Perm
        (pending ++ (ending.insert s.endKey s).values) :=
      List.perm_middle.symm.trans (h.values_insert.symm.append_left pending)
    exact hperm.pairwise h.apart Ne.symm

/-- The first current staker ends. -/
theorem stop (h : Upcoming (s :: current) pending ending) : Upcoming current pending ending where
  ends t ht := h.ends t (List.mem_cons_of_mem _ ht)
  starts := h.starts
  sorted := h.sorted
  keyed := h.keyed
  apart := h.apart

/-- The first of those that have started ends. -/
theorem pop (h : Upcoming current pending ending) {e : StakerKey × Staker} {rest : StakerTree}
    (hentries : ending.entries = e :: rest.entries) : Upcoming current pending rest where
  ends := h.ends
  starts := h.starts
  sorted := h.sorted
  keyed x hx := h.keyed x (by rw [hentries]; exact List.mem_cons_of_mem _ hx)
  apart := by
    have hvalues : ending.values = e.2 :: rest.values := by rw [OrderedMap.values, hentries]; rfl
    have happart := h.apart
    rw [hvalues] at happart
    exact happart.sublist ((List.sublist_cons_self _ _).append_left _)

/-- A timeline foretells what becomes of its stakers. -/
theorem foretells (h : Upcoming current pending ending) :
    Foretells (current ++ ending.values) pending (timelineFrom current pending ending) := by
  fun_induction timelineFrom current pending ending with
  | case1 current pending ending candidates hnone =>
      have hempty : heads current pending ending = [] := by
        change earliest (heads current pending ending) = none at hnone
        cases hheads : heads current pending ending with
        | nil => rfl
        | cons => rw [hheads] at hnone; cases hnone
      cases current <;> cases pending <;> simp [heads] at hempty
      simp [OrderedMap.values, hempty, Foretells.finished]
  | case2 pending ending candidates hsource =>
      obtain ⟨key, hmem, _⟩ := h.next hsource
      simp [heads] at hmem
  | case3 pending ending s rest candidates hsource ih =>
      obtain ⟨key, hmem, hleast⟩ := h.next hsource
      obtain rfl : key = s.key := by simpa [heads] using hmem
      refine .ends (.refl _) (fun p hp => ?_) (ih h.stop)
      rw [← h.ends s List.mem_cons_self]
      exact hleast p hp
  | case4 current ending candidates hsource =>
      obtain ⟨key, hmem, _⟩ := h.next hsource
      simp [heads] at hmem
  | case5 current ending s rest candidates hsource ih =>
      -- A start also adds the end of the staker to the tree.
      have hrunning := (h.values_insert.append_left current).trans List.perm_middle
      refine .starts hrunning (fun p hp => ?_) (ih h.start)
      rw [← h.starts s List.mem_cons_self, ← h.starts p (List.mem_cons_of_mem _ hp)]
      exact (List.pairwise_cons.mp h.sorted).1 p hp
  | case6 current pending ending candidates hsource hnone =>
      obtain ⟨key, hmem, _⟩ := h.next hsource
      unfold OrderedMap.popFirst? at hnone
      split at hnone
      next hempty => simp [heads, hempty] at hmem
      · cases hnone
  | case7 current pending ending candidates hsource e rest hpop ih =>
      have hentries := OrderedMap.entries_of_popFirst? hpop
      obtain ⟨key, hmem, hleast⟩ := h.next hsource
      obtain rfl : key = e.1 := by simpa [heads, hentries] using hmem
      have hrunning : (current ++ ending.values).Perm (e.2 :: (current ++ rest.values)) := by
        rw [OrderedMap.values, hentries]
        exact List.perm_middle
      refine .ends hrunning (fun p hp => ?_) (ih (h.pop hentries))
      have hkey := h.keyed e (by rw [hentries]; exact List.mem_cons_self)
      rw [hkey] at hleast
      exact hleast p hp

end Upcoming

end StakingLedger
