import StakingLedger.Proofs.Ledger.Folding
import StakingLedger.Proofs.Operation.Planning
import StakingLedger.Proofs.Operation.Upheld
import StakingLedger.Proofs.Staker.KeyOrder

/-! # Moves of time as writes

A plan is applied as promotions, then retirements, then balances and the new
time. The promotions move just the pending stakers that are due, and the
retirements take just the permissioned current ones. Since time never moves past
the next change of a staker, those that are due change state at the new time.
-/

namespace StakingLedger

open TimeAdvance

variable {l : Ledger} {c : Contents} {rewards : RewardPolicy} {plan : TimeAdvance} {time : UInt64}
  {phase : Phase} {sequence : StakerSeq} {promotions : List Promotion} {retirements : List Staker}
  {s t : Staker} {book : Book}

/-! ## Stakers that are due -/

/-- The staker is among those that the ledger answers for a phase. -/
def Ledger.Has (l : Ledger) (phase : Phase) (s : Staker) : Prop :=
  ∃ sequence, l.stakers phase = .ok sequence ∧ s ∈ sequence.toList

namespace View.Shows

/-- A walk that a ledger answers enumerates the stakers that it shows. -/
theorem enumerates (h : l.view.Shows c) (hread : l.stakers phase = .ok sequence) :
    Enumerates sequence.toList Staker.key (c.stakers phase) := by
  have hview : l.view.stakers phase = .ok sequence.toList := by
    rw [← sequence.walkAll_eq_toList]
    exact map_eq_ok_iff.mpr ⟨sequence, hread, rfl⟩
  obtain ⟨held, hheld, hmembers⟩ := h.stakers phase
  rw [hview] at hheld
  cases hheld
  exact hmembers

theorem mem_dueBy_iff (h : l.view.Shows c) (hread : l.stakers phase = .ok sequence)
    (time : UInt64) :
    s ∈ Ledger.dueBy sequence time ↔ s ∈ c.stakers phase ∧ s.nextTime ≤ time :=
  (h.enumerates hread).mem_due_iff time

theorem nodup_dueBy (h : l.view.Shows c) (hread : l.stakers phase = .ok sequence)
    (time : UInt64) : (Ledger.dueBy sequence time).Nodup :=
  (h.enumerates hread).nodup.sublist (List.takeWhile_sublist _)

end View.Shows

namespace Ledger.Upholds

/-- A walk that a ledger answers enumerates the stakers of its contents. -/
theorem enumerates (h : l.Upholds c) (hread : l.stakers phase = .ok sequence) :
    Enumerates sequence.toList Staker.key (c.stakers phase) :=
  h.shows.enumerates hread

theorem exists_stakers (h : l.Upholds c) (phase : Phase) :
    ∃ sequence, l.stakers phase = .ok sequence := by
  obtain ⟨held, hheld, _⟩ := h.shows.stakers phase
  obtain ⟨sequence, hread, _⟩ := map_eq_ok_iff.mp hheld
  exact ⟨sequence, hread⟩

theorem has_iff (h : l.Upholds c) {phase : Phase} :
    l.Has phase s ↔ s ∈ c.stakers phase := by
  constructor
  · rintro ⟨sequence, hread, hs⟩
    exact ((h.enumerates hread).mem_iff s).mp hs
  · intro hs
    obtain ⟨sequence, hread⟩ := h.exists_stakers phase
    exact ⟨sequence, hread, ((h.enumerates hread).mem_iff s).mpr hs⟩

theorem mem_dueBy_iff (h : l.Upholds c) (hread : l.stakers phase = .ok sequence) (time : UInt64) :
    s ∈ dueBy sequence time ↔ s ∈ c.stakers phase ∧ s.nextTime ≤ time :=
  h.shows.mem_dueBy_iff hread time

end Ledger.Upholds

/-! ## Series of promotions and retirements -/

namespace Contents

/-- The promotions move different pending stakers. -/
structure Promotable (c : Contents) (promotions : List Promotion) : Prop where
  waiting : ∀ p ∈ promotions, p.pending ∈ c.stakers .pending
  apart : (promotions.map Promotion.pending).Nodup
  promotes : ∀ p ∈ promotions, Promotes p

/-- Two promotions of one transaction are one. -/
theorem Promotable.eq_of_txId (h : c.Promotable promotions)
    (hinj : (c.stakers .pending).InjOn Staker.txId) {p q : Promotion} (hp : p ∈ promotions)
    (hq : q ∈ promotions) (heq : p.current.txId = q.current.txId) : p = q := by
  rw [(h.promotes p hp).txId_eq, (h.promotes q hq).txId_eq] at heq
  exact List.inj_on_of_nodup_map h.apart hp hq (hinj (h.waiting p hp) (h.waiting q hq) heq)

/-- What is left to promote is so after the first promotion. -/
theorem Promotable.rest {p : Promotion} (h : c.Promotable (p :: promotions)) :
    (c.writeAll (promotionWrites p)).Promotable promotions where
  waiting q hq := by
    obtain ⟨s, reward, rfl, _⟩ := (h.promotes _ List.mem_cons_self).eq_promoted
    have hne : q.pending ≠ s := fun heq =>
      (List.nodup_cons.mp h.apart).1 (List.mem_map.mpr ⟨q, hq, heq⟩)
    rw [writeAll_promotionWrites]
    exact mem_stakers_insert.mpr (Or.inr (mem_stakers_delete.mpr
      ⟨h.waiting q (List.mem_cons_of_mem _ hq), fun _ => hne⟩))
  apart := (List.nodup_cons.mp h.apart).2
  promotes q hq := h.promotes q (List.mem_cons_of_mem _ hq)

/-- The retirements are of different current stakers. -/
structure Retirable (c : Contents) (retirements : List Staker) : Prop where
  present : ∀ s ∈ retirements, s ∈ c.stakers .current
  apart : retirements.Nodup

theorem Retirable.rest (h : c.Retirable (s :: retirements)) :
    (c.write (.delete .current s)).Retirable retirements where
  present t ht := by
    rw [write_delete]
    exact mem_stakers_delete.mpr ⟨h.present t (List.mem_cons_of_mem _ ht),
      fun _ heq => (List.nodup_cons.mp h.apart).1 (heq ▸ ht)⟩
  apart := (List.nodup_cons.mp h.apart).2

/-- Promotions empty the pending set of their stakers and fill the current set with others. -/
theorem mem_stakers_promotions (hpromotes : ∀ p ∈ promotions, Promotes p) :
    (t ∈ (c.writeAll (promotions.flatMap promotionWrites)).stakers .pending ↔
      t ∈ c.stakers .pending ∧ t ∉ promotions.map Promotion.pending) ∧
    (t ∈ (c.writeAll (promotions.flatMap promotionWrites)).stakers .current ↔
      t ∈ c.stakers .current ∨ t ∈ promotions.map Promotion.current) := by
  induction promotions generalizing c with
  | nil => simp [writeAll]
  | cons p rest ih =>
      obtain ⟨s, reward, rfl, _⟩ := (hpromotes _ List.mem_cons_self).eq_promoted
      obtain ⟨hpending, hcurrent⟩ := ih (c := c.writeAll (promotionWrites ⟨s, s.promoted reward⟩))
        fun q hq => hpromotes q (List.mem_cons_of_mem _ hq)
      rw [List.flatMap_cons, writeAll_append, hpending, hcurrent, writeAll_promotionWrites,
        mem_stakers_insert, mem_stakers_insert, mem_stakers_delete, mem_stakers_delete]
      simp only [List.map_cons, List.mem_cons, reduceCtorEq, false_and, false_or, true_and,
        false_implies, and_true, not_or, forall_const]
      exact ⟨and_assoc, or_assoc.trans or_left_comm⟩

theorem mem_stakers_retirements :
    (t ∈ (c.writeAll (retirements.map (.delete .current))).stakers .pending ↔
      t ∈ c.stakers .pending) ∧
    (t ∈ (c.writeAll (retirements.map (.delete .current))).stakers .current ↔
      t ∈ c.stakers .current ∧ t ∉ retirements) := by
  induction retirements generalizing c with
  | nil => simp [writeAll]
  | cons s rest ih =>
      obtain ⟨hpending, hcurrent⟩ := ih (c := c.write (.delete .current s))
      rw [List.map_cons, List.mem_cons]
      change (t ∈ ((c.write _).writeAll _).stakers _ ↔ _) ∧
        (t ∈ ((c.write _).writeAll _).stakers _ ↔ _)
      rw [hpending, hcurrent, write_delete, mem_stakers_delete, mem_stakers_delete]
      simp only [reduceCtorEq, false_implies, and_true, forall_const, not_or, true_and]
      exact and_assoc

/-- Promotions keep to the contract towards current stakers with one validator in a slot. -/
theorem accepts_promotions {held : Set Staker} (hslots : OneValidatorPerSlot held)
    (hrecorded : held ⊆ book.records .current) (hwithin : c.stakers .current ⊆ held)
    (hpromotable : c.Promotable promotions) (hapart : (promotions.map Promotion.current).Nodup)
    (hnew : ∀ p ∈ promotions, p.current ∈ held ∧ p.current ∉ c.stakers .current) :
    c.Accepts (Allows book) (promotions.flatMap promotionWrites) := by
  -- The current set grows within `held`, where a slot has one validator.
  induction promotions generalizing c with
  | nil => trivial
  | cons p rest ih =>
      obtain ⟨s, reward, rfl, _⟩ := (hpromotable.promotes _ List.mem_cons_self).eq_promoted
      obtain ⟨hheld, habsent⟩ := hnew _ List.mem_cons_self
      obtain ⟨hfirst, hrest⟩ := List.nodup_cons.mp hapart
      have hbetween : (c.write (.delete .pending s)).stakers .current = c.stakers .current := by
        rw [write_delete, updateStakers_ne _ _ (by decide)]
      have hafter : (c.writeAll (promotionWrites ⟨s, s.promoted reward⟩)).stakers .current =
          insert (s.promoted reward) (c.stakers .current) := by
        rw [writeAll_promotionWrites, updateStakers_self, updateStakers_ne _ _ (by decide)]
      rw [List.flatMap_cons, accepts_append]
      constructor
      · rw [promotionWrites_eq]
        refine ⟨allows_delete (hpromotable.waiting _ List.mem_cons_self), ?_, trivial⟩
        refine allows_put_towards hslots hrecorded ?_ hheld ?_
        · rwa [hbetween]
        · rwa [hbetween]
      · refine ih ?_ hpromotable.rest hrest fun q hq => ?_
        · rw [hafter]
          exact Set.insert_subset hheld hwithin
        · obtain ⟨hqheld, hqabsent⟩ := hnew q (List.mem_cons_of_mem _ hq)
          rw [hafter]
          refine ⟨hqheld, ?_⟩
          rintro (heq | hmem)
          · exact hfirst (List.mem_map.mpr ⟨q, hq, heq⟩)
          · exact hqabsent hmem

end Contents

namespace Ledger.Upholds

/-- Pending stakers are promoted one after the other. -/
theorem promoteAll (h : l.Upholds c) (hpromotable : c.Promotable promotions) :
    (l.writeAll (promotions.flatMap promotionWrites)).Upholds
      (c.writeAll (promotions.flatMap promotionWrites)) := by
  induction promotions generalizing l c with
  | nil => exact h
  | cons p rest ih =>
      obtain ⟨s, reward, rfl, hpermissioned⟩ := (hpromotable.promotes _ List.mem_cons_self).eq_promoted
      rw [List.flatMap_cons, writeAll_append, Contents.writeAll_append]
      exact ih (h.promote (hpromotable.waiting _ List.mem_cons_self) hpermissioned)
        hpromotable.rest

/-- Current stakers retire one after the other. -/
theorem retireAll (h : l.Upholds c) (hretirable : c.Retirable retirements) :
    (l.writeAll (retirements.map (.delete .current))).Upholds
      (c.writeAll (retirements.map (.delete .current))) := by
  induction retirements generalizing l c with
  | nil => exact h
  | cons s rest ih => exact ih (h.retire (hretirable.present s List.mem_cons_self)) hretirable.rest

end Ledger.Upholds

/-! ## A whole plan -/

namespace TimeAdvance

/-- The writes of a plan that concern stakers. -/
def stakerWrites (plan : TimeAdvance) : List Write :=
  plan.promotions.flatMap promotionWrites ++ plan.retirements.map (.delete .current)

/-- The writes of a plan after its stakers. -/
def balanceWrites (plan : TimeAdvance) : List Write :=
  plan.supplies.entries.map (fun (supernet, amount) => .setSupply supernet amount) ++
    plan.rewardPools.entries.map (fun (supernet, amount) => .setRewardPool supernet amount) ++
    [.setTimestamp plan.timestamp]

theorem writes_eq (plan : TimeAdvance) : plan.writes = plan.stakerWrites ++ plan.balanceWrites := by
  simp only [TimeAdvance.writes, stakerWrites, balanceWrites, List.append_assoc]

theorem plain_of_mem_balanceWrites (plan : TimeAdvance) {w : Write} (h : w ∈ plan.balanceWrites) :
    w.IsPlain ∧ ∀ c : Contents, c.RegistersNewChain w := by
  simp only [balanceWrites, List.mem_append, List.mem_map, List.mem_singleton] at h
  rcases h with (⟨_, _, rfl⟩ | ⟨_, _, rfl⟩) | rfl <;> exact ⟨trivial, fun _ => trivial⟩

theorem mem_writes_iff {w : Write} : w ∈ plan.writes ↔
    (∃ p ∈ plan.promotions, w ∈ promotionWrites p) ∨
      (∃ r ∈ plan.retirements, w = .delete .current r) ∨ w ∈ plan.balanceWrites := by
  rw [writes_eq, stakerWrites, List.mem_append, List.mem_append, List.mem_flatMap, List.mem_map,
    or_assoc]
  simp only [eq_comm (a := w)]

theorem registersNothing_of_mem_writes {w : Write} (hw : w ∈ plan.writes) :
    w.RegistersNothing := by
  rcases mem_writes_iff.mp hw with ⟨p, _, hw⟩ | ⟨s, _, rfl⟩ | hw
  · unfold promotionWrites at hw
    split at hw <;> rcases List.mem_pair.mp hw with rfl | rfl <;> trivial
  · exact Contents.registersNothing_delete .current s
  · simp only [balanceWrites, List.mem_append, List.mem_map, List.mem_singleton] at hw
    rcases hw with (⟨_, _, rfl⟩ | ⟨_, _, rfl⟩) | rfl <;> trivial

end TimeAdvance

namespace Contents

/-- Writes of stakers change nothing else. -/
theorem write_stakerWrites (c : Contents) {w : Write} (hw : w ∈ plan.stakerWrites) :
    c.write w = { c with stakers := (c.write w).stakers } := by
  rcases List.mem_append.mp hw with hw | hw
  · obtain ⟨_, _, hw⟩ := List.mem_flatMap.mp hw
    unfold promotionWrites at hw
    split at hw <;> rcases List.mem_pair.mp hw with rfl | rfl <;> rfl
  · obtain ⟨s, _, rfl⟩ := List.mem_map.mp hw
    rw [write_delete]
    rfl

/-- What a plan makes of the contents. -/
theorem writeAll_plan (c : Contents) (plan : TimeAdvance) :
    c.writeAll plan.writes = { c with
      stakers := (c.writeAll plan.stakerWrites).stakers
      timestamp := plan.timestamp
      supply := fun k => overlaid (plan.supplies.get? k) (c.supply k)
      rewardPool := fun k => overlaid (plan.rewardPools.get? k) (c.rewardPool k) } := by
  have hstakers : c.writeAll plan.stakerWrites =
      { c with stakers := (c.writeAll plan.stakerWrites).stakers } := by
    -- Apart from the stakers, no write of the series changes anything.
    have hsame := get_writeAll (c := c) (fun c => { c with stakers := fun _ => ∅ })
      fun w (hw : w ∈ plan.stakerWrites) c => by rw [write_stakerWrites c hw]
    exact congrArg (fun d : Contents => { d with
      stakers := (c.writeAll plan.stakerWrites).stakers }) hsame
  rw [TimeAdvance.writes_eq, writeAll_append, hstakers, balanceWrites, writeAll_append,
    writeAll_append, writeAll_supplies, writeAll_rewardPools]
  rfl

/-- The stakers after a plan. -/
theorem mem_stakers_plan (hpromotes : ∀ p ∈ plan.promotions, Promotes p) :
    (t ∈ (c.writeAll plan.writes).stakers .pending ↔
      t ∈ c.stakers .pending ∧ t ∉ plan.promotions.map Promotion.pending) ∧
    (t ∈ (c.writeAll plan.writes).stakers .current ↔
      (t ∈ c.stakers .current ∨ t ∈ plan.promotions.map Promotion.current) ∧
        t ∉ plan.retirements) := by
  obtain ⟨hpending, hcurrent⟩ := mem_stakers_promotions (c := c) (t := t) hpromotes
  rw [c.writeAll_plan, stakerWrites, writeAll_append]
  rw [mem_stakers_retirements.1, mem_stakers_retirements.2, hpending, hcurrent]
  exact ⟨Iff.rfl, Iff.rfl⟩

end Contents

namespace View.Shows

theorem promotable (h : l.view.Shows c) (hread : l.stakers .pending = .ok sequence)
    (hplans : plan.Plans time (Ledger.dueBy sequence time)) : c.Promotable plan.promotions where
  waiting _ hp := ((h.mem_dueBy_iff hread time).mp (hplans.pending ▸ List.mem_map_of_mem hp)).1
  apart := hplans.pending.symm ▸ h.nodup_dueBy hread time
  promotes := hplans.promotes

/-- A plan promotes pending stakers, and then retires permissioned ones that were current. -/
theorem of_planAdvance (h : l.view.Shows c) (hplan : l.planAdvance rewards time = .ok plan) :
    c.Promotable plan.promotions ∧
      (c.writeAll (plan.promotions.flatMap promotionWrites)).Retirable plan.retirements ∧
      ∀ s ∈ plan.retirements, s ∈ c.stakers .current ∧ s.priority.isPermissioned = true := by
  obtain ⟨pending, current, hpending, hcurrent, hplans, hretirements⟩ :=
    Ledger.plans_of_planAdvance hplan
  have hpromotable := h.promotable hpending hplans
  have hretired : ∀ s ∈ plan.retirements,
      s ∈ c.stakers .current ∧ s.priority.isPermissioned = true := by
    intro s hs
    rw [hretirements] at hs
    obtain ⟨hs, hpermissioned⟩ := List.mem_filter.mp hs
    exact ⟨((h.mem_dueBy_iff hcurrent time).mp hs).1, hpermissioned⟩
  refine ⟨hpromotable, ⟨fun s hs => ?_, ?_⟩, hretired⟩
  · exact (Contents.mem_stakers_promotions hpromotable.promotes).2.mpr (Or.inl (hretired s hs).1)
  · exact hretirements ▸ (h.nodup_dueBy hcurrent time).filter _

/-- A plan keeps to the contract towards a book that has the current stakers as they are between
the promotions and the retirements. -/
theorem accepts_plan (h : l.view.Shows c) (hplan : l.planAdvance rewards time = .ok plan)
    (hinjOn : (c.stakers .pending).InjOn Staker.txId)
    (hapart : ∀ x ∈ c.stakers .current, ∀ y ∈ c.stakers .pending, y.txId ≠ x.txId)
    (hslots : OneValidatorPerSlot
      ((c.writeAll (plan.promotions.flatMap promotionWrites)).stakers .current))
    (hrecorded : (c.writeAll (plan.promotions.flatMap promotionWrites)).stakers .current ⊆
      book.records .current) : c.Accepts (Contents.Allows book) plan.writes := by
  obtain ⟨hpromotable, hretirable, _⟩ := h.of_planAdvance hplan
  have hmem := fun t => Contents.mem_stakers_promotions (c := c) (t := t) hpromotable.promotes
  have hcurrents : (plan.promotions.map Promotion.current).Nodup :=
    (hpromotable.apart.of_map _).map_on fun p hp q hq heq =>
      hpromotable.eq_of_txId hinjOn hp hq (congrArg Staker.txId heq)
  rw [writes_eq, stakerWrites, Contents.accepts_append, Contents.accepts_append]
  refine ⟨⟨Contents.accepts_promotions hslots hrecorded (fun t ht => (hmem t).2.mpr (Or.inl ht))
    hpromotable hcurrents fun p hp => ⟨?_, fun hwas => ?_⟩, ?_⟩, ?_⟩
  · exact (hmem p.current).2.mpr (Or.inr (List.mem_map_of_mem hp))
  · exact hapart _ hwas p.pending (hpromotable.waiting p hp)
      (hpromotable.promotes p hp).txId_eq.symm
  · exact (Contents.writeAll_delete book hretirable.apart hretirable.present).1
  · exact Contents.accepts_of_forall fun w hw c =>
      (plain_of_mem_balanceWrites plan hw).1.allows book c

end View.Shows

namespace Ledger.Upholds

/-- The writes of a plan keep the records in order. -/
theorem advance (h : l.Upholds c) (hplan : l.planAdvance rewards time = .ok plan) :
    (l.writeAll plan.writes).Upholds (c.writeAll plan.writes) := by
  obtain ⟨hpromotable, hretirable, _⟩ := h.shows.of_planAdvance hplan
  have hstakers := (h.promoteAll hpromotable).retireAll hretirable
  rw [writes_eq, stakerWrites, writeAll_append, writeAll_append, Contents.writeAll_append,
    Contents.writeAll_append]
  exact hstakers.plains fun w hw => plain_of_mem_balanceWrites plan hw

end Ledger.Upholds

/-! ## The stakers after a move of time -/

/-- The staker retires by itself once its period is over. -/
def Staker.Expires (s : Staker) (time : UInt64) : Prop :=
  s.priority.isPermissioned = true ∧ s.nextTime = time

/-- Time has moved, no further than to the next change of a staker. -/
structure Contents.Advances (time : UInt64) (c c' : Contents) : Prop where
  ahead : c.timestamp ≤ time
  within : ∀ phase, ∀ s ∈ c.stakers phase, time ≤ s.nextTime
  timestamp : c'.timestamp = time
  pending : ∀ s, s ∈ c'.stakers .pending ↔ s ∈ c.stakers .pending ∧ s.nextTime ≠ time
  arrived : ∀ s ∈ c'.stakers .current, (s ∈ c.stakers .current ∧ ¬ s.Expires time) ∨
    ∃ p ∈ c.stakers .pending, p.nextTime = time ∧ ∃ reward, s = p.promoted reward
  promoted : ∀ p ∈ c.stakers .pending, p.nextTime = time →
    ∃ reward, p.promoted reward ∈ c'.stakers .current
  stayed : ∀ s ∈ c.stakers .current, ¬ s.Expires time → s ∈ c'.stakers .current
  transformation : c'.transformation = c.transformation

theorem Enumerates.head_nextTime {stakers : List Staker} {members : Set Staker}
    (h : Enumerates stakers Staker.key members) (hs : s ∈ members) :
    ∃ first, stakers.head? = some first ∧ first.nextTime ≤ s.nextTime := by
  cases stakers with
  | nil => exact absurd ((h.mem_iff s).mpr hs) List.not_mem_nil
  | cons first rest => exact ⟨first, rfl, StakerKey.nextTime_le (h.head_first rfl hs)⟩

namespace Ledger.Upholds

/-- No staker changes state before the next change. -/
theorem le_nextTime (h : l.Upholds c) {next : Option UInt64} (hnext : l.nextChangeTime = .ok next)
    (hs : s ∈ c.stakers phase) : ∃ first, next = some first ∧ first ≤ s.nextTime := by
  obtain ⟨current, hcurrent, hnext⟩ := bind_eq_ok_iff.mp hnext
  obtain ⟨pending, hpending, hnext⟩ := bind_eq_ok_iff.mp hnext
  -- The staker's own walk has a head, and the next change is not after that.
  cases phase with
  | current =>
      obtain ⟨first, hfirst, hle⟩ := (h.enumerates hcurrent).head_nextTime hs
      rw [hfirst] at hnext
      cases hother : pending.toList.head? with
      | none =>
          rw [hother] at hnext
          cases hnext
          exact ⟨_, rfl, hle⟩
      | some other =>
          rw [hother] at hnext
          cases hnext
          exact ⟨_, rfl, UInt64.le_trans Std.min_le_left hle⟩
  | pending =>
      obtain ⟨first, hfirst, hle⟩ := (h.enumerates hpending).head_nextTime hs
      rw [hfirst] at hnext
      cases hother : current.toList.head? with
      | none =>
          rw [hother] at hnext
          cases hnext
          exact ⟨_, rfl, hle⟩
      | some other =>
          rw [hother] at hnext
          cases hnext
          exact ⟨_, rfl, UInt64.le_trans Std.min_le_right hle⟩

/-- Time that is accepted is not behind, and no staker changes state before it. -/
theorem of_verifyAdvance (h : l.Upholds c) (hverify : l.verifyAdvance time = .ok ()) :
    c.timestamp ≤ time ∧ ∀ phase, ∀ s ∈ c.stakers phase, time ≤ s.nextTime := by
  unfold verifyAdvance at hverify
  dsimp only at hverify
  split at hverify
  · cases hverify
  next hahead =>
  obtain ⟨next, hnext, hverify⟩ := bind_eq_ok_iff.mp hverify
  refine ⟨?_, fun phase s hs => ?_⟩
  · rw [← h.timestamp_eq]
    exact UInt64.not_lt.mp hahead
  · obtain ⟨first, rfl, hle⟩ := h.le_nextTime hnext hs
    dsimp only at hverify
    split at hverify
    · cases hverify
    next hreached => exact UInt64.le_trans (UInt64.not_lt.mp hreached) hle

theorem txId_inj (h : l.Upholds c) (phase : Phase) : (c.stakers phase).InjOn Staker.txId := by
  obtain ⟨book, hsustains, _⟩ := h
  exact (book.injOn phase).mono ((Contains.proper hsustains).recorded phase)

/-- A staker that waits is of another transaction than the current ones. -/
theorem txId_ne (h : l.Upholds c) (hs : s ∈ c.stakers .pending) (ht : t ∈ c.stakers .current) :
    t.txId ≠ s.txId := by
  obtain ⟨book, hsustains, hstaked⟩ := h
  exact hstaked.unpromoted s hs t ((Contains.proper hsustains).recorded _ ht)

/-- No transaction has two stakers, over both phases. -/
theorem nodup_txIds (h : l.Upholds c) : ∃ current pending,
    l.stakers .current = .ok current ∧ l.stakers .pending = .ok pending ∧
      ((current.toList ++ pending.toList).map Staker.txId).Nodup := by
  obtain ⟨current, hcurrent⟩ := h.exists_stakers .current
  obtain ⟨pending, hpending⟩ := h.exists_stakers .pending
  have hcurrents := h.enumerates hcurrent
  have hpendings := h.enumerates hpending
  refine ⟨current, pending, hcurrent, hpending, List.Nodup.map_on ?_ ?_⟩
  · simp only [List.mem_append, hcurrents.mem_iff, hpendings.mem_iff]
    rintro s (hs | hs) t (ht | ht) heq
    · exact h.txId_inj .current hs ht heq
    · exact absurd heq (h.txId_ne ht hs)
    · exact absurd heq.symm (h.txId_ne hs ht)
    · exact h.txId_inj .pending hs ht heq
  · refine List.nodup_append.mpr ⟨hcurrents.nodup, hpendings.nodup, fun s hs t ht => ?_⟩
    rintro rfl
    exact h.txId_ne ((hpendings.mem_iff s).mp ht) ((hcurrents.mem_iff s).mp hs) rfl

/-- A plan for a time that is accepted moves time just to there. -/
theorem advances (h : l.Upholds c) (hverify : l.verifyAdvance time = .ok ())
    (hplan : l.planAdvance rewards time = .ok plan) : c.Advances time (c.writeAll plan.writes) := by
  obtain ⟨pending, current, hpending, hcurrent, hplans, hretirements⟩ := plans_of_planAdvance hplan
  obtain ⟨hahead, hwithin⟩ := h.of_verifyAdvance hverify
  -- Nobody changes state before the new time, so who is due by then changes just then.
  have hdue : ∀ {phase s}, s ∈ c.stakers phase → (s.nextTime ≤ time ↔ s.nextTime = time) :=
    fun hs => ⟨fun hle => UInt64.le_antisymm hle (hwithin _ _ hs), UInt64.le_of_eq⟩
  have hretired : ∀ s, s ∈ plan.retirements ↔ s ∈ c.stakers .current ∧ s.Expires time := by
    intro s
    rw [hretirements, List.mem_filter, h.mem_dueBy_iff hcurrent, and_assoc, Staker.Expires,
      and_comm (a := s.nextTime ≤ time)]
    exact and_congr_right fun hs => and_congr_right fun _ => hdue hs
  have hmoved : ∀ s, s ∈ plan.promotions.map Promotion.pending ↔
      s ∈ c.stakers .pending ∧ s.nextTime = time := by
    intro s
    rw [hplans.pending, h.mem_dueBy_iff hpending]
    exact and_congr_right hdue
  have hafter := fun s => Contents.mem_stakers_plan (c := c) (t := s) hplans.promotes
  refine ⟨hahead, hwithin, ?_, fun s => ?_, fun s hs => ?_, fun s hs htime => ?_,
    fun s hs hstays => ?_, ?_⟩
  · rw [c.writeAll_plan]
    exact hplans.timestamp
  · rw [(hafter s).1, hmoved, not_and]
    exact and_congr_right fun hs => imp_iff_right hs
  · obtain ⟨hs | hs, hstays⟩ := (hafter s).2.mp hs
    · exact Or.inl ⟨hs, fun hexpires => hstays ((hretired s).mpr ⟨hs, hexpires⟩)⟩
    · obtain ⟨p, hp, rfl⟩ := List.mem_map.mp hs
      obtain ⟨reward, hreward, _⟩ := hplans.promotes p hp
      obtain ⟨hwaiting, htime⟩ := (hmoved p.pending).mp (List.mem_map_of_mem hp)
      exact Or.inr ⟨p.pending, hwaiting, htime, reward, hreward⟩
  · obtain ⟨p, hp, rfl⟩ := List.mem_map.mp ((hmoved s).mpr ⟨hs, htime⟩)
    obtain ⟨reward, hreward, _⟩ := hplans.promotes p hp
    refine ⟨reward, hreward ▸ (hafter _).2.mpr ⟨Or.inr (List.mem_map_of_mem hp), fun hover => ?_⟩⟩
    -- Those that retire were current before, so they are of other transactions.
    have hother := h.txId_ne hs ((hretired _).mp hover).1
    rw [hreward] at hother
    exact hother rfl
  · exact (hafter s).2.mpr ⟨Or.inl hs, fun hover => hstays ((hretired s).mp hover).2⟩
  · rw [c.writeAll_plan]

end Ledger.Upholds

end StakingLedger
