import StakingLedger.Proofs.Operator.Progress
import StakingLedger.Proofs.ValidatorSet.Bearing

/-! # Stakers that follow stakers

A step takes stakers away and promotes pending ones, and it does nothing else to
them. So whatever the stakers of a root were in order about they are in order about
after the step, and the writes of the step keep to the contract. Nothing needs to be
known of the transactions behind the stakers.
-/

namespace StakingLedger

open TimeAdvance

variable {members members' : Phase → Set Staker} {c : Contents} {l l' : Ledger}
  {rewards : RewardPolicy} {plan : TimeAdvance} {promotions : List Promotion} {time : UInt64}
  {writes : List Write} {stakerTx : EntityId} {book : Book} {phase : Phase} {t x : Staker} {w : Write}

/-- The stakers of the two phases are in order: no transaction stakes twice, no two validators
share a slot, the weights of a slot can be added up, and every record has a byte form. -/
structure Orderly (members : Phase → Set Staker) : Prop where
  slots : ∀ phase, OneValidatorPerSlot (members phase)
  injOn : ∀ phase, (members phase).InjOn Staker.txId
  apart : ∀ x ∈ members .current, ∀ y ∈ members .pending, y.txId ≠ x.txId
  vacant : ∀ x ∈ members .current, ∀ y ∈ members .pending, x.isValidator = true →
    y.isValidator = true → x.slot ≠ y.slot
  bearable : Bearable {t | ∃ phase, t ∈ members phase}
  encoded : ∀ phase, ∀ t ∈ members phase, Codec.fits t = true

/-- The later stakers come of the earlier ones: whoever is pending was, and whoever is current was
or has been promoted, and is then pending no more. -/
structure Succeeds (members members' : Phase → Set Staker) : Prop where
  pending : members' .pending ⊆ members .pending
  current : ∀ t ∈ members' .current, t ∈ members .current ∨
    ∃ p ∈ members .pending, p ∉ members' .pending ∧ ∃ reward, t = p.promoted reward
  injOn : (members' .current).InjOn Staker.txId

/-- Stakers that come of different ones, of the same slot and weight, weigh no more than these. -/
theorem Bearable.of_origins {held held' : Set Staker} (h : Bearable held)
    (hinj : held'.InjOn Staker.txId)
    (horigin : ∀ t ∈ held', ∃ o ∈ held, o.txId = t.txId ∧ o.slot = t.slot ∧ o.weight = t.weight) :
    Bearable held' := by
  choose! origin horigin using horigin
  intro l slot hnodup hl
  have hweight : totalWeight (l.map origin) = totalWeight l := by
    rw [totalWeight, totalWeight, List.map_map]
    refine congrArg List.sum (List.map_congr_left fun t ht => ?_)
    rw [Function.comp_apply, (horigin t (hl t ht).1).2.2.2]
  rw [← hweight]
  refine h (l.map origin) slot (hnodup.map_on fun t ht u hu heq => ?_) fun o ho => ?_
  · apply hinj (hl t ht).1 (hl u hu).1
    rw [← (horigin t (hl t ht).1).2.1, heq, (horigin u (hl u hu).1).2.1]
  · obtain ⟨t, ht, rfl⟩ := List.mem_map.mp ho
    obtain ⟨hmem, hslot⟩ := hl t ht
    exact ⟨(horigin t hmem).1, (horigin t hmem).2.2.1.trans hslot⟩

theorem injOn_phases (hinjOn : ∀ phase, (members phase).InjOn Staker.txId)
    (hapart : ∀ x ∈ members .current, ∀ y ∈ members .pending, y.txId ≠ x.txId) :
    {t | ∃ phase, t ∈ members phase}.InjOn Staker.txId := by
  rintro x ⟨phase, hx⟩ y ⟨phase', hy⟩ heq
  cases phase <;> cases phase'
  · exact hinjOn .current hx hy heq
  · exact absurd heq.symm (hapart x hx y hy)
  · exact absurd heq (hapart y hy x hx)
  · exact hinjOn .pending hx hy heq

namespace Succeeds

/-- Every later staker comes of an earlier one. -/
theorem exists_origin (h : Succeeds members members') (ht : t ∈ members' phase) :
    ∃ o ∈ {t | ∃ phase, t ∈ members phase}, o.txId = t.txId ∧ o.slot = t.slot ∧
      o.weight = t.weight ∧ o.publicKey = t.publicKey := by
  cases phase with
  | pending => exact ⟨t, ⟨.pending, h.pending ht⟩, rfl, rfl, rfl, rfl⟩
  | current =>
      rcases h.current t ht with hwas | ⟨p, hp, _, reward, rfl⟩
      · exact ⟨t, ⟨.current, hwas⟩, rfl, rfl, rfl, rfl⟩
      · exact ⟨p, ⟨.pending, hp⟩, rfl, rfl, rfl, rfl⟩

/-- Current stakers that leave change nothing about where the others come from. -/
theorem of_fewer {middle : Phase → Set Staker} (h : Succeeds members middle)
    (hpending : ∀ t, t ∈ members' .pending ↔ t ∈ middle .pending)
    (hcurrent : members' .current ⊆ middle .current) : Succeeds members members' where
  pending t ht := h.pending ((hpending t).mp ht)
  current t ht := by
    refine (h.current t (hcurrent ht)).imp_right ?_
    rintro ⟨p, hp, hleft, hreward⟩
    exact ⟨p, hp, fun hstays => hleft ((hpending p).mp hstays), hreward⟩
  injOn := h.injOn.mono hcurrent

/-- Two current validators of a slot were both current, or both pending, or one of each. -/
theorem one_validator (h : Succeeds members members')
    (hslots : ∀ phase, OneValidatorPerSlot (members phase))
    (hvacant : ∀ x ∈ members .current, ∀ y ∈ members .pending, x.isValidator = true →
      y.isValidator = true → x.slot ≠ y.slot) : OneValidatorPerSlot (members' .current) := by
  intro x hx y hy hxv hyv hslot
  rcases h.current x hx with hwas | ⟨p, hp, _, reward, rfl⟩ <;>
    rcases h.current y hy with hwas' | ⟨q, hq, _, reward', rfl⟩
  · exact hslots .current x hwas y hwas' hxv hyv hslot
  · rw [Staker.isValidator_promoted] at hyv
    exact absurd hslot (hvacant x hwas q hq hxv hyv)
  · rw [Staker.isValidator_promoted] at hxv
    exact absurd hslot.symm (hvacant y hwas' p hp hyv hxv)
  · rw [Staker.isValidator_promoted] at hxv hyv
    have hsame : p = q := hslots .pending p hp q hq hxv hyv hslot
    apply h.injOn hx hy
    change p.txId = q.txId
    rw [hsame]

/-- The book of the stakers that have been pending before and of those that are current after. -/
def between (h : Succeeds members members') (hpending : (members .pending).InjOn Staker.txId) :
    Book where
  records
    | .current => members' .current
    | .pending => members .pending
  injOn phase := by
    cases phase with
    | current => exact h.injOn
    | pending => exact hpending

end Succeeds

namespace Orderly

/-- Whatever comes of stakers in order is in order. -/
theorem succeeds (h : Orderly members) (hsucceeds : Succeeds members members') :
    Orderly members' := by
  have hapart : ∀ x ∈ members' .current, ∀ y ∈ members' .pending, y.txId ≠ x.txId := by
    intro x hx y hy heq
    rcases hsucceeds.current x hx with hwas | ⟨p, hp, hleft, reward, rfl⟩
    · exact h.apart x hwas y (hsucceeds.pending hy) heq
    · exact hleft (h.injOn .pending (hsucceeds.pending hy) hp heq ▸ hy)
  have hinjOn : ∀ phase, (members' phase).InjOn Staker.txId := by
    intro phase
    cases phase with
    | current => exact hsucceeds.injOn
    | pending => exact (h.injOn .pending).mono hsucceeds.pending
  -- A promoted validator was the only pending one of its slot, and has left.
  have hvacant : ∀ x ∈ members' .current, ∀ y ∈ members' .pending, x.isValidator = true →
      y.isValidator = true → x.slot ≠ y.slot := by
    intro x hx y hy hxv hyv hslot
    rcases hsucceeds.current x hx with hwas | ⟨p, hp, hleft, reward, rfl⟩
    · exact h.vacant x hwas y (hsucceeds.pending hy) hxv hyv hslot
    · rw [Staker.isValidator_promoted] at hxv
      exact hleft (h.slots .pending p hp y (hsucceeds.pending hy) hxv hyv hslot ▸ hy)
  exact {
    slots := fun phase => by
      cases phase with
      | current => exact hsucceeds.one_validator h.slots h.vacant
      | pending => exact (h.slots .pending).subset hsucceeds.pending
    injOn := hinjOn
    apart := hapart
    vacant := hvacant
    bearable := h.bearable.of_origins (injOn_phases hinjOn hapart) fun t ⟨phase, ht⟩ => by
      obtain ⟨o, ho, htx, hslot, hweight, _⟩ := hsucceeds.exists_origin ht
      exact ⟨o, ho, htx, hslot, hweight⟩
    encoded := fun phase t ht => by
      obtain ⟨o, ⟨phase', ho⟩, _, _, _, hkey⟩ := hsucceeds.exists_origin ht
      rw [Staker.fits_iff, ← hkey]
      exact Staker.fits_iff.mp (h.encoded phase' o ho) }

end Orderly

/-! ## The writes of a step -/

theorem Write.LeavesStakers.allows (h : w.LeavesStakers) (book : Book) (c : Contents) :
    c.Allows book w := by
  cases w with
  | putValidator | deleteValidator | putDelegator | deleteDelegator => exact h.elim
  | _ => trivial

theorem Write.LeavesStakers.stakers_write (h : w.LeavesStakers) (c : Contents) :
    (c.write w).stakers = c.stakers := by
  cases w with
  | putValidator | deleteValidator | putDelegator | deleteDelegator => exact h.elim
  | _ => rfl

theorem Rewards.registersNothing (h : Rewards stakerTx x l writes) (hw : w ∈ writes) :
    w.RegistersNothing := by
  cases h with
  | nothing => cases hw
  | paid => rcases List.mem_pair.mp hw with rfl | rfl <;> trivial
  | forfeited =>
      rw [List.mem_singleton.mp hw]
      trivial

namespace Contents

/-- The writes keep to the contract, given a book with the stakers that there are; they register
nothing, and the stakers after them come of those before. -/
structure KeepsOrder (c : Contents) (writes : List Write) : Prop where
  accepted : ∃ book : Book, (∀ phase, c.stakers phase ⊆ book.records phase) ∧
    c.Accepts (Allows book) writes
  succeeds : Succeeds c.stakers (c.writeAll writes).stakers
  registersNothing : ∀ w ∈ writes, w.RegistersNothing

/-- A claim takes one staker away. -/
theorem keepsOrder_claim (h : Orderly c.stakers) (hcurrent : x ∈ c.stakers .current)
    (hrewards : Rewards stakerTx x l writes) : c.KeepsOrder (.delete .current x :: writes) := by
  have hafter : (c.writeAll (.delete .current x :: writes)).stakers =
      (c.updateStakers .current (· \ {x})).stakers := by
    rw [writeAll_retire]
    exact get_writeAll (·.stakers) fun w hw c => (hrewards.leavesStakers hw).stakers_write c
  refine ⟨⟨⟨c.stakers, h.injOn⟩, fun _ => subset_rfl, allows_delete hcurrent, ?_⟩, ?_, fun w hw => ?_⟩
  · exact accepts_of_forall fun w hw c => (hrewards.leavesStakers hw).allows _ c
  · rw [hafter]
    refine ⟨?_, fun t ht => ?_, ?_⟩
    · rw [updateStakers_ne _ _ (by decide)]
    · rw [updateStakers_self] at ht
      exact Or.inl ht.1
    · rw [updateStakers_self]
      exact (h.injOn .current).mono Set.sdiff_subset
  · rcases List.mem_cons.mp hw with rfl | hw
    · exact registersNothing_delete .current x
    · exact hrewards.registersNothing hw

/-- After its promotions a plan has current stakers that come of those before. -/
theorem succeeds_promotions (hinjOn : ∀ phase, (c.stakers phase).InjOn Staker.txId)
    (hunmet : ∀ x ∈ c.stakers .current, ∀ y ∈ c.stakers .pending, y.txId ≠ x.txId)
    (hpromotable : c.Promotable promotions) :
    Succeeds c.stakers (c.writeAll (promotions.flatMap promotionWrites)).stakers := by
  have hmem := fun t => mem_stakers_promotions (c := c) (t := t) hpromotable.promotes
  have hcurrent : ∀ t ∈ (c.writeAll (promotions.flatMap promotionWrites)).stakers .current,
      t ∈ c.stakers .current ∨ ∃ p ∈ promotions, t = p.current := by
    intro t ht
    refine ((hmem t).2.mp ht).imp_right fun hpromoted => ?_
    obtain ⟨p, hp, rfl⟩ := List.mem_map.mp hpromoted
    exact ⟨p, hp, rfl⟩
  have hapart : ∀ x ∈ c.stakers .current, ∀ p ∈ promotions, p.current.txId ≠ x.txId := by
    intro x hx p hp
    rw [(hpromotable.promotes p hp).txId_eq]
    exact hunmet x hx p.pending (hpromotable.waiting p hp)
  refine ⟨fun t ht => ((hmem t).1.mp ht).1, fun t ht => ?_, fun t ht u hu heq => ?_⟩
  · refine (hcurrent t ht).imp_right ?_
    rintro ⟨p, hp, rfl⟩
    obtain ⟨reward, hreward, _⟩ := hpromotable.promotes p hp
    exact ⟨p.pending, hpromotable.waiting p hp,
      fun hstays => ((hmem p.pending).1.mp hstays).2 (List.mem_map_of_mem hp), reward, hreward⟩
  · rcases hcurrent t ht with hwas | ⟨p, hp, rfl⟩ <;> rcases hcurrent u hu with hwas' | ⟨q, hq, rfl⟩
    · exact hinjOn .current hwas hwas' heq
    · exact absurd heq.symm (hapart t hwas q hq)
    · exact absurd heq (hapart u hwas' p hp)
    · rw [hpromotable.eq_of_txId (hinjOn .pending) hp hq heq]

/-- A move of time promotes pending stakers and then retires current ones. -/
theorem keepsOrder_plan (h : Orderly c.stakers) (hshows : l.view.Shows c)
    (hplan : l.planAdvance rewards time = .ok plan) : c.KeepsOrder plan.writes := by
  obtain ⟨hpromotable, _, _⟩ := hshows.of_planAdvance hplan
  have hpromoted := succeeds_promotions h.injOn h.apart hpromotable
  have hmem := fun t => mem_stakers_promotions (c := c) (t := t) hpromotable.promotes
  have hplanned := fun t => mem_stakers_plan (c := c) (t := t) hpromotable.promotes
  refine ⟨⟨hpromoted.between (h.injOn .pending), fun phase => ?_, ?_⟩,
    hpromoted.of_fewer (fun t => ?_) (fun t ht => ?_), fun w hw => registersNothing_of_mem_writes hw⟩
  · cases phase with
    | current => exact fun t ht => (hmem t).2.mpr (Or.inl ht)
    | pending => exact subset_rfl
  · exact hshows.accepts_plan hplan (h.injOn .pending) h.apart
      (hpromoted.one_validator h.slots h.vacant) subset_rfl
  · rw [(hplanned t).1, (hmem t).1]
  · exact (hmem t).2.mpr ((hplanned t).2.mp ht).1

end Contents

end StakingLedger
