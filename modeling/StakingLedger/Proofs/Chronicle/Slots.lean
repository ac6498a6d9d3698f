import StakingLedger.Proofs.Chronicle.Line
import StakingLedger.Proofs.Registry.WholeSet

/-! # One validator in a slot

The registries trust whoever puts a validator that its slot is free, and a put into
an occupied slot would spoil their index. In a chronicle no call and no fold does so:
a slot has at most one validator over both phases, so the slot of a pending validator
is free in the current set when it is promoted.
-/

namespace StakingLedger

variable {configs : Set StakingConfig} {g : Genesis} {config : StakingConfig} {book : Book}
  {kept past : List Ledger} {l l' : Ledger} {c : Contents} {writes first second : List Write}
  {s v : Staker} {slot : Slot} {phase : Phase}

namespace Ledger

/-- Every validator that the writes put finds its slot free when its turn comes. -/
def FillsFree (l : Ledger) : List Write → Prop
  | [] => True
  | w :: rest => (∀ phase v, w = .putValidator phase v → l.validator phase v.slot = .ok none) ∧
    (l.write w).FillsFree rest

/-- The staker is a validator of the slot. -/
def Validates (l : Ledger) (phase : Phase) (slot : Slot) (v : Staker) : Prop :=
  l.Has phase v ∧ v.isValidator = true ∧ v.slot = slot

theorem fillsFree_append : l.FillsFree (first ++ second) ↔
    l.FillsFree first ∧ (l.writeAll first).FillsFree second := by
  induction first generalizing l with
  | nil => simp [FillsFree, writeAll]
  | cons w rest ih => simp only [List.cons_append, FillsFree, ih, writeAll, List.foldl_cons, and_assoc]

theorem fillsFree_of_no_puts (h : ∀ w ∈ writes, ∀ phase v, ¬ w.Puts phase v) :
    l.FillsFree writes := by
  induction writes generalizing l with
  | nil => trivial
  | cons w rest ih =>
      refine ⟨fun phase v hput => ?_, ih fun w' hw' => h w' (List.mem_cons_of_mem _ hw')⟩
      exact absurd (Or.inl hput) (h w List.mem_cons_self phase v)

theorem fillsFree_put (h : s.isValidator = true → l.validator phase s.slot = .ok none) :
    l.FillsFree [.put phase s] := by
  refine ⟨fun phase' v hput => ?_, trivial⟩
  unfold Write.put at hput
  split at hput
  next hvalidator =>
    cases hput
    exact h hvalidator
  next => cases hput

/-- A series that keeps to the contract puts validators into free slots only. -/
theorem Sustains.fillsFree (h : l.Sustains book c) (hallowed : c.Accepts (Contents.Allows book) writes)
    (hnew : c.Accepts Contents.RegistersNewChain writes)
    (hnext : c.Accepts Contents.NextOutput writes) : l.FillsFree writes := by
  induction writes generalizing l c with
  | nil => trivial
  | cons w rest ih =>
      refine ⟨fun phase v hput => ?_, ih (h.write hallowed.1 hnew.1 hnext.1) hallowed.2 hnew.2 hnext.2⟩
      subst hput
      -- The contract of a put asks that nobody holds the slot, and the look-up says who holds it.
      obtain ⟨⟨_, _, _, hfree⟩, _⟩ := hallowed
      rw [← hfree]
      exact h.shows.validator phase v.slot

namespace Upholds

/-! ## Calls -/

/-- A pending validator that leaves for the current set finds its slot free there. -/
theorem fillsFree_promotionWrites (h : l.Upholds c) (hs : s ∈ c.stakers .pending)
    (reward : UInt64) : l.FillsFree (TimeAdvance.promotionWrites ⟨s, s.promoted reward⟩) := by
  obtain ⟨book, hsustains, hstaked⟩ := h
  have hdelete := hsustains.write (Contents.allows_delete hs) (Contents.asks_delete c .pending s).1
    (Contents.asks_delete c .pending s).2
  have hcurrent : (c.write (.delete .pending s)).stakers .current = c.stakers .current := by
    rw [Contents.write_delete]
    exact c.updateStakers_ne _ (by decide)
  rw [TimeAdvance.promotionWrites_eq, ← List.singleton_append, fillsFree_append]
  constructor
  · apply fillsFree_of_no_puts
    intro w hw phase v hputs
    rw [List.mem_singleton.mp hw] at hputs
    exact Write.not_puts_delete .pending s hputs
  · apply fillsFree_put
    intro hvalidator
    rw [Staker.isValidator_promoted] at hvalidator
    have hfree : occupant (c.stakers .current) s.slot = none :=
      occupant_eq_none_iff.mpr fun t ht htv => hstaked.vacant s hs t ht hvalidator htv
    rw [← hfree, ← hcurrent]
    exact hdelete.shows.validator .current s.slot

theorem fillsFree_promotions {promotions : List Promotion} (h : l.Upholds c)
    (hpromotable : c.Promotable promotions) :
    l.FillsFree (promotions.flatMap TimeAdvance.promotionWrites) := by
  induction promotions generalizing l c with
  | nil => trivial
  | cons p rest ih =>
      obtain ⟨s, reward, rfl, hpermissioned⟩ := (hpromotable.promotes _ List.mem_cons_self).eq_promoted
      have hs := hpromotable.waiting _ List.mem_cons_self
      rw [List.flatMap_cons, fillsFree_append]
      exact ⟨h.fillsFree_promotionWrites hs reward,
        ih (h.promote hs hpermissioned) hpromotable.rest⟩

theorem fillsFree_plan {rewards : RewardPolicy} {time : UInt64} {plan : TimeAdvance}
    (h : l.Upholds c) (hplan : l.planAdvance rewards time = .ok plan) : l.FillsFree plan.writes := by
  obtain ⟨hpromotable, _⟩ := h.shows.of_planAdvance hplan
  rw [TimeAdvance.writes_eq, TimeAdvance.stakerWrites, List.append_assoc, fillsFree_append]
  refine ⟨h.fillsFree_promotions hpromotable, fillsFree_of_no_puts fun w hw phase v hputs => ?_⟩
  rcases List.mem_append.mp hw with hw | hw
  · obtain ⟨t, _, rfl⟩ := List.mem_map.mp hw
    exact Write.not_puts_delete .current t hputs
  · obtain ⟨hplain, _⟩ := TimeAdvance.plain_of_mem_balanceWrites plan hw
    rcases hputs with rfl | rfl <;> cases hplain

theorem fillsFree_transaction {tx : StoredTx} (hwrites : tx.body.Writes l config tx.id writes) :
    l.FillsFree (writes ++ [.addTx tx .committed]) := by
  have hrecord : (l.writeAll writes).FillsFree [.addTx tx .committed] :=
    fillsFree_of_no_puts fun w hw phase v hputs => by
      rw [List.mem_singleton.mp hw] at hputs
      rcases hputs with h | h <;> cases h
  rw [fillsFree_append, and_iff_left hrecord]
  generalize tx.body = body at hwrites
  cases hwrites with
  | addStaker hid hs =>
      obtain ⟨rfl, rules, hadmits⟩ := admits_of_admitStaker hs
      apply fillsFree_put
      intro hvalidator
      rw [isValidator_pendingStaker] at hvalidator
      exact hadmits.free hvalidator .pending
  | createSupernet | createChain | transformSupernet =>
      apply fillsFree_of_no_puts
      intro w hw phase v hputs
      simp only [List.mem_cons, List.not_mem_nil, or_false] at hw
      rcases hputs with rfl | rfl <;> simp at hw

theorem fillsFree_claim {tx : StakerTx} (hreward : Recompenses tx s l' writes) :
    l.FillsFree (.delete .current s :: writes) := by
  apply fillsFree_of_no_puts
  intro w hw phase v hputs
  rcases List.mem_cons.mp hw with rfl | hw
  · exact Write.not_puts_delete .current s hputs
  · cases hreward <;> rcases hputs with rfl | rfl <;> simp at hw

theorem fillsFree (h : l.Upholds c) (hissues : l.Issues configs writes) : l.FillsFree writes := by
  cases hissues with
  | transaction _ _ hwrites => exact fillsFree_transaction hwrites
  | advance _ hplan => exact h.fillsFree_plan hplan
  | claim _ _ hreward => exact fillsFree_claim hreward

/-! ## Folds -/

theorem fillsFree_fold {parent : Ledger} {id : EntityId} {reachable : Bool} {changes : Changes}
    (h : (layer parent id reachable changes).Upholds c) : parent.FillsFree changes.writes := by
  obtain ⟨book, ⟨hproper, _, below, hparent, hchanges⟩, hstaked⟩ := h
  obtain ⟨hresult, hallowed, hnew⟩ := hchanges.replay (Contains.proper hparent) hproper
  refine Sustains.fillsFree hparent hallowed hnew (Contents.accepts_nextOutput ?_)
  rw [hresult]
  exact hstaked.numbered

/-! ## Look-ups -/

theorem validates_iff (h : l.Upholds c) : l.Validates phase slot v ↔
    v ∈ c.stakers phase ∧ v.isValidator = true ∧ v.slot = slot := by
  rw [Validates, h.has_iff]

/-- The look-up of a slot answers just its validator. -/
theorem exists_validator (h : l.Upholds c) (phase : Phase) (slot : Slot) :
    ∃ found, l.validator phase slot = .ok found ∧
      ∀ v, found = some v ↔ l.Validates phase slot v := by
  refine ⟨_, h.validator_eq_ok_iff.mpr rfl, fun v => ?_⟩
  rw [h.validates_iff]
  obtain ⟨book, hsustains, _⟩ := h
  exact occupant_eq_some_iff ((Contains.proper hsustains).slots phase)

/-- A slot has one validator over both phases. -/
theorem one_validates (h : l.Upholds c) {phase' : Phase} {v' : Staker}
    (hv : l.Validates phase slot v) (hv' : l.Validates phase' slot v') :
    phase = phase' ∧ v = v' := by
  obtain ⟨hmem, hvalidator, hslot⟩ := h.validates_iff.mp hv
  obtain ⟨hmem', hvalidator', hslot'⟩ := h.validates_iff.mp hv'
  exact h.one_validator hmem hmem' hvalidator hvalidator' (hslot.trans hslot'.symm)

end Upholds

/-! ## Throughout a chronicle -/

/-- In every ledger of a chronicle a slot has at most one validator over both phases, and the
look-ups of the slot answer just that one. Neither a call nor the fold of the ledger puts a
validator into a slot that is not free. -/
theorem one_validator_per_slot (h : Chronicle configs g config kept past l) :
    (∀ phase, ∃ sequence, l.stakers phase = .ok sequence) ∧
      (∀ phase phase' slot v v', l.Validates phase slot v → l.Validates phase' slot v' →
        phase = phase' ∧ v = v') ∧
      (∀ phase slot, ∃ found, l.validator phase slot = .ok found ∧
        ∀ v, found = some v ↔ l.Validates phase slot v) ∧
      (∀ writes, l.Issues configs writes → l.FillsFree writes) ∧
      ∀ parent id reachable changes, l = .layer parent id reachable changes →
        parent.FillsFree changes.writes := by
  obtain ⟨c, hupholds⟩ := h.upholds
  refine ⟨hupholds.exists_stakers, fun _ _ _ _ _ => hupholds.one_validates, hupholds.exists_validator,
    fun _ => hupholds.fillsFree, ?_⟩
  rintro parent id reachable changes rfl
  exact hupholds.fillsFree_fold

/-- The host of the sample is the one validator of its slot. -/
theorem one_validator_per_slot_sample : ∃ kept past,
    Chronicle {.sample} .sample .sample kept past Ledger.sample ∧
      Ledger.sample.Validates .current ⟨sampleSupernet, .zero 20⟩ (currentStaker sampleHostTx 199776) ∧
      ∀ phase v, Ledger.sample.Validates phase ⟨sampleSupernet, .zero 20⟩ v →
        phase = .current ∧ v = currentStaker sampleHostTx 199776 := by
  obtain ⟨kept, past, hchronicle⟩ := chronicle_sample
  have hhost : Ledger.sample.Validates .current ⟨sampleSupernet, .zero 20⟩
      (currentStaker sampleHostTx 199776) := ⟨has_sample.2.1, rfl, rfl⟩
  refine ⟨kept, past, hchronicle, hhost, fun phase v hv => ?_⟩
  exact (one_validator_per_slot hchronicle).2.1 _ _ _ _ _ hv hhost

end Ledger

end StakingLedger
