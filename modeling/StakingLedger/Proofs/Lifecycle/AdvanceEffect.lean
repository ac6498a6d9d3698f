import StakingLedger.Proofs.Operator.Succession
import StakingLedger.Proofs.Staker.TimelineTies

/-! # What a move of time makes of a ledger

A move of time takes every pending staker that starts by then into the current set
and the permissioned validators that end by then out of it. The rewards are funded one
after the other, each by what the promotions before it have left, and nothing but the
stakers, the time and the balances changes.
-/

namespace StakingLedger

open TimeAdvance

variable {book : Book} {base direct : State} {l : Ledger} {c : Contents} {rewards : RewardPolicy}
  {plan plan' : TimeAdvance} {time : UInt64} {pending current due : List Staker} {phase : Phase}

/-! ## Promotions in turn -/

/-- What every supernet has in its reward pool, and its supply. -/
@[ext]
structure Treasury where
  rewardPool : EntityId → Answer UInt64
  supply : EntityId → Answer UInt64

/-- The balances after a reward was funded. -/
def Treasury.pay (t : Treasury) (supernet : EntityId) (funding : Funding) : Treasury where
  rewardPool := Function.update t.rewardPool supernet (.ok funding.rewardPool)
  supply := Function.update t.supply supernet (.ok funding.currentSupply)

def Ledger.treasury (l : Ledger) : Treasury := ⟨l.rewardPool, l.supply⟩

/-- The balances as they are after the promotions of a plan. -/
def TimeAdvance.treasury (plan : TimeAdvance) (l : Ledger) : Treasury :=
  ⟨plan.rewardPool l, plan.supply l⟩

/-- Pending stakers become current stakers one after the other. A permissioned validator earns
nothing; the reward of any other one is calculated by the rule of its supernet and funded by what
those before it have left. -/
inductive PromotesInTurn (rewards : RewardPolicy) (l : Ledger) :
    Treasury → List Staker → List Staker → Treasury → Prop
  | done (t : Treasury) : PromotesInTurn rewards l t [] [] t
  | permissioned {t t' : Treasury} {s : Staker} {due promoted : List Staker}
    (hpermissioned : s.priority.isPermissioned = true)
    (hrest : PromotesInTurn rewards l t due promoted t') :
    PromotesInTurn rewards l t (s :: due) (s.promoted 0 :: promoted) t'
  | rewarded {t t' : Treasury} {s : Staker} {due promoted : List Staker}
    {pool supply calculated : UInt64} {rule : RewardRule} {funding : Funding}
    (hrewarded : s.priority.isPermissioned = false)
    (hpool : t.rewardPool s.supernetId = .ok pool) (hsupply : t.supply s.supernetId = .ok supply)
    (hrule : rewards l s.supernetId = .ok rule)
    (hcalculated : rule s.duration s.startTime s.weight pool = .ok calculated)
    (hfunding : fundReward s.supernetId calculated pool supply = .ok funding)
    (hrest : PromotesInTurn rewards l (t.pay s.supernetId funding) due promoted t') :
    PromotesInTurn rewards l t (s :: due) (s.promoted funding.reward :: promoted) t'

namespace TimeAdvance

theorem rewardPool_eq (plan : TimeAdvance) (l : Ledger) (supernet : EntityId) :
    plan.rewardPool l supernet = overlaid (plan.rewardPools.get? supernet) (l.rewardPool supernet) := by
  rw [rewardPool]
  cases plan.rewardPools.get? supernet <;> rfl

theorem supply_eq (plan : TimeAdvance) (l : Ledger) (supernet : EntityId) :
    plan.supply l supernet = overlaid (plan.supplies.get? supernet) (l.supply supernet) := by
  rw [supply]
  cases plan.supplies.get? supernet <;> rfl

theorem treasury_fund (plan : TimeAdvance) (l : Ledger) (supernet : EntityId) (funding : Funding) :
    { plan with
      rewardPools := plan.rewardPools.insert supernet funding.rewardPool
      supplies := plan.supplies.insert supernet funding.currentSupply }.treasury l =
      (plan.treasury l).pay supernet funding := by
  refine Treasury.ext (funext fun other => ?_) (funext fun other => ?_)
  · exact (rewardPool_eq _ l other).trans
      (overlaid_insert (plan.rewardPool_eq l) supernet funding.rewardPool other).symm
  · exact (supply_eq _ l other).trans
      (overlaid_insert (plan.supply_eq l) supernet funding.currentSupply other).symm

end TimeAdvance

/-- A plan is made by promotions in turn, over the balances that it has. -/
theorem promotesInTurn_of_foldlM
    (h : due.foldlM (addPromotion rewards l) plan = .ok plan') :
    ∃ promoted, PromotesInTurn rewards l (plan.treasury l) due promoted (plan'.treasury l) ∧
      plan'.promotions.map Promotion.current =
        plan.promotions.map Promotion.current ++ promoted := by
  -- Each promotion draws on the treasury that the ones before it left.
  induction due generalizing plan with
  | nil =>
      cases h
      exact ⟨[], .done _, (List.append_nil _).symm⟩
  | cons s rest ih =>
      obtain ⟨between, hstep, hrest⟩ := bind_eq_ok_iff.mp h
      obtain ⟨promoted, hpromotes, hcurrent⟩ := ih hrest
      unfold addPromotion at hstep
      split at hstep
      next hpermissioned =>
        cases hstep
        refine ⟨s.promoted 0 :: promoted, .permissioned hpermissioned hpromotes, ?_⟩
        rw [hcurrent, promote, List.map_append, List.append_assoc]
        rfl
      next hrewarded =>
        obtain ⟨pool, hpool, hstep⟩ := bind_eq_ok_iff.mp hstep
        obtain ⟨supply, hsupply, hstep⟩ := bind_eq_ok_iff.mp hstep
        obtain ⟨rule, hrule, hstep⟩ := bind_eq_ok_iff.mp hstep
        obtain ⟨calculated, hcalculated, hstep⟩ := bind_eq_ok_iff.mp hstep
        obtain ⟨funding, hfunding, hstep⟩ := bind_eq_ok_iff.mp hstep
        cases hstep
        refine ⟨s.promoted funding.reward :: promoted, .rewarded (Bool.not_eq_true _ ▸ hrewarded)
          hpool hsupply hrule hcalculated hfunding ?_, ?_⟩
        · rw [← plan.treasury_fund]
          exact hpromotes
        · rw [hcurrent, promote, List.map_append, List.append_assoc]
          rfl

/-! ## Sets that time can move -/

/-- The stakers of the two phases stand at their times, no pending one is of a transaction that the
current set has ever held, and no pending validator waits for a slot that is taken. -/
structure Movable (book : Book) (current pending : List Staker) : Prop extends
    WellTimed current pending where
  unheld : ∀ p ∈ pending, ∀ s ∈ book.records .current, s.txId ≠ p.txId
  vacant : ∀ s ∈ current, ∀ p ∈ pending, s.isValidator = true → p.isValidator = true →
    s.slot ≠ p.slot

/-- The key of a staker that waits for its start. -/
def Staker.startKey (s : Staker) : StakerKey := ⟨s.startTime, s.priority, s.txId⟩

/-- Everything that a move of time to `time` does: `due` are promoted as `promoted`, which leaves
the balances as in `after`. -/
structure MovesTime (rewards : RewardPolicy) (time : UInt64) (current pending : List Staker)
    (l l' : Ledger) (due promoted : List Staker) (after : Treasury) : Prop where
  isDue : Enumerates due Staker.startKey {p | p ∈ pending ∧ p.startTime ≤ time}
  inTurn : PromotesInTurn rewards l l.treasury due promoted after
  stillPending : l'.view.Lists .pending {p | p ∈ pending ∧ time < p.startTime}
  nowCurrent : l'.view.Lists .current {s |
    (s ∈ current ∧ ¬ (s.priority.isPermissioned = true ∧ s.endTime ≤ time)) ∨ s ∈ promoted}
  sameElse : l'.view = { l.view with
    timestamp := time, rewardPool := after.rewardPool, supply := after.supply
    validator := l'.view.validator, delegators := l'.view.delegators, stakers := l'.view.stakers }

/-- The book with the promoted stakers in its current records. -/
def Book.promote (book : Book) (promoted : Set Staker) (hinjOn : promoted.InjOn Staker.txId)
    (hnew : ∀ s ∈ promoted, ∀ t ∈ book.records .current, t.txId ≠ s.txId) : Book where
  records
    | .current => book.records .current ∪ promoted
    | .pending => book.records .pending
  injOn phase := by
    cases phase with
    | pending => exact book.injOn .pending
    | current =>
        rintro s (hs | hs) t (ht | ht) heq
        · exact book.injOn .current hs ht heq
        · exact absurd heq (hnew t ht s hs)
        · exact absurd heq.symm (hnew s hs t ht)
        · exact hinjOn hs ht heq

namespace Ledger

/-- The contents after a plan, with the promoted stakers on record. -/
theorem Contains.applyAdvance (h : l.Contains book State.Mirrors c)
    (hunheld : ∀ p ∈ c.stakers .pending, ∀ s ∈ book.records .current, s.txId ≠ p.txId)
    (hvacant : ∀ s ∈ c.stakers .current, ∀ p ∈ c.stakers .pending, s.isValidator = true →
      p.isValidator = true → s.slot ≠ p.slot)
    (hplan : l.planAdvance rewards time = .ok plan) :
    ∃ book', (l.applyAdvance plan).Contains book' State.Mirrors (c.writeAll plan.writes) := by
  have hshows := h.shows (State.mirrors_grounding book)
  have hproper := h.proper
  have hinjOn : ∀ phase, (c.stakers phase).InjOn Staker.txId := fun phase =>
    (book.injOn phase).mono (hproper.recorded phase)
  have hapart : ∀ s ∈ c.stakers .current, ∀ p ∈ c.stakers .pending, p.txId ≠ s.txId :=
    fun s hs p hp => (hunheld p hp s (hproper.recorded .current hs)).symm
  obtain ⟨hpromotable, _, _⟩ := hshows.of_planAdvance hplan
  have hsucceeds := Contents.succeeds_promotions hinjOn hapart hpromotable
  have hmem := fun t =>
    (Contents.mem_stakers_promotions (c := c) (t := t) hpromotable.promotes).2
  have hpromoted : {s | s ∈ plan.promotions.map Promotion.current} ⊆
      (c.writeAll (plan.promotions.flatMap promotionWrites)).stakers .current :=
    fun t ht => (hmem t).mpr (Or.inr ht)
  -- The promoted stakers are new to the record, so the book takes them in beforehand.
  let book' := book.promote {s | s ∈ plan.promotions.map Promotion.current}
    (hsucceeds.injOn.mono hpromoted) (by
      intro s hs t ht heq
      obtain ⟨p, hp, rfl⟩ := List.mem_map.mp hs
      rw [(hpromotable.promotes p hp).txId_eq] at heq
      exact hunheld p.pending (hpromotable.waiting p hp) t ht heq)
  have hmore : l.Contains book' State.Mirrors c := h.mono fun phase => by
    cases phase with
    | current => exact Set.subset_union_left
    | pending => exact subset_rfl
  have haccepts : c.Accepts (Contents.Allows book') plan.writes := by
    refine hshows.accepts_plan hplan (hinjOn .pending) hapart
      (hsucceeds.one_validator hproper.slots hvacant) fun t ht => ?_
    exact ((hmem t).mp ht).imp_left (hproper.recorded .current ·)
  exact ⟨book', hmore.writeAll (State.mirrors_grounding book') haccepts
    (Contents.accepts_of_forall fun w hw =>
      Contents.registersNewChain_of_registersNothing (registersNothing_of_mem_writes hw))
    (accepts_nothing c plan.writes)⟩

/-- Who is due by a time, where the stakers stand at their start. -/
theorem enumerates_due {held : List Staker} {members : Set Staker}
    (h : Enumerates held Staker.key members) (hstarts : ∀ p ∈ members, p.nextTime = p.startTime) :
    Enumerates (held.takeWhile fun s => s.nextTime ≤ time) Staker.startKey
      {p | p ∈ members ∧ p.startTime ≤ time} where
  sorted := by
    refine (h.sorted.sublist (List.takeWhile_sublist _)).imp_of_mem fun {a b} ha hb hlt => ?_
    have hkey : ∀ s ∈ held.takeWhile fun s => s.nextTime ≤ time, s.startKey = s.key := by
      intro s hs
      rw [Staker.startKey, Staker.key, hstarts s ((h.mem_due_iff time).mp hs).1]
    rwa [hkey a ha, hkey b hb]
  mem_iff p := by
    rw [h.mem_due_iff]
    exact and_congr_right fun hp => by rw [hstarts p hp]

theorem promotesInTurn_of_planAdvance (hplan : l.planAdvance rewards time = .ok plan)
    {waiting : StakerSeq} (hread : l.stakers .pending = .ok waiting) :
    PromotesInTurn rewards l l.treasury (dueBy waiting time)
      (plan.promotions.map Promotion.current) (plan.treasury l) := by
  obtain ⟨_, hwaiting, hplan⟩ := bind_eq_ok_iff.mp hplan
  obtain rfl := Except.ok.inj (hread.symm.trans hwaiting)
  obtain ⟨promoting, hsteps, hplan⟩ := bind_eq_ok_iff.mp hplan
  obtain ⟨_, _, hplan⟩ := bind_eq_ok_iff.mp hplan
  cases hplan
  obtain ⟨promoted, hpromotes, hcurrent⟩ := promotesInTurn_of_foldlM hsteps
  rw [hcurrent]
  exact hpromotes

/-- A plan changes nothing but the stakers, the time and the balances. -/
theorem view_of_writeAll_plan {l' : Ledger} (hshows : l.view.Shows c)
    (hshown : l'.view.Shows (c.writeAll plan.writes)) :
    l'.view = { l.view with
      timestamp := plan.timestamp
      rewardPool := (plan.treasury l).rewardPool, supply := (plan.treasury l).supply
      validator := l'.view.validator, delegators := l'.view.delegators
      stakers := l'.view.stakers } := by
  rw [c.writeAll_plan] at hshown
  have hpools : (plan.treasury l).rewardPool = l'.view.rewardPool := by
    rw [hshown.rewardPool, ← hshows.rewardPool]
    exact funext (plan.rewardPool_eq l)
  have hsupplies : (plan.treasury l).supply = l'.view.supply := by
    rw [hshown.supply, ← hshows.supply]
    exact funext (plan.supply_eq l)
  have hchains : l'.view.chains = l.view.chains := funext fun supernet => by
    rw [hshown.chains, hshows.chains]
  exact View.ext hshown.timestamp (hshown.feePool.trans hshows.feePool.symm) hsupplies.symm
    hpools.symm rfl rfl rfl (hshown.utxo.trans hshows.utxo.symm)
    (hshown.rewardUtxos.trans hshows.rewardUtxos.symm)
    (hshown.supernet.trans hshows.supernet.symm)
    (hshown.transformation.trans hshows.transformation.symm) hchains
    (hshown.tx.trans hshows.tx.symm)

/-- Applied to a ledger with sets that time can move, a plan does just what a move of time does. -/
theorem applyAdvance_movesTime (hbase : base.Reached book) (hstacked : Stacked book base l direct)
    (hcurrent : l.view.stakers .current = .ok current)
    (hpending : l.view.stakers .pending = .ok pending) (hmovable : Movable book current pending)
    (hplan : l.planAdvance rewards time = .ok plan) :
    ∃ due promoted after,
      MovesTime rewards time current pending l (l.applyAdvance plan) due promoted after := by
  obtain ⟨c, hl, _⟩ := hstacked.contains hbase.mirrors
  have hshows := hl.shows (State.mirrors_grounding book)
  have hserving := hshows.mem_of_read hcurrent
  have hwaiting := hshows.mem_of_read hpending
  have hunheld : ∀ p ∈ c.stakers .pending, ∀ s ∈ book.records .current, s.txId ≠ p.txId :=
    fun p hp => hmovable.unheld p ((hwaiting p).mpr hp)
  have hstarts : ∀ p ∈ c.stakers .pending, p.nextTime = p.startTime :=
    fun p hp => (hmovable.starts p ((hwaiting p).mpr hp)).2.1
  obtain ⟨book', hafter⟩ := hl.applyAdvance hunheld
    (fun s hs p hp => hmovable.vacant s ((hserving s).mpr hs) p ((hwaiting p).mpr hp)) hplan
  have hshown := hafter.shows (State.mirrors_grounding book')
  have hslots := hafter.proper.slots
  obtain ⟨waiting, serving, hreadPending, hreadCurrent, hplans, hretirements⟩ :=
    plans_of_planAdvance hplan
  have hplanned := fun t => Contents.mem_stakers_plan (c := c) (t := t) hplans.promotes
  refine ⟨dueBy waiting time, plan.promotions.map Promotion.current, plan.treasury l, ?_,
    promotesInTurn_of_planAdvance hplan hreadPending, hshown.lists (hslots .pending) fun p => ?_,
    hshown.lists (hslots .current) fun s => ?_, hplans.timestamp ▸ view_of_writeAll_plan hshows hshown⟩
  · exact (enumerates_due (hshows.enumerates hreadPending) hstarts).congr fun p =>
      and_congr_left fun _ => (hwaiting p).symm
  · rw [(hplanned p).1, hplans.pending, hshows.mem_dueBy_iff hreadPending, ← hwaiting p]
    refine and_congr_right fun hp => ?_
    rw [not_and, UInt64.not_le, (hmovable.starts p hp).2.1, forall_prop_of_true hp]
  · rw [(hplanned s).2, hretirements, List.mem_filter, hshows.mem_dueBy_iff hreadCurrent]
    constructor
    · rintro ⟨hwas | hnow, hstays⟩
      · have hs := (hserving s).mpr hwas
        refine Or.inl ⟨hs, fun ⟨hpermissioned, hover⟩ => hstays ⟨⟨hwas, ?_⟩, hpermissioned⟩⟩
        rwa [(hmovable.ends s hs).2]
      · exact Or.inr hnow
    · rintro (⟨hs, hstays⟩ | hnow)
      · refine ⟨Or.inl ((hserving s).mp hs), fun ⟨⟨_, hover⟩, hpermissioned⟩ => ?_⟩
        rw [(hmovable.ends s hs).2] at hover
        exact hstays ⟨hpermissioned, hover⟩
      · refine ⟨Or.inr hnow, fun ⟨⟨hwas, _⟩, _⟩ => ?_⟩
        -- Nobody who is promoted has been current before.
        obtain ⟨p, hp, rfl⟩ := List.mem_map.mp hnow
        exact hunheld p.pending ((hshows.promotable hreadPending hplans).waiting p hp) p.current
          (hl.proper.recorded .current hwas) (hplans.promotes p hp).txId_eq

/-! ## One staker comes and another one goes -/

/-- A permissioned validator on a supernet of its own, until 40. -/
def leavingTx : StakerTx :=
  { soloTx with
    txId := .ofWord 2, kind := .permissionedValidator, supernetId := .ofWord 9, endTime := 40 }

/-- A delegation to the validator of the genesis, from 50 on. -/
def comingTx : StakerTx :=
  { soloTx with
    txId := .ofWord 3, kind := .primaryDelegator, weight := 100, startTime := 50, endTime := 200 }

/-- The root of the genesis with a validator that is about to leave and a delegation that is about
to start. -/
def turning : State :=
  (State.solo.write (.putValidator .current (currentStaker leavingTx 0))).write
    (.putDelegator .pending (pendingStaker comingTx))

def turningBook : Book where
  records
    | .current => {currentStaker soloTx 1, currentStaker leavingTx 0}
    | .pending => {pendingStaker comingTx}
  injOn
    | .current => by
      rintro s (rfl | rfl) t (rfl | rfl) htx
      · rfl
      · exact absurd htx (by decide +kernel)
      · exact absurd htx (by decide +kernel)
      · rfl
    | .pending => Set.injOn_singleton _ _

theorem reached_turning : turning.Reached turningBook := by
  have hbook : State.solo.RecordedIn turningBook := State.recordedIn_of_mem (Or.inl rfl)
  have hfree : (Ledger.root State.solo).view.Allows turningBook
      (.putValidator .current (currentStaker leavingTx 0)) :=
    ⟨Or.inr rfl, by decide +kernel, ⟨_, State.stakers_solo .current, by decide +kernel⟩,
      by decide +kernel⟩
  have hnew : (Ledger.root (State.solo.write (.putValidator .current
      (currentStaker leavingTx 0)))).view.Allows turningBook
        (.putDelegator .pending (pendingStaker comingTx)) :=
    ⟨rfl, by decide +kernel, _, @State.stakers_of_values _ .pending [] (by decide +kernel),
      by decide +kernel⟩
  exact ((State.Reached.genesis State.fromGenesis_solo hbook).written hfree).written hnew

theorem applyAdvance_movesTime_turning : ∃ plan, turning.Reached turningBook ∧
    Stacked turningBook turning (root turning) turning ∧
    (root turning).view.stakers .current =
      .ok [currentStaker leavingTx 0, currentStaker soloTx 1] ∧
    (root turning).view.stakers .pending = .ok [pendingStaker comingTx] ∧
    Movable turningBook [currentStaker leavingTx 0, currentStaker soloTx 1]
      [pendingStaker comingTx] ∧
    (root turning).planAdvance (configuredRewards {}) 60 = .ok plan ∧
    ∃ due promoted after, MovesTime (configuredRewards {}) 60
      [currentStaker leavingTx 0, currentStaker soloTx 1] [pendingStaker comingTx] (root turning)
      ((root turning).applyAdvance plan) due promoted after := by
  have hplans : ((root turning).planAdvance (configuredRewards {}) 60).isOk = true := by
    decide +kernel
  have hcurrent : (root turning).view.stakers .current =
      .ok [currentStaker leavingTx 0, currentStaker soloTx 1] :=
    State.stakers_of_values (by decide +kernel)
  have hpending : (root turning).view.stakers .pending = .ok [pendingStaker comingTx] :=
    State.stakers_of_values (by decide +kernel)
  have hmovable : Movable turningBook [currentStaker leavingTx 0, currentStaker soloTx 1]
      [pendingStaker comingTx] := by
    refine ⟨⟨by decide +kernel, by decide +kernel, by decide +kernel⟩, fun p hp s hs => ?_,
      by decide +kernel⟩
    rw [List.mem_singleton.mp hp]
    rcases hs with rfl | rfl <;> decide +kernel
  obtain ⟨plan, hplan⟩ := exists_eq_ok_of_isOk hplans
  exact ⟨plan, reached_turning, .base, hcurrent, hpending, hmovable, hplan,
    applyAdvance_movesTime reached_turning .base hcurrent hpending hmovable hplan⟩

end Ledger

end StakingLedger
