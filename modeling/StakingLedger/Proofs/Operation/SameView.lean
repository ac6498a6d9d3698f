import StakingLedger.Proofs.Operation.Run

/-! # Operations on the same view

Two ledgers that answer every read in the same way make the same claims. They plan
the same moves of time even if their clocks differ, as long as the reward policy
does not look at the clock.
-/

namespace StakingLedger

/-- The ledgers answer every read in the same way, save perhaps for the time. -/
def Ledger.AgreesOffTime (l l' : Ledger) : Prop :=
  { l.view with timestamp := l'.timestamp } = l'.view

/-- The policy looks at nothing but what can be read, and there not at the time. -/
def RewardPolicy.Timeless (rewards : RewardPolicy) : Prop :=
  ∀ l l' : Ledger, l.AgreesOffTime l' → rewards l = rewards l'

variable {l l' : Ledger} {c : Contents} {rewards : RewardPolicy} {phase : Phase}
  {stakerTx : EntityId} {s : Staker} {paid : Bool} {time : UInt64}

namespace Ledger

namespace AgreesOffTime

theorem of_view_eq (h : l.view = l'.view) : l.AgreesOffTime l' := by
  have htime : l.timestamp = l'.timestamp := congrArg View.timestamp h
  unfold AgreesOffTime
  rw [← htime, ← h]
  rfl

theorem supply_eq (h : l.AgreesOffTime l') : l.supply = l'.supply := congrArg View.supply h

theorem rewardPool_eq (h : l.AgreesOffTime l') : l.rewardPool = l'.rewardPool :=
  congrArg View.rewardPool h

theorem transformation_eq (h : l.AgreesOffTime l') : l.transformation = l'.transformation :=
  congrArg View.transformation h

theorem rewardUtxos_eq (h : l.AgreesOffTime l') : l.rewardUtxos = l'.rewardUtxos :=
  congrArg View.rewardUtxos h

theorem tx_eq (h : l.AgreesOffTime l') : l.tx = l'.tx := congrArg View.tx h

theorem toList_eq (h : l.AgreesOffTime l') {sequence sequence' : StakerSeq}
    (hread : l.stakers phase = .ok sequence) (hread' : l'.stakers phase = .ok sequence') :
    sequence.toList = sequence'.toList := by
  have hstakers : (l.stakers phase).map StakerSeq.walkAll = (l'.stakers phase).map _ :=
    congrFun (congrArg View.stakers h) phase
  rw [hread, hread'] at hstakers
  rw [← StakerSeq.walkAll_eq_toList, ← StakerSeq.walkAll_eq_toList]
  exact Except.ok.inj hstakers

/-! ## Moves of time -/

theorem nextChangeTime_eq (h : l.AgreesOffTime l') {change change' : Option UInt64}
    (hchange : l.nextChangeTime = .ok change) (hchange' : l'.nextChangeTime = .ok change') :
    change = change' := by
  obtain ⟨current, hcurrent, hchange⟩ := bind_eq_ok_iff.mp hchange
  obtain ⟨pending, hpending, hchange⟩ := bind_eq_ok_iff.mp hchange
  obtain ⟨current', hcurrent', hchange'⟩ := bind_eq_ok_iff.mp hchange'
  obtain ⟨pending', hpending', hchange'⟩ := bind_eq_ok_iff.mp hchange'
  rw [h.toList_eq hcurrent hcurrent', h.toList_eq hpending hpending', hchange'] at hchange
  exact (Except.ok.inj hchange).symm

theorem addPromotion_eq (h : l.AgreesOffTime l') (hrewards : rewards.Timeless) :
    TimeAdvance.addPromotion rewards l = TimeAdvance.addPromotion rewards l' := by
  funext plan s
  unfold TimeAdvance.addPromotion TimeAdvance.rewardPool TimeAdvance.supply
  rw [h.rewardPool_eq, h.supply_eq, hrewards l l' h]

theorem planAdvance_eq (h : l.AgreesOffTime l') (hrewards : rewards.Timeless)
    {plan plan' : TimeAdvance} (hplan : l.planAdvance rewards time = .ok plan)
    (hplan' : l'.planAdvance rewards time = .ok plan') : plan = plan' := by
  obtain ⟨pending, hpending, hplan⟩ := bind_eq_ok_iff.mp hplan
  obtain ⟨promoting, hpromoting, hplan⟩ := bind_eq_ok_iff.mp hplan
  obtain ⟨current, hcurrent, hplan⟩ := bind_eq_ok_iff.mp hplan
  obtain ⟨pending', hpending', hplan'⟩ := bind_eq_ok_iff.mp hplan'
  obtain ⟨promoting', hpromoting', hplan'⟩ := bind_eq_ok_iff.mp hplan'
  obtain ⟨current', hcurrent', hplan'⟩ := bind_eq_ok_iff.mp hplan'
  unfold dueBy at *
  rw [h.toList_eq hpending hpending', h.addPromotion_eq hrewards, hpromoting'] at hpromoting
  cases hpromoting
  rw [h.toList_eq hcurrent hcurrent', hplan'] at hplan
  exact (Except.ok.inj hplan).symm

/-! ## Claims -/

theorem stakingTx_eq (h : l.AgreesOffTime l') : l.stakingTx = l'.stakingTx := by
  funext stakerTx
  unfold stakingTx
  rw [h.tx_eq]

theorem rewardWrites_eq (h : l.AgreesOffTime l') : l.rewardWrites = l'.rewardWrites := by
  funext stakerTx s owner paid
  unfold rewardWrites rewardOutput rewardAsset
  rw [h.transformation_eq, h.rewardUtxos_eq, h.rewardPool_eq]

end AgreesOffTime

theorem claimedStaker_unique (h : l.view = l'.view) {s' : Staker}
    (hs : l.claimedStaker stakerTx = .ok s) (hs' : l'.claimedStaker stakerTx = .ok s') :
    s = s' := by
  obtain ⟨_, _, _, held, hheld, hfirst⟩ := of_claimedStaker hs
  obtain ⟨_, _, _, held', hheld', hfirst'⟩ := of_claimedStaker hs'
  rw [h, hheld'] at hheld
  cases hheld
  exact Option.some.inj (hfirst.symm.trans hfirst')

/-- Ledgers with the same contents make the same claims. -/
theorem Upholds.claimWrites_unique (h : l.Upholds c) (h' : l'.Upholds c)
    {writes writes' : List Write} (hwrites : l.claimWrites stakerTx paid = .ok writes)
    (hwrites' : l'.claimWrites stakerTx paid = .ok writes') : writes = writes' := by
  have hview : l.view = l'.view := h.shows.unique h'.shows
  obtain ⟨s, hs, hwrites⟩ := bind_eq_ok_iff.mp hwrites
  obtain ⟨tx, htx, hwrites⟩ := bind_eq_ok_iff.mp hwrites
  obtain ⟨rest, hrest, hwrites⟩ := bind_eq_ok_iff.mp hwrites
  obtain ⟨s', hs', hwrites'⟩ := bind_eq_ok_iff.mp hwrites'
  obtain ⟨tx', htx', hwrites'⟩ := bind_eq_ok_iff.mp hwrites'
  obtain ⟨rest', hrest', hwrites'⟩ := bind_eq_ok_iff.mp hwrites'
  cases claimedStaker_unique hview hs hs'
  rw [AgreesOffTime.stakingTx_eq (.of_view_eq hview), htx'] at htx
  cases htx
  -- The reward is settled after the staker has left, which leaves the same contents again.
  have hleft := h.retire (h.mem_of_claimedStaker hs)
  have hleft' := h'.retire (h'.mem_of_claimedStaker hs')
  have hafter : (l.write (.delete .current s)).AgreesOffTime (l'.write (.delete .current s)) :=
    .of_view_eq (hleft.shows.unique hleft'.shows)
  rw [hafter.rewardWrites_eq, hrest'] at hrest
  cases hrest
  cases hwrites
  cases hwrites'
  rfl

end Ledger

/-- The configured rewards look at transformations only. -/
theorem configuredRewards_timeless (primary : RewardConfig) : (configuredRewards primary).Timeless := by
  intro l l' h
  funext supernet
  unfold configuredRewards
  rw [h.transformation_eq]

end StakingLedger
