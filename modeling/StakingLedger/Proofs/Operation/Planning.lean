import StakingLedger.Advance
import StakingLedger.Proofs.Answer
import StakingLedger.Proofs.OrderedMap.Lookup

/-! # Plans

A plan is made promotion by promotion. It promotes just the pending stakers that
are due, in their order, and retires the permissioned current ones that are due.
-/

namespace StakingLedger

namespace TimeAdvance

variable {l : Ledger} {rewards : RewardPolicy} {plan plan' : TimeAdvance} {s : Staker}
  {time : UInt64} {done due : List Staker}

/-- How the promotion of a staker extends a plan: a permissioned validator earns nothing, and the
reward of any other staker is funded by what the plan has for its supernet. -/
inductive Extends (l : Ledger) (plan : TimeAdvance) (s : Staker) : TimeAdvance → Prop
  | permissioned (hpermissioned : s.priority.isPermissioned = true) :
    Extends l plan s (plan.promote s 0)
  | funded {calculated pool supply : UInt64} {funding : Funding}
    (hrewarded : s.priority.isPermissioned = false)
    (hpool : plan.rewardPool l s.supernetId = .ok pool)
    (hsupply : plan.supply l s.supernetId = .ok supply)
    (hfunding : fundReward s.supernetId calculated pool supply = .ok funding) :
    Extends l plan s ({ plan with
      rewardPools := plan.rewardPools.insert s.supernetId funding.rewardPool
      supplies := plan.supplies.insert s.supernetId funding.currentSupply }.promote s
        funding.reward)

theorem extends_of_addPromotion (h : plan.addPromotion rewards l s = .ok plan') :
    Extends l plan s plan' := by
  unfold addPromotion at h
  split at h
  next hpermissioned =>
    cases h
    exact .permissioned hpermissioned
  next hrewarded =>
    obtain ⟨pool, hpool, h⟩ := bind_eq_ok_iff.mp h
    obtain ⟨supply, hsupply, h⟩ := bind_eq_ok_iff.mp h
    obtain ⟨rule, _, h⟩ := bind_eq_ok_iff.mp h
    obtain ⟨calculated, _, h⟩ := bind_eq_ok_iff.mp h
    obtain ⟨funding, hfunding, h⟩ := bind_eq_ok_iff.mp h
    cases h
    exact .funded (Bool.not_eq_true _ ▸ hrewarded) hpool hsupply hfunding

/-- The promotion makes a current staker of a pending one, without reward for a permissioned
validator. -/
def Promotes (p : Promotion) : Prop :=
  ∃ reward, p.current = p.pending.promoted reward ∧
    (p.pending.priority.isPermissioned = true → reward = 0)

/-- A promotion is the pending staker with the reward set aside for it. -/
theorem Promotes.eq_promoted {p : Promotion} (h : Promotes p) : ∃ s reward,
    p = ⟨s, s.promoted reward⟩ ∧ (s.priority.isPermissioned = true → reward = 0) := by
  obtain ⟨s, current⟩ := p
  obtain ⟨reward, hcurrent, hpermissioned⟩ := h
  obtain rfl : current = s.promoted reward := hcurrent
  exact ⟨s, reward, rfl, hpermissioned⟩

theorem Promotes.txId_eq {p : Promotion} (h : Promotes p) : p.current.txId = p.pending.txId := by
  obtain ⟨_, hcurrent, _⟩ := h
  rw [hcurrent]
  rfl

/-- The plan promotes just the given stakers, in their order. -/
structure Plans (time : UInt64) (done : List Staker) (plan : TimeAdvance) : Prop where
  timestamp : plan.timestamp = time
  pending : plan.promotions.map Promotion.pending = done
  promotes : ∀ p ∈ plan.promotions, Promotes p

theorem Plans.promote (h : Plans time done plan) {reward : UInt64}
    (hreward : s.priority.isPermissioned = true → reward = 0) :
    Plans time (done ++ [s]) (plan.promote s reward) where
  timestamp := h.timestamp
  pending := by
    change (plan.promotions ++ [_]).map _ = _
    rw [List.map_append, h.pending]
    rfl
  promotes p hp := by
    rcases List.mem_append.mp hp with hp | hp
    · exact h.promotes p hp
    · rw [List.mem_singleton.mp hp]
      exact ⟨reward, rfl, hreward⟩

theorem Plans.extends (h : Plans time done plan) (hstep : Extends l plan s plan') :
    Plans time (done ++ [s]) plan' := by
  cases hstep with
  | permissioned => exact h.promote fun _ => rfl
  | @funded _ _ _ funding hrewarded =>
      have hfunded : Plans time done { plan with
          rewardPools := plan.rewardPools.insert s.supernetId funding.rewardPool
          supplies := plan.supplies.insert s.supernetId funding.currentSupply } :=
        ⟨h.timestamp, h.pending, h.promotes⟩
      refine hfunded.promote fun hpermissioned => ?_
      rw [hrewarded] at hpermissioned
      cases hpermissioned

theorem Plans.foldlM (h : Plans time done plan)
    (hsteps : due.foldlM (addPromotion rewards l) plan = .ok plan') :
    Plans time (done ++ due) plan' := by
  induction due generalizing done plan with
  | nil =>
      cases hsteps
      rwa [List.append_nil]
  | cons s rest ih =>
      obtain ⟨between, hstep, hrest⟩ := bind_eq_ok_iff.mp hsteps
      rw [List.append_cons]
      exact ih (h.extends (extends_of_addPromotion hstep)) hrest

end TimeAdvance

/-- A plan for a ledger promotes the pending stakers that are due and retires permissioned
current ones. -/
theorem Ledger.plans_of_planAdvance {l : Ledger} {rewards : RewardPolicy} {time : UInt64}
    {plan : TimeAdvance} (h : l.planAdvance rewards time = .ok plan) :
    ∃ pending current, l.stakers .pending = .ok pending ∧ l.stakers .current = .ok current ∧
      plan.Plans time (dueBy pending time) ∧
      plan.retirements = (dueBy current time).filter fun s => s.priority.isPermissioned := by
  obtain ⟨pending, hpending, h⟩ := bind_eq_ok_iff.mp h
  obtain ⟨promoting, hsteps, h⟩ := bind_eq_ok_iff.mp h
  obtain ⟨current, hcurrent, h⟩ := bind_eq_ok_iff.mp h
  cases h
  have hempty : TimeAdvance.Plans time [] { timestamp := time } :=
    ⟨rfl, rfl, fun _ hp => absurd hp List.not_mem_nil⟩
  obtain ⟨htime, hdue, hpromotes⟩ := hempty.foldlM hsteps
  exact ⟨pending, current, hpending, hcurrent, ⟨htime, hdue, hpromotes⟩, rfl⟩

end StakingLedger
