import StakingLedger.Proofs.Conservation.Outstanding
import StakingLedger.Proofs.Funding
import StakingLedger.Proofs.Operation.Planning

/-! # Planned promotions are funded

A plan is made promotion by promotion. At every moment of it, what the
promotions so far promise in the asset of a supernet was taken out of the pool
that the plan has for the supernet, or was minted.
-/

namespace StakingLedger

namespace TimeAdvance

variable {l : Ledger} {rewards : RewardPolicy} {plan plan' : TimeAdvance} {supernet : EntityId}
  {s : Staker} {due : List Staker}

/-- What some promotions promise in the asset of a supernet. -/
def promises (supernet : EntityId) (promotions : List Promotion) : Int :=
  (promotions.map fun p => p.current.owed supernet).sum

/-- How the balances of a supernet pay for the promotions of a plan on a ledger. -/
inductive Funds (l : Ledger) (supernet : EntityId) (plan : TimeAdvance) : Prop
  | untouched (hsupply : plan.supplies.get? supernet = none)
    (hpool : plan.rewardPools.get? supernet = none) (hzero : promises supernet plan.promotions = 0)
  | funded {supply supply' pool pool' : UInt64} (hsupply : l.supply supernet = .ok supply)
    (hsupply' : plan.supplies.get? supernet = some supply')
    (hpool : l.rewardPool supernet = .ok pool)
    (hpool' : plan.rewardPools.get? supernet = some pool')
    (hfixed : supernet ≠ .primaryNetwork → supply' = supply)
    (hbalance : (supply'.toNat : Int) - pool'.toNat - promises supernet plan.promotions =
      supply.toNat - pool.toNat)

/-- What a funded plan answers about a supernet is backed by the ledger. -/
theorem Funds.answers (h : Funds l supernet plan) {supply' pool' : UInt64}
    (hsupply' : plan.supply l supernet = .ok supply')
    (hpool' : plan.rewardPool l supernet = .ok pool') :
    ∃ supply pool, l.supply supernet = .ok supply ∧ l.rewardPool supernet = .ok pool ∧
      (supernet ≠ .primaryNetwork → supply' = supply) ∧
      (supply'.toNat : Int) - pool'.toNat - promises supernet plan.promotions =
        supply.toNat - pool.toNat := by
  unfold TimeAdvance.supply at hsupply'
  unfold TimeAdvance.rewardPool at hpool'
  cases h with
  | untouched hsupply hpool hzero =>
      rw [hsupply] at hsupply'
      rw [hpool] at hpool'
      exact ⟨supply', pool', hsupply', hpool', fun _ => rfl, by rw [hzero, sub_zero]⟩
  | funded hsupply hheld hpool hheldPool hfixed hbalance =>
      rw [hheld] at hsupply'
      rw [hheldPool] at hpool'
      cases hsupply'
      cases hpool'
      exact ⟨_, _, hsupply, hpool, hfixed, hbalance⟩

/-- A promotion that promises nothing on the supernet needs no funds of it. -/
theorem Funds.of_same (h : Funds l supernet plan)
    (hsupply : plan'.supplies.get? supernet = plan.supplies.get? supernet)
    (hpool : plan'.rewardPools.get? supernet = plan.rewardPools.get? supernet)
    (hpromises : promises supernet plan'.promotions = promises supernet plan.promotions) :
    Funds l supernet plan' := by
  cases h with
  | untouched hnone hnonePool hzero =>
      exact .untouched (hsupply.trans hnone) (hpool.trans hnonePool) (hpromises.trans hzero)
  | funded hread hsome hreadPool hsomePool hfixed hbalance =>
      exact .funded hread (hsupply.trans hsome) hreadPool (hpool.trans hsomePool) hfixed
        (by rw [hpromises, hbalance])

theorem promises_promote (plan : TimeAdvance) (s : Staker) (reward : UInt64)
    (supernet : EntityId) :
    promises supernet (plan.promote s reward).promotions =
      promises supernet plan.promotions + (s.promoted reward).owed supernet := by
  simp [promises, promote]

/-- A promotion on the supernet takes its reward out of what the plan has for it. -/
theorem Funds.extends (h : Funds l supernet plan) (hstep : Extends l plan s plan') :
    Funds l supernet plan' := by
  cases hstep with
  | permissioned =>
      refine h.of_same rfl rfl ?_
      rw [promises_promote, Staker.owed_eq_zero rfl, add_zero]
  | @funded calculated pool supply funding _ hpool hsupply hfunding =>
      by_cases heq : supernet = s.supernetId
      · subst heq
        obtain ⟨below, poolBelow, hbelow, hpoolBelow, hfixed, hbalance⟩ := h.answers hsupply hpool
        have hconserved := fundReward_conserves hfunding
        have hself : (s.promoted funding.reward).owed s.supernetId = funding.reward.toNat :=
          Staker.owed_self _
        refine .funded hbelow (OrderedMap.get?_insert_self _ _ _) hpoolBelow
          (OrderedMap.get?_insert_self _ _ _) (fun hother => ?_) ?_
        · rw [fundReward_supply hfunding hother, hfixed hother]
        · rw [promises_promote, hself]
          dsimp only
          omega
      · refine h.of_same (OrderedMap.get?_insert_ne _ _ heq) (OrderedMap.get?_insert_ne _ _ heq) ?_
        rw [promises_promote, Staker.owed_ne (s := s.promoted funding.reward) heq, add_zero]

theorem Funds.foldlM (h : Funds l supernet plan)
    (hsteps : due.foldlM (addPromotion rewards l) plan = .ok plan') : Funds l supernet plan' := by
  induction due generalizing plan with
  | nil =>
      cases hsteps
      exact h
  | cons s rest ih =>
      obtain ⟨between, hstep, hrest⟩ := bind_eq_ok_iff.mp hsteps
      exact ih (h.extends (extends_of_addPromotion hstep)) hrest

end TimeAdvance

/-- The promotions of a plan are funded on every supernet. -/
theorem Ledger.funds_of_planAdvance {l : Ledger} {rewards : RewardPolicy} {time : UInt64}
    {plan : TimeAdvance} (h : l.planAdvance rewards time = .ok plan) (supernet : EntityId) :
    TimeAdvance.Funds l supernet plan := by
  obtain ⟨pending, _, h⟩ := bind_eq_ok_iff.mp h
  obtain ⟨promoting, hsteps, h⟩ := bind_eq_ok_iff.mp h
  obtain ⟨current, _, h⟩ := bind_eq_ok_iff.mp h
  cases h
  have hempty : TimeAdvance.Funds l supernet { timestamp := time } := .untouched rfl rfl rfl
  exact (hempty.foldlM hsteps).of_same rfl rfl rfl

end StakingLedger
