import StakingLedger.Proofs.Conservation.Accounts
import StakingLedger.Proofs.Conservation.Planning
import StakingLedger.Proofs.Operation.Run

/-! # Operations keep the accounts

A transaction leaves all balances alone or transforms one supernet. A claim pays
a promise out or gives it back to the pool. A move of time takes out of the pools,
or mints, what the promoted stakers are promised; the retired validators are
permissioned, so nothing was promised to them.
-/

namespace StakingLedger

open TimeAdvance

variable {l : Ledger} {c : Contents} {configs : Set StakingConfig} {config : StakingConfig}
  {tx : StoredTx} {s : Staker} {stakerTx supernet : EntityId} {writes : List Write}
  {rewards : RewardPolicy} {plan : TimeAdvance} {time : UInt64} {promotions : List Promotion}
  {retirements : List Staker}

namespace Ledger.Upholds

/-! ## Transactions -/

/-- Writes that leave the stakers alone, and the transaction that they belong to. -/
theorem outstanding_record (h : l.Upholds c) (hnone : c.tx tx.id = .ok none)
    (hplain : ∀ w ∈ writes, w.IsPlain) (supernet : EntityId) :
    (c.writeAll (writes ++ [.addTx tx .committed])).outstanding supernet =
      c.outstanding supernet := by
  obtain ⟨book, _, hstaked⟩ := h
  obtain ⟨_, htx, hrewards⟩ := Contents.same_of_plains hplain c
  have hunpaid : (c.writeAll writes).rewardUtxos tx.id = .ok [] := by
    rw [hrewards, hstaked.unpaid _ hnone]
  rw [Contents.writeAll_append]
  exact (Contents.outstanding_addTx (by rw [htx, hnone]) hunpaid .committed supernet).trans
    (Contents.outstanding_plains hplain c supernet)

theorem continues_transaction (h : l.Upholds c) (hnew : l.tx tx.id = .ok none)
    (hwrites : tx.body.Writes l config tx.id writes) (supernet : EntityId) :
    Contents.Continues supernet c (c.writeAll (writes ++ [.addTx tx .committed])) := by
  rw [h.tx_eq] at hnew
  have hplain := hwrites.plain
  generalize hbody : tx.body = body at hwrites hplain
  cases hwrites with
  | @addStaker stakerTx s hid hs =>
      have houtstanding := h.outstanding_enroll (h.enrolls hnew hbody hid hs) .pending .committed
      refine .untouched ?_ ?_ ?_ ((houtstanding supernet).trans (add_zero _)) <;>
        (rw [List.singleton_append, c.writeAll_enroll]; rfl)
  | createSupernet | createChain =>
      have hplain := hplain fun _ hother => by cases hother
      exact .untouched rfl rfl rfl (h.outstanding_record hnew hplain supernet)
  | @transformSupernet t hcheck =>
      obtain ⟨hother, hbefore, _⟩ := of_checkTransformation hcheck
      rw [h.transformation_eq] at hbefore
      have houtstanding :=
        h.outstanding_record hnew (hplain fun _ hother => by cases hother) supernet
      -- The balances of all other supernets are as they were.
      by_cases heq : supernet = t.supernetId
      · subst heq
        exact .transformed hother hbefore (Function.update_self _ _ _) (Function.update_self _ _ _)
          (Function.update_self _ _ _) houtstanding
      · exact .untouched (Function.update_of_ne heq _ _) (Function.update_of_ne heq _ _)
          (Function.update_of_ne heq _ _) houtstanding

/-! ## Claims -/

theorem continues_claim (h : l.Upholds c) (hclaimed : l.claimedStaker stakerTx = .ok s)
    (hrewards : Rewards stakerTx s (l.write (.delete .current s)) writes) (supernet : EntityId) :
    Contents.Continues supernet c (c.writeAll (.delete .current s :: writes)) := by
  have hcurrent := h.mem_of_claimedStaker hclaimed
  obtain ⟨rfl, _⟩ := of_claimedStaker hclaimed
  have hretired := h.retire hcurrent
  have houtstanding := h.outstanding_retire hcurrent supernet
  change Contents.Continues supernet c ((c.write (.delete .current s)).writeAll writes)
  rw [c.write_delete] at hretired houtstanding ⊢
  -- The staker is gone with its promise; what is left is whether the promise was paid.
  cases hrewards with
  | nothing hzero =>
      refine .untouched rfl rfl rfl ?_
      exact houtstanding.trans (by rw [Staker.owed_eq_zero hzero, sub_zero])
  | @paid owner utxo hutxo =>
      obtain ⟨hamount, paid, hpaid, hnext⟩ := h.paid_of_rewardOutput hcurrent hutxo
      obtain ⟨tx, status, htx, hstaked⟩ := h.stakes hcurrent
      refine .untouched rfl rfl rfl ?_
      have hstored : ((c.updateStakers .current (· \ {s})).write (.addUtxo utxo)).outstanding
          supernet = c.outstanding supernet - s.owed supernet :=
        (Contents.outstanding_plain (w := .addUtxo utxo) trivial _ _).trans houtstanding
      refine (Contents.outstanding_addRewardUtxo
        (c := (c.updateStakers .current (· \ {s})).write (.addUtxo utxo)) htx hstaked hpaid
        hamount supernet).trans ?_
      rw [hstored, sub_add_cancel]
  | @forfeited pool total hpool htotal =>
      rw [hretired.rewardPool_eq] at hpool
      have hplain : (Write.setRewardPool s.supernetId total).IsPlain := trivial
      have hsame : ((c.updateStakers .current (· \ {s})).writeAll
          [.setRewardPool s.supernetId total]).outstanding supernet =
            c.outstanding supernet - s.owed supernet :=
        (Contents.outstanding_plain hplain _ supernet).trans houtstanding
      by_cases heq : supernet = s.supernetId
      · subst heq
        refine .funded rfl hpool (Function.update_self _ _ _) fun supply hsupply => ?_
        refine ⟨supply, hsupply, fun _ => rfl, ?_⟩
        rw [hsame, s.owed_self]
        omega
      · refine .untouched rfl rfl (Function.update_of_ne heq _ _) ?_
        exact hsame.trans (by rw [Staker.owed_ne heq, sub_zero])

/-! ## Moves of time -/

theorem outstanding_promoteAll (h : l.Upholds c) (hpromotable : c.Promotable promotions)
    (supernet : EntityId) :
    (c.writeAll (promotions.flatMap promotionWrites)).outstanding supernet =
      c.outstanding supernet + promises supernet promotions := by
  induction promotions generalizing l c with
  | nil => exact (add_zero _).symm
  | cons p rest ih =>
      obtain ⟨s, reward, rfl, hpermissioned⟩ := (hpromotable.promotes _ List.mem_cons_self).eq_promoted
      have hs := hpromotable.waiting _ List.mem_cons_self
      rw [List.flatMap_cons, Contents.writeAll_append,
        ih (h.promote hs hpermissioned) hpromotable.rest, h.outstanding_promote hs, promises,
        promises, List.map_cons, List.sum_cons, add_assoc]

/-- Nothing changes when stakers retire to whom nothing is promised. -/
theorem outstanding_retireAll (h : l.Upholds c) (hretirable : c.Retirable retirements)
    (hzero : ∀ s ∈ retirements, s.potentialReward = 0) (supernet : EntityId) :
    (c.writeAll (retirements.map (.delete .current))).outstanding supernet =
      c.outstanding supernet := by
  induction retirements generalizing l c with
  | nil => rfl
  | cons s rest ih =>
      have hs := hretirable.present s List.mem_cons_self
      refine (ih (h.retire hs) hretirable.rest
        fun t ht => hzero t (List.mem_cons_of_mem _ ht)).trans ?_
      rw [h.outstanding_retire hs, Staker.owed_eq_zero (hzero s List.mem_cons_self), sub_zero]

/-- The promises that a plan adds are all that it adds to the outstanding rewards. -/
theorem outstanding_advance (h : l.Upholds c) (hplan : l.planAdvance rewards time = .ok plan)
    (supernet : EntityId) :
    (c.writeAll plan.writes).outstanding supernet =
      c.outstanding supernet + promises supernet plan.promotions := by
  obtain ⟨hpromotable, hretirable, hretired⟩ := h.shows.of_planAdvance hplan
  -- Permissioned validators are promised nothing, so those who retire leave no debt.
  have hzero : ∀ s ∈ plan.retirements, s.potentialReward = 0 := by
    obtain ⟨book, _, hstaked⟩ := h
    exact fun s hs => hstaked.unrewarded s (hretired s hs).1 (hretired s hs).2
  rw [writes_eq, stakerWrites, Contents.writeAll_append, Contents.writeAll_append,
    Contents.outstanding_plains fun w hw => (plain_of_mem_balanceWrites plan hw).1,
    (h.promoteAll hpromotable).outstanding_retireAll hretirable hzero,
    h.outstanding_promoteAll hpromotable]

theorem continues_advance (h : l.Upholds c) (hplan : l.planAdvance rewards time = .ok plan)
    (supernet : EntityId) : Contents.Continues supernet c (c.writeAll plan.writes) := by
  have hsum := h.outstanding_advance hplan supernet
  have hsupplyAfter : (c.writeAll plan.writes).supply supernet =
      overlaid (plan.supplies.get? supernet) (c.supply supernet) := by rw [c.writeAll_plan]
  have hpoolAfter : (c.writeAll plan.writes).rewardPool supernet =
      overlaid (plan.rewardPools.get? supernet) (c.rewardPool supernet) := by rw [c.writeAll_plan]
  have hsame : (c.writeAll plan.writes).transformation supernet = c.transformation supernet := by
    rw [c.writeAll_plan]
  cases funds_of_planAdvance hplan supernet with
  | untouched hsupply hpool hzero =>
      refine .untouched hsame ?_ ?_ (hsum.trans (by rw [hzero, add_zero]))
      · rw [hsupplyAfter, hsupply, overlaid_none]
      · rw [hpoolAfter, hpool, overlaid_none]
  | @funded supply supply' pool pool' hsupply hsupply' hpool hpool' hfixed hbalance =>
      refine .funded hsame ((h.rewardPool_eq supernet).symm.trans hpool)
        (by rw [hpoolAfter, hpool', overlaid_some]) fun x hx => ?_
      rw [← h.supply_eq, hsupply] at hx
      cases hx
      refine ⟨supply', by rw [hsupplyAfter, hsupply', overlaid_some], hfixed, ?_⟩
      rw [hsum]
      omega

/-- Every operation keeps the accounts of every supernet. -/
theorem continues (h : l.Upholds c) (hperforms : l.Performs configs writes) (supernet : EntityId) :
    Contents.Continues supernet c (c.writeAll writes) := by
  cases hperforms with
  | transaction _ hnew hwrites => exact h.continues_transaction hnew hwrites supernet
  | advance _ hplan => exact h.continues_advance hplan supernet
  | claim hclaimed hrewards => exact h.continues_claim hclaimed hrewards supernet

end Ledger.Upholds

end StakingLedger
