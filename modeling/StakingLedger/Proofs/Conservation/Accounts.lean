import StakingLedger.Genesis
import StakingLedger.Proofs.Conservation.Outstanding

/-! # The accounts of the supernets

A supernet has balances from its transformation on, and the primary network has
them from the genesis on. An operation leaves the balances of a supernet alone,
or the supply and the pool pay for what it does to the outstanding rewards, or it
transforms the supernet.
-/

namespace StakingLedger

namespace Contents

variable {g : Genesis} {c c' : Contents} {supernet : EntityId} {total : Int}

/-- The supply of a supernet, less its pool and its outstanding rewards, is `total`. -/
def Balances (c : Contents) (supernet : EntityId) (total : Int) : Prop :=
  ∃ supply pool, c.supply supernet = .ok supply ∧ c.rewardPool supernet = .ok pool ∧
    (supply.toNat : Int) - pool.toNat - c.outstanding supernet = total

/-- What an operation may do to the balances of a supernet. -/
inductive Continues (supernet : EntityId) (c c' : Contents) : Prop
  | untouched (htransformation : c'.transformation supernet = c.transformation supernet)
    (hsupply : c'.supply supernet = c.supply supernet)
    (hpool : c'.rewardPool supernet = c.rewardPool supernet)
    (houtstanding : c'.outstanding supernet = c.outstanding supernet)
  /-- Off the primary network the supply is fixed. -/
  | funded {pool pool' : UInt64}
    (htransformation : c'.transformation supernet = c.transformation supernet)
    (hpool : c.rewardPool supernet = .ok pool) (hpool' : c'.rewardPool supernet = .ok pool')
    (hsupply : ∀ supply, c.supply supernet = .ok supply → ∃ supply',
      c'.supply supernet = .ok supply' ∧ (supernet ≠ .primaryNetwork → supply' = supply) ∧
        (supply'.toNat : Int) - pool'.toNat - c'.outstanding supernet =
          supply.toNat - pool.toNat - c.outstanding supernet)
  | transformed {t : SupernetTransformation} (hother : supernet ≠ .primaryNetwork)
    (hbefore : c.transformation supernet = .ok none)
    (hafter : c'.transformation supernet = .ok (some t))
    (hsupply : c'.supply supernet = .ok t.initialSupply)
    (hpool : c'.rewardPool supernet = .ok t.initialRewardPool)
    (houtstanding : c'.outstanding supernet = c.outstanding supernet)

/-- The accounts of a supernet since the genesis. -/
inductive Accounted (g : Genesis) (supernet : EntityId) (c : Contents) : Prop
  | primary (hprimary : supernet = .primaryNetwork) (hnone : c.transformation supernet = .ok none)
    (hbalances : c.Balances supernet (g.initialSupply.toNat - g.initialRewardPool.toNat))
  /-- Without a transformation there are no balances and no rewards. -/
  | closed (hother : supernet ≠ .primaryNetwork) (hnone : c.transformation supernet = .ok none)
    (hsupply : ∀ amount, c.supply supernet ≠ .ok amount)
    (hpool : ∀ amount, c.rewardPool supernet ≠ .ok amount) (hzero : c.outstanding supernet = 0)
  | transformed {t : SupernetTransformation} (hother : supernet ≠ .primaryNetwork)
    (ht : c.transformation supernet = .ok (some t))
    (hsupply : c.supply supernet = .ok t.initialSupply)
    (hbalances : c.Balances supernet (t.initialSupply.toNat - t.initialRewardPool.toNat))

namespace Continues

/-- Once there are balances, their total stays. -/
theorem balances (h : Continues supernet c c')
    (hopen : supernet = .primaryNetwork ∨ ∃ t, c.transformation supernet = .ok (some t))
    (hbalances : c.Balances supernet total) : c'.Balances supernet total := by
  obtain ⟨supply, pool, hsupply, hpool, htotal⟩ := hbalances
  cases h with
  | untouched _ hsupply' hpool' houtstanding =>
      exact ⟨supply, pool, hsupply'.trans hsupply, hpool'.trans hpool, by rw [houtstanding, htotal]⟩
  | funded _ hread hpool' hfunded =>
      rw [hpool] at hread
      cases hread
      obtain ⟨supply', hsupply', _, hbalance⟩ := hfunded supply hsupply
      exact ⟨supply', _, hsupply', hpool', hbalance.trans htotal⟩
  | transformed hother hbefore =>
      -- A supernet with balances is not transformed again.
      rcases hopen with rfl | ⟨t, ht⟩
      · exact absurd rfl hother
      · rw [ht] at hbefore
        cases hbefore

/-- A transformation is for good. -/
theorem transformation (h : Continues supernet c c') {t : SupernetTransformation}
    (ht : c.transformation supernet = .ok (some t)) :
    c'.transformation supernet = .ok (some t) := by
  cases h with
  | untouched hsame => rw [hsame, ht]
  | funded hsame => rw [hsame, ht]
  | transformed _ hbefore =>
      rw [ht] at hbefore
      cases hbefore

end Continues

/-- Every operation keeps the accounts. -/
theorem Accounted.continues (h : Accounted g supernet c) (hc : Continues supernet c c') :
    Accounted g supernet c' := by
  cases h with
  | primary hprimary hnone hbalances =>
      refine .primary hprimary ?_ (hc.balances (Or.inl hprimary) hbalances)
      cases hc with
      | untouched hsame => rw [hsame, hnone]
      | funded hsame => rw [hsame, hnone]
      | transformed hother => exact absurd hprimary hother
  | closed hother hnone hsupply hpool hzero =>
      cases hc with
      | untouched hsame hsupply' hpool' houtstanding =>
          exact .closed hother (hsame.trans hnone) (hsupply' ▸ hsupply) (hpool' ▸ hpool)
            (houtstanding.trans hzero)
      | funded _ hread => exact absurd hread (hpool _)
      | transformed _ _ hafter hsupply' hpool' houtstanding =>
          refine .transformed hother hafter hsupply' ⟨_, _, hsupply', hpool', ?_⟩
          rw [houtstanding, hzero, sub_zero]
  | transformed hother ht hsupply hbalances =>
      have hafter := hc.transformation ht
      refine .transformed hother hafter ?_ (hc.balances (Or.inr ⟨_, ht⟩) hbalances)
      cases hc with
      | untouched _ hsame => exact hsame.trans hsupply
      | funded _ _ _ hfunded =>
          obtain ⟨supply', hsupply', hfixed, _⟩ := hfunded _ hsupply
          rw [hsupply', hfixed hother]
      | transformed _ hbefore =>
          rw [ht] at hbefore
          cases hbefore

/-- A supernet that is transformed is not the primary network, and its supply is fixed. -/
theorem Accounted.of_transformation (h : Accounted g supernet c) {t : SupernetTransformation}
    (ht : c.transformation supernet = .ok (some t)) :
    c.supply supernet = .ok t.initialSupply ∧
      c.Balances supernet (t.initialSupply.toNat - t.initialRewardPool.toNat) := by
  cases h with
  | primary _ hnone =>
      rw [hnone] at ht
      cases ht
  | closed _ hnone =>
      rw [hnone] at ht
      cases ht
  | transformed _ ht' hsupply hbalances =>
      rw [ht'] at ht
      cases ht
      exact ⟨hsupply, hbalances⟩

/-- A supernet off the primary network has a supply by its transformation only. -/
theorem Accounted.of_supply (h : Accounted g supernet c) (hother : supernet ≠ .primaryNetwork)
    {amount : UInt64} (hsupply : c.supply supernet = .ok amount) :
    ∃ t, c.transformation supernet = .ok (some t) ∧ amount = t.initialSupply := by
  cases h with
  | primary hprimary => exact absurd hprimary hother
  | closed _ _ hnone => exact absurd hsupply (hnone amount)
  | transformed _ ht hsupply' =>
      rw [hsupply'] at hsupply
      cases hsupply
      exact ⟨_, ht, rfl⟩

end Contents

/-- The balances of the contents can be read from the ledger. -/
theorem Ledger.Upholds.balances {l : Ledger} {c : Contents} {supernet : EntityId} {total : Int}
    (h : l.Upholds c) (hbalances : c.Balances supernet total) : l.view.Balances supernet total := by
  obtain ⟨supply, pool, hsupply, hpool, htotal⟩ := hbalances
  have hshows := h.shows
  obtain ⟨current, hcurrent, hmembers⟩ := hshows.stakers .current
  obtain ⟨book, _, hstaked⟩ := h
  refine ⟨supply, pool, current, hshows.supply ▸ hsupply, hshows.rewardPool ▸ hpool, hcurrent,
    fun stakerTx => ⟨?_, ?_⟩, ?_⟩
  · rw [hshows.tx]
    exact hstaked.answered stakerTx
  · obtain ⟨paid, hpaid, _⟩ := hstaked.numbered stakerTx
    exact ⟨paid, by rw [hshows.rewardUtxos, hpaid]⟩
  · rw [hshows.tx, hshows.rewardUtxos, ← Contents.promised_eq_sum hmembers, sub_sub]
    exact htotal

end StakingLedger
