import StakingLedger.Proofs.Operation.Run

/-! # How stakers move

Seen from the stakers, an operation does one of five things: it leaves them
alone, transforms a supernet, lets a staker join, moves time, or retires the
first staker that is due. What each of them does to the chain time, the stakers
and the transformations is said here once.
-/

namespace StakingLedger

variable {configs : Set StakingConfig} {config : StakingConfig} {l l' : Ledger} {c c' : Contents}
  {writes : List Write} {tx : StoredTx} {stakerTx : EntityId} {s t : Staker}

/-- The staker is the next one to be claimed: it is due now, earns rewards, and nobody stands
before it. -/
structure Contents.Claimable (c : Contents) (s : Staker) : Prop where
  current : s ∈ c.stakers .current
  due : s.endTime = c.timestamp
  rewarded : s.priority.isPermissioned = false
  first : ∀ t ∈ c.stakers .current, compare s.key t.key ≠ .gt

/-- What the writes of an operation do to the chain time, the stakers and the transformations. -/
inductive Ledger.Moves (configs : Set StakingConfig) (l : Ledger) (c : Contents)
    (writes : List Write) : Prop
  | unmoved (htime : (c.writeAll writes).timestamp = c.timestamp)
    (hstakers : (c.writeAll writes).stakers = c.stakers)
    (htransformation : (c.writeAll writes).transformation = c.transformation)
  | transformed {t : SupernetTransformation} (hother : t.supernetId ≠ .primaryNetwork)
    (hnone : c.transformation t.supernetId = .ok none) (hvalid : t.staking.validate = .ok ())
    (htime : (c.writeAll writes).timestamp = c.timestamp)
    (hstakers : (c.writeAll writes).stakers = c.stakers)
    (htransformation : (c.writeAll writes).transformation =
      Function.update c.transformation t.supernetId (.ok (some t)))
  | enrolled {tx : StakerTx} {config : StakingConfig} {rules : Option StakingConfig}
    (hconfig : config ∈ configs) (hnone : c.tx tx.txId = .ok none)
    (hadmits : l.Admits config tx rules)
    (htime : (c.writeAll writes).timestamp = c.timestamp)
    (hstakers : ∀ phase s, s ∈ (c.writeAll writes).stakers phase ↔
      (phase = .pending ∧ s = pendingStaker tx) ∨ s ∈ c.stakers phase)
    (htransformation : (c.writeAll writes).transformation = c.transformation)
  | advanced {rewards : RewardPolicy} {time : UInt64} {plan : TimeAdvance}
    (hverify : l.verifyAdvance time = .ok ()) (hplan : l.planAdvance rewards time = .ok plan)
    (hwrites : writes = plan.writes) (hadvances : c.Advances time (c.writeAll writes))
  | claimed {s : Staker} (hclaimable : c.Claimable s)
    (htime : (c.writeAll writes).timestamp = c.timestamp)
    (hstakers : ∀ phase t, t ∈ (c.writeAll writes).stakers phase ↔
      t ∈ c.stakers phase ∧ (phase = .current → t ≠ s))
    (htransformation : (c.writeAll writes).transformation = c.transformation)

namespace Ledger.Upholds

theorem claimable (h : l.Upholds c) (hclaimed : l.claimedStaker stakerTx = .ok s) :
    c.Claimable s := by
  obtain ⟨_, hdue, hrewarded, held, hheld, hfirst⟩ := of_claimedStaker hclaimed
  obtain ⟨held', hheld', hmembers⟩ := h.shows.stakers .current
  rw [hheld] at hheld'
  cases hheld'
  exact ⟨h.mem_of_claimedStaker hclaimed, hdue.trans h.timestamp_eq, hrewarded,
    fun t ht => hmembers.head_first hfirst ht⟩

theorem moves_transaction (h : l.Upholds c) (hconfig : config ∈ configs)
    (hnew : l.tx tx.id = .ok none) (hwrites : tx.body.Writes l config tx.id writes) :
    l.Moves configs c (writes ++ [.addTx tx .committed]) := by
  rw [h.tx_eq] at hnew
  generalize hbody : tx.body = body at hwrites
  cases hwrites with
  | @addStaker stakerTx s hid hs =>
      obtain ⟨rfl, rules, hadmits⟩ := admits_of_admitStaker hs
      refine .enrolled hconfig (hid ▸ hnew) hadmits ?_ (fun phase s => ?_) ?_ <;>
        rw [List.singleton_append, c.writeAll_enroll]
      · rfl
      · exact Contents.mem_stakers_insert
      · rfl
  | createSupernet | createChain => exact .unmoved rfl rfl rfl
  | transformSupernet hcheck =>
      obtain ⟨hother, hbefore, _, hvalid⟩ := of_checkTransformation hcheck
      rw [h.transformation_eq] at hbefore
      exact .transformed hother hbefore hvalid rfl rfl rfl

theorem moves_claim (h : l.Upholds c) (hclaimed : l.claimedStaker stakerTx = .ok s)
    (hrewards : Rewards stakerTx s (l.write (.delete .current s)) writes) :
    l.Moves configs c (.delete .current s :: writes) := by
  refine .claimed (h.claimable hclaimed) ?_ (fun phase t => ?_) ?_ <;> rw [c.writeAll_retire]
  · cases hrewards <;> rfl
  · rw [← Contents.mem_stakers_delete]
    cases hrewards <;> rfl
  · cases hrewards <;> rfl

/-- Every operation is one of the moves. -/
theorem moves (h : l.Upholds c) (hperforms : l.Performs configs writes) :
    l.Moves configs c writes := by
  cases hperforms with
  | transaction hconfig hnew hwrites => exact h.moves_transaction hconfig hnew hwrites
  | advance hverify hplan => exact .advanced hverify hplan rfl (h.advances hverify hplan)
  | claim hclaimed hrewards => exact h.moves_claim hclaimed hrewards

end Ledger.Upholds

end StakingLedger
