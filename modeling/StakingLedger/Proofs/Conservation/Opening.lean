import StakingLedger.Proofs.Conservation.Accounts
import StakingLedger.Proofs.Operation.Opening

/-! # A genesis opens the accounts

The rewards of a genesis are those of its validators, all of them on the primary
network, and its balances paid for them. So it opens the accounts of the primary
network with what it names as initial balances.
-/

namespace StakingLedger

variable {g : Genesis} {l : Ledger} {c : Contents} {s : State} {p : Placement}
  {placed : List Placement} {supernet : EntityId}

theorem Contents.outstanding_fresh (supernet : EntityId) : fresh.outstanding supernet = 0 := by
  have hpromised : fresh.promised supernet = 0 := finsum_mem_empty
  have hpaid : fresh.paid supernet = 0 :=
    (finsum_congr fun _ => rfl).trans finsum_zero
  rw [outstanding, hpromised, hpaid, add_zero]

theorem Placement.owed_staker (hprimary : p.tx.supernetId = .primaryNetwork)
    (supernet : EntityId) :
    p.staker.owed supernet = if supernet = .primaryNetwork then (p.reward.toNat : Int) else 0 := by
  have hsupernet : p.staker.supernetId = .primaryNetwork := hprimary
  by_cases hself : supernet = .primaryNetwork
  · rw [if_pos hself, hself, ← hsupernet, Staker.owed_self]
    rfl
  · rw [if_neg hself]
    exact Staker.owed_ne (hsupernet ▸ hself)

/-- Placed validators add the rewards that were funded for them. -/
theorem Ledger.Upholds.outstanding_placeAll (h : l.Upholds c) (hplaceable : c.Placeable placed)
    (supernet : EntityId) :
    (c.writeAll (placed.flatMap Placement.writes)).outstanding supernet =
      c.outstanding supernet +
        if supernet = .primaryNetwork then State.placedRewards placed else 0 := by
  induction placed generalizing l c with
  | nil => simp [Contents.writeAll, State.placedRewards]
  | cons p rest ih =>
      have hp := hplaceable.fits p List.mem_cons_self
      have howed := h.outstanding_enroll hp.enrolls .current .committed supernet
      rw [← Placement.writes_eq hp.kind, if_pos rfl, Placement.owed_staker hp.primary] at howed
      rw [List.flatMap_cons, Contents.writeAll_append, ih (h.place hp) hplaceable.rest, howed,
        add_assoc]
      congr 1
      split
      · simp [State.placedRewards]
      · rfl

namespace State.GenesisRecord

theorem outstanding_contents (r : GenesisRecord {} g s) (supernet : EntityId) :
    r.contents.outstanding supernet =
      if supernet = .primaryNetwork then placedRewards r.placed else 0 := by
  rw [contents_eq, Contents.outstanding_plains fun w hw => (plain_of_genesisRecords hw).1,
    Contents.outstanding_plains (plain_balances r.supply r.pool),
    (Ledger.upholds_fresh.plains_root (plain_clock g)).outstanding_placeAll r.placeable,
    Contents.outstanding_plains (plain_clock g), Contents.outstanding_fresh, zero_add]

/-- The accounts after the genesis. -/
theorem accounted_contents (r : GenesisRecord {} g s) (supernet : EntityId) :
    r.contents.Accounted g supernet := by
  have hfigures := r.figures_contents
  simp only [Contents.figures, Prod.mk.injEq] at hfigures
  obtain ⟨_, hsupply, hpool, htransformation⟩ := hfigures
  have hnone : r.contents.transformation supernet = .ok none := congrFun htransformation supernet
  have hsum := r.outstanding_contents supernet
  by_cases hself : supernet = .primaryNetwork
  · rw [if_pos hself] at hsum
    refine .primary hself hnone ⟨r.supply, r.pool, ?_, ?_, ?_⟩
    · rw [hsupply, hself, Function.update_self]
    · rw [hpool, hself, Function.update_self]
    · rw [hsum, r.balance]
  · rw [if_neg hself] at hsum
    refine .closed hself hnone (fun amount hread => ?_) (fun amount hread => ?_) hsum
    · rw [hsupply, Function.update_of_ne hself] at hread
      cases hread
    · rw [hpool, Function.update_of_ne hself] at hread
      cases hread

end State.GenesisRecord

end StakingLedger
