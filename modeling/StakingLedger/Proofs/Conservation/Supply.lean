import StakingLedger.Proofs.Conservation.Continuing
import StakingLedger.Proofs.Conservation.Opening
import StakingLedger.Proofs.Operation.Script

/-! # Conservation of the staking asset

Whatever is staked, claimed and forfeited along a run, the supply of a network
less its reward pool and all rewards, promised or paid, is what its balances were
opened with. Off the primary network nothing is minted, so the supply itself is
fixed by the transformation.
-/

namespace StakingLedger.Ledger

variable {configs : Set StakingConfig} {g : Genesis} {config : StakingConfig} {l l' : Ledger}
  {supernet : EntityId}

theorem Runs.accounted (h : Runs configs g config l) :
    ∃ c, l.Upholds c ∧ ∀ supernet, c.Accounted g supernet :=
  h.invariant (fun r _ => r.accounted_contents)
    fun hupholds haccounted hperforms supernet =>
      (haccounted supernet).continues (hupholds.continues hperforms supernet)

theorem Upholds.accounted_step {c : Contents} (h : l.Upholds c)
    (haccounted : ∀ supernet, c.Accounted g supernet) (hop : l.Operates configs l') :
    ∃ c', l'.Upholds c' ∧ (∀ supernet, c'.Accounted g supernet) ∧
      ∀ supernet t, c.transformation supernet = .ok (some t) →
        c'.transformation supernet = .ok (some t) := by
  rcases h.operates hop with ⟨writes, hperforms, rfl⟩ | hsame
  · have hcontinues := h.continues hperforms
    exact ⟨_, h.performs hperforms, fun supernet => (haccounted supernet).continues
      (hcontinues supernet), fun supernet t => (hcontinues supernet).transformation⟩
  · exact ⟨c, hsame, haccounted, fun _ _ => id⟩

/-- Along every run the accounts of the primary network and of each transformed supernet balance,
and no step changes a transformation or the supply of another network than the primary one. -/
theorem supply_conserved (h : Runs configs g config l) :
    l.view.Balances .primaryNetwork (g.initialSupply.toNat - g.initialRewardPool.toNat) ∧
      (∀ supernet t, l.transformation supernet = .ok (some t) →
        l.supply supernet = .ok t.initialSupply ∧
          l.view.Balances supernet (t.initialSupply.toNat - t.initialRewardPool.toNat)) ∧
      ∀ l', l.Operates configs l' → ∀ supernet, supernet ≠ .primaryNetwork →
        (∀ t, l.transformation supernet = .ok (some t) →
          l'.transformation supernet = .ok (some t)) ∧
        ∀ amount, l.supply supernet = .ok amount → l'.supply supernet = .ok amount := by
  obtain ⟨c, hupholds, haccounted⟩ := h.accounted
  refine ⟨?_, fun supernet t ht => ?_, fun l' hop supernet hother => ?_⟩
  · cases haccounted .primaryNetwork with
    | primary _ _ hbalances => exact hupholds.balances hbalances
    | closed hother => exact absurd rfl hother
    | transformed hother => exact absurd rfl hother
  · rw [hupholds.transformation_eq] at ht
    obtain ⟨hsupply, hbalances⟩ := (haccounted supernet).of_transformation ht
    exact ⟨(hupholds.supply_eq supernet).trans hsupply, hupholds.balances hbalances⟩
  · obtain ⟨c', hupholds', haccounted', hkept⟩ := hupholds.accounted_step haccounted hop
    rw [hupholds.transformation_eq, hupholds'.transformation_eq, hupholds.supply_eq,
      hupholds'.supply_eq]
    refine ⟨hkept supernet, fun amount hsupply => ?_⟩
    -- A supply off the primary network is that of a transformation, and this one is kept.
    obtain ⟨t, ht, rfl⟩ := (haccounted supernet).of_supply hother hsupply
    exact ((haccounted' supernet).of_transformation (hkept supernet t ht)).1

theorem supply_conserved_sample :
    Runs {.sample} .sample .sample Ledger.sample ∧
      Ledger.sample.view.Balances .primaryNetwork 99999500000000 ∧
      Ledger.sample.transformation sampleSupernet = .ok (some sampleTransformation) ∧
      Ledger.sample.supply sampleSupernet = .ok 10000000000000 ∧
      Ledger.sample.view.Balances sampleSupernet 9000000000000 := by
  have htransformed : Ledger.sample.transformation sampleSupernet =
      .ok (some sampleTransformation) := by
    decide +kernel
  obtain ⟨hprimary, htransformations, _⟩ := supply_conserved runs_sample
  obtain ⟨hsupply, hsupernet⟩ := htransformations _ _ htransformed
  exact ⟨runs_sample, hprimary, htransformed, hsupply, hsupernet⟩

end StakingLedger.Ledger
