import StakingLedger.Amount
import StakingLedger.Proofs.Answer
import StakingLedger.Reward

/-! # Funding a reward

A reward is paid out of the pool of its supernet, and on the primary network
the rest is minted. The supply less the pool grows by just what is credited.
-/

namespace StakingLedger

/-- A funded reward leaves the pool or is minted; nothing else happens to the balances. -/
theorem fundReward_conserves {supernet : EntityId} {reward pool supply : UInt64} {f : Funding}
    (h : fundReward supernet reward pool supply = .ok f) :
    (f.currentSupply.toNat : Int) - f.rewardPool.toNat - f.reward.toNat =
      supply.toNat - pool.toNat := by
  unfold fundReward at h
  split at h
  next hcovered =>
    cases h
    have hle := UInt64.le_iff_toNat_le.mp hcovered
    dsimp only
    rw [UInt64.toNat_sub_of_le _ _ hcovered]
    omega
  next hshort =>
    -- Off the primary network the credit is cut to the pool; on it the difference is minted.
    have hlt : pool.toNat < reward.toNat := by
      have hnot := mt UInt64.le_iff_toNat_le.mpr hshort
      omega
    split at h
    next hprimary =>
      obtain ⟨total, htotal, h⟩ := bind_eq_ok_iff.mp h
      cases h
      have hsum := checkedAdd_eq_ok_iff.mp htotal
      have hle : pool ≤ reward := UInt64.le_iff_toNat_le.mpr (Nat.le_of_lt hlt)
      rw [UInt64.toNat_sub_of_le _ _ hle] at hsum
      dsimp only
      have hzero : (0 : UInt64).toNat = 0 := rfl
      omega
    next hother =>
      cases h
      dsimp only
      have hzero : (0 : UInt64).toNat = 0 := rfl
      omega

/-- On the primary network a reward is credited in full: what the pool lacks is minted. -/
theorem fundReward_primary_eq_ok_iff {reward pool supply : UInt64} {f : Funding} :
    fundReward .primaryNetwork reward pool supply = .ok f ↔
      f.reward = reward ∧ f.rewardPool.toNat = pool.toNat - reward.toNat ∧
        f.currentSupply.toNat = supply.toNat + (reward.toNat - pool.toNat) := by
  obtain ⟨credited, rest, total⟩ := f
  dsimp only
  unfold fundReward
  by_cases hcovered : reward ≤ pool
  · have hle := UInt64.le_iff_toNat_le.mp hcovered
    rw [if_pos hcovered]
    change Except.ok (⟨reward, pool - reward, supply⟩ : Funding) = .ok _ ↔ _
    rw [Except.ok.injEq, Funding.mk.injEq, eq_comm (a := reward)]
    rw [← UInt64.toNat_inj (a := pool - reward), ← UInt64.toNat_inj (a := supply),
      UInt64.toNat_sub_of_le _ _ hcovered, Nat.sub_eq_zero_of_le hle, Nat.add_zero,
      eq_comm (a := rest.toNat), eq_comm (a := total.toNat)]
  · have hlt : pool.toNat < reward.toNat := by
      have hnot := mt UInt64.le_iff_toNat_le.mpr hcovered
      omega
    have hle : pool ≤ reward := UInt64.le_iff_toNat_le.mpr (Nat.le_of_lt hlt)
    rw [if_neg hcovered]
    change (checkedAdd supply (reward - pool) "current supply" >>= fun total =>
      (Except.ok ⟨reward, 0, total⟩ : Answer Funding)) = .ok _ ↔ _
    rw [bind_eq_ok_iff]
    have hzero : (0 : UInt64).toNat = 0 := rfl
    constructor
    · rintro ⟨minted, hminted, h⟩
      have hsum := checkedAdd_eq_ok_iff.mp hminted
      rw [UInt64.toNat_sub_of_le _ _ hle] at hsum
      cases h
      exact ⟨rfl, by omega, hsum.symm⟩
    · rintro ⟨rfl, hpool, hsupply⟩
      obtain rfl : rest = 0 := UInt64.toNat_inj.mp (by omega)
      refine ⟨total, checkedAdd_eq_ok_iff.mpr ?_, rfl⟩
      rw [UInt64.toNat_sub_of_le _ _ hle]
      exact hsupply.symm

example : fundReward .primaryNetwork 10 4 100 = .ok ⟨10, 0, 106⟩ := by decide

/-- Off the primary network funding never changes the supply. -/
theorem fundReward_supply {supernet : EntityId} {reward pool supply : UInt64} {f : Funding}
    (h : fundReward supernet reward pool supply = .ok f) (hother : supernet ≠ .primaryNetwork) :
    f.currentSupply = supply := by
  have hprimary : supernet.isPrimaryNetwork = false := by
    simpa [EntityId.isPrimaryNetwork] using hother
  unfold fundReward at h
  split at h
  · cases h; rfl
  · rw [if_neg (by simp [hprimary])] at h
    cases h
    rfl

end StakingLedger
