import StakingLedger.Proofs.Operation.Transactions

/-! # Reward claims as writes

A claim retires the first current staker, which has to end now. Its reward is
recorded as an output of its staking transaction, or it goes back to the pool of
its supernet.
-/

namespace StakingLedger

open LedgerM

variable {l l' : Ledger} {c : Contents} {stakerTx : EntityId} {s : Staker} {rewarded : Bool}
  {writes : List Write}

/-- What is written about the reward of a staker that was retired. -/
inductive Rewards (stakerTx : EntityId) (s : Staker) (l : Ledger) : List Write → Prop
  | nothing (hzero : s.potentialReward = 0) : Rewards stakerTx s l []
  | paid {owner : EntityId} {utxo : Utxo} (h : l.rewardOutput s owner = .ok utxo) :
    Rewards stakerTx s l [.addUtxo utxo, .addRewardUtxo stakerTx utxo]
  | forfeited {pool total : UInt64} (hpool : l.rewardPool s.supernetId = .ok pool)
    (htotal : pool.toNat + s.potentialReward.toNat = total.toNat) :
    Rewards stakerTx s l [.setRewardPool s.supernetId total]

namespace Ledger

/-- What a claim is about once it has passed every check: the staker and its transaction. -/
def claim (l : Ledger) (stakerTx : EntityId) : Answer (Staker × StakerTx) := do
  let s ← l.claimedStaker stakerTx
  let tx ← l.stakingTx stakerTx
  return (s, tx)

theorem of_claim {tx : StakerTx} (h : l.claim stakerTx = .ok (s, tx)) :
    l.claimedStaker stakerTx = .ok s ∧ l.stakingTx stakerTx = .ok tx := by
  obtain ⟨_, hs, h⟩ := bind_eq_ok_iff.mp h
  obtain ⟨_, htx, h⟩ := bind_eq_ok_iff.mp h
  cases h
  exact ⟨hs, htx⟩

/-- The writes that settle the reward of a staker that was retired, told from the ledger. -/
def rewardWrites (l : Ledger) (stakerTx : EntityId) (s : Staker) (owner : EntityId)
    (rewarded : Bool) : Answer (List Write) :=
  if s.potentialReward = 0 then .ok []
  else if rewarded then do
    let utxo ← l.rewardOutput s owner
    return [.addUtxo utxo, .addRewardUtxo stakerTx utxo]
  else do
    let pool ← l.rewardPool s.supernetId
    let total ← checkedAdd pool s.potentialReward "reward pool"
    return [.setRewardPool s.supernetId total]

/-- The writes of a claim, told from the ledger. -/
def claimWrites (l : Ledger) (stakerTx : EntityId) (rewarded : Bool) : Answer (List Write) := do
  let s ← l.claimedStaker stakerTx
  let tx ← l.stakingTx stakerTx
  let settled ← (l.write (.delete .current s)).rewardWrites stakerTx s tx.rewardOwner rewarded
  return .delete .current s :: settled

/-- There are three ways to settle a reward: it is none, it is paid out, or it goes back to the
pool. -/
theorem of_rewardWrites {owner : EntityId}
    (h : l.rewardWrites stakerTx s owner rewarded = .ok writes) :
    (s.potentialReward = 0 ∧ writes = []) ∨
      (s.potentialReward ≠ 0 ∧ rewarded = true ∧ ∃ utxo, l.rewardOutput s owner = .ok utxo ∧
        writes = [.addUtxo utxo, .addRewardUtxo stakerTx utxo]) ∨
      (s.potentialReward ≠ 0 ∧ rewarded = false ∧ ∃ pool total,
        l.rewardPool s.supernetId = .ok pool ∧
        pool.toNat + s.potentialReward.toNat = total.toNat ∧
        writes = [.setRewardPool s.supernetId total]) := by
  unfold rewardWrites at h
  split at h
  next hzero =>
    cases h
    exact Or.inl ⟨hzero, rfl⟩
  next hreward =>
  split at h
  next hpaid =>
    obtain ⟨utxo, hutxo, h⟩ := bind_eq_ok_iff.mp h
    cases h
    exact Or.inr (Or.inl ⟨hreward, hpaid, utxo, hutxo, rfl⟩)
  next hkept =>
    obtain ⟨pool, hpool, h⟩ := bind_eq_ok_iff.mp h
    obtain ⟨total, htotal, h⟩ := bind_eq_ok_iff.mp h
    cases h
    exact Or.inr (Or.inr ⟨hreward, Bool.not_eq_true _ ▸ hkept, pool, total, hpool,
      checkedAdd_eq_ok_iff.mp htotal, rfl⟩)

theorem rewards_of_rewardWrites {owner : EntityId}
    (h : l.rewardWrites stakerTx s owner rewarded = .ok writes) : Rewards stakerTx s l writes := by
  obtain ⟨hzero, rfl⟩ | ⟨_, _, utxo, hutxo, rfl⟩ | ⟨_, _, pool, total, hpool, htotal, rfl⟩ :=
    of_rewardWrites h
  · exact .nothing hzero
  · exact .paid hutxo
  · exact .forfeited hpool htotal

theorem rewards_of_claimWrites (h : l.claimWrites stakerTx rewarded = .ok writes) :
    ∃ s rest, l.claimedStaker stakerTx = .ok s ∧
      Rewards stakerTx s (l.write (.delete .current s)) rest ∧
      writes = .delete .current s :: rest := by
  obtain ⟨s, hs, h⟩ := bind_eq_ok_iff.mp h
  obtain ⟨tx, _, h⟩ := bind_eq_ok_iff.mp h
  obtain ⟨rest, hrest, h⟩ := bind_eq_ok_iff.mp h
  cases h
  exact ⟨s, rest, hs, rewards_of_rewardWrites hrest, rfl⟩

end Ledger

/-! ## The whole run of a claim -/

/-- Settling the reward of a retired staker makes just the writes of the reward. -/
theorem run_settle (l : Ledger) (stakerTx : EntityId) (s : Staker) (owner : EntityId)
    (rewarded : Bool) :
    LedgerM.run (if s.potentialReward ≠ 0 then
        if rewarded then do
          let utxo ← ask (·.rewardOutput s owner)
          write (.addUtxo utxo)
          write (.addRewardUtxo stakerTx utxo)
        else returnToPool s.supernetId s.potentialReward
      else pure ()) l =
      match l.rewardWrites stakerTx s owner rewarded with
      | .ok writes => (.ok (), l.writeAll writes)
      | .error e => (.error e, l) := by
  unfold Ledger.rewardWrites
  by_cases hzero : s.potentialReward = 0
  · rw [if_neg (not_not.mpr hzero), if_pos hzero]
    rfl
  rw [if_pos hzero, if_neg hzero]
  cases rewarded with
  | true =>
      rw [if_pos rfl, if_pos rfl, run_ask_bind]
      cases l.rewardOutput s owner with
      | error e => rfl
      | ok utxo =>
          dsimp only
          rw [run_write_bind]
          rfl
  | false =>
      rw [if_neg Bool.false_ne_true, if_neg Bool.false_ne_true, returnToPool, run_ask_bind]
      cases l.rewardPool s.supernetId with
      | error e => rfl
      | ok pool =>
          dsimp only
          rw [run_ask_bind, bind_ok]
          cases checkedAdd pool s.potentialReward "reward pool" with
          | error e => rfl
          | ok total => rfl

/-- A claim passes its checks, retires the staker and settles the reward. -/
theorem run_rewardStaker (l : Ledger) (stakerTx : EntityId) (rewarded : Bool) :
    (rewardStaker stakerTx rewarded).run l =
      match l.claim stakerTx with
      | .error e => (.error e, l)
      | .ok (s, tx) =>
        match (l.write (.delete .current s)).rewardWrites stakerTx s tx.rewardOwner rewarded with
        | .ok writes => (.ok (), (l.write (.delete .current s)).writeAll writes)
        | .error e => (.error e, l.write (.delete .current s)) := by
  rw [rewardStaker, run_ask_bind, Ledger.claim]
  cases l.claimedStaker stakerTx with
  | error e => rfl
  | ok s =>
      dsimp only
      rw [run_ask_bind, bind_ok]
      cases l.stakingTx stakerTx with
      | error e => rfl
      | ok tx =>
          dsimp only
          rw [run_write_bind]
          exact run_settle _ stakerTx s tx.rewardOwner rewarded

/-- A claim that succeeds has made the writes that settle the reward. -/
theorem settled_of_rewardStaker (h : (rewardStaker stakerTx rewarded).run l = (.ok (), l')) :
    ∃ s tx writes, l.claim stakerTx = .ok (s, tx) ∧
      (l.write (.delete .current s)).rewardWrites stakerTx s tx.rewardOwner rewarded = .ok writes ∧
      l' = (l.write (.delete .current s)).writeAll writes := by
  rw [run_rewardStaker] at h
  cases hclaim : l.claim stakerTx with
  | error e =>
      rw [hclaim] at h
      cases h
  | ok found =>
      obtain ⟨s, tx⟩ := found
      rw [hclaim] at h
      dsimp only at h
      cases hwrites : (l.write (.delete .current s)).rewardWrites stakerTx s tx.rewardOwner
          rewarded with
      | error e =>
          rw [hwrites] at h
          cases h
      | ok writes =>
          rw [hwrites] at h
          cases h
          exact ⟨s, tx, writes, rfl, hwrites, rfl⟩

/-- A claim makes just its writes. -/
theorem claimWrites_of_rewardStaker (h : (rewardStaker stakerTx rewarded).run l = (.ok (), l')) :
    ∃ writes, l.claimWrites stakerTx rewarded = .ok writes ∧ l' = l.writeAll writes := by
  obtain ⟨s, tx, writes, hclaim, hwrites, rfl⟩ := settled_of_rewardStaker h
  obtain ⟨hs, htx⟩ := Ledger.of_claim hclaim
  refine ⟨.delete .current s :: writes, ?_, rfl⟩
  rw [Ledger.claimWrites, hs, bind_ok, htx, bind_ok, hwrites]
  rfl

theorem rewards_of_rewardStaker (h : (rewardStaker stakerTx rewarded).run l = (.ok (), l')) :
    ∃ s writes, l.claimedStaker stakerTx = .ok s ∧
      Rewards stakerTx s (l.write (.delete .current s)) writes ∧
      l' = l.writeAll (.delete .current s :: writes) := by
  obtain ⟨writes, hwrites, rfl⟩ := claimWrites_of_rewardStaker h
  obtain ⟨s, rest, hs, hrewards, rfl⟩ := Ledger.rewards_of_claimWrites hwrites
  exact ⟨s, rest, hs, hrewards, rfl⟩

namespace Ledger

/-- The claimed staker comes first among the current ones, ends now and earns rewards. -/
theorem of_claimedStaker (h : l.claimedStaker stakerTx = .ok s) :
    s.txId = stakerTx ∧ s.endTime = l.timestamp ∧ s.priority.isPermissioned = false ∧
      ∃ held, l.view.stakers .current = .ok held ∧ held.head? = some s := by
  obtain ⟨current, hcurrent, h⟩ := bind_eq_ok_iff.mp h
  split at h
  · cases h
  next first hfirst =>
    obtain ⟨_, htx, h⟩ := bind_eq_ok_iff.mp h
    obtain ⟨_, hdue, h⟩ := bind_eq_ok_iff.mp h
    obtain ⟨_, hrewarded, h⟩ := bind_eq_ok_iff.mp h
    cases h
    refine ⟨beq_iff_eq.mp (require_eq_ok_iff.mp htx), beq_iff_eq.mp (require_eq_ok_iff.mp hdue),
      by simpa using require_eq_ok_iff.mp hrewarded, current.walkAll, ?_, ?_⟩
    · exact map_eq_ok_iff.mpr ⟨current, hcurrent, rfl⟩
    · rw [current.walkAll_eq_toList, hfirst]

/-- A reward output has the next index of its transaction and the amount that was promised. -/
theorem of_rewardOutput {owner : EntityId} {utxo : Utxo} (h : l.rewardOutput s owner = .ok utxo) :
    ∃ asset paid, l.rewardAsset s.supernetId = .ok asset ∧ l.rewardUtxos s.txId = .ok paid ∧
      paid.length < UInt32.size ∧
      utxo = ⟨⟨s.txId, .ofNat paid.length⟩, asset, s.potentialReward, owner⟩ := by
  obtain ⟨asset, hasset, h⟩ := bind_eq_ok_iff.mp h
  obtain ⟨paid, hpaid, h⟩ := bind_eq_ok_iff.mp h
  split at h
  next hfits =>
    cases h
    exact ⟨asset, paid, hasset, hpaid, hfits, rfl⟩
  next => cases h

end Ledger

theorem View.Shows.mem_of_claimedStaker (h : l.view.Shows c)
    (hs : l.claimedStaker stakerTx = .ok s) : s ∈ c.stakers .current := by
  obtain ⟨_, _, _, held, hheld, hfirst⟩ := Ledger.of_claimedStaker hs
  exact (h.mem_of_read hheld s).mp (List.mem_of_head? hfirst)

namespace Ledger

namespace Upholds

theorem mem_of_claimedStaker (h : l.Upholds c) (hs : l.claimedStaker stakerTx = .ok s) :
    s ∈ c.stakers .current :=
  h.shows.mem_of_claimedStaker hs

/-- The transaction of a staker is recorded as one that stakes on its supernet. -/
theorem stakes (h : l.Upholds c) {phase : Phase} (hs : s ∈ c.stakers phase) :
    c.Stakes s.txId s.supernetId := by
  obtain ⟨book, hsustains, hstaked⟩ := h
  exact hstaked.staking phase s ((Contains.proper hsustains).recorded _ hs)

/-- The outputs that a claim reads are those recorded for the staker so far. -/
theorem paid_of_rewardOutput (h : l.Upholds c) (hs : s ∈ c.stakers .current) {owner : EntityId}
    {utxo : Utxo} (hutxo : (l.write (.delete .current s)).rewardOutput s owner = .ok utxo) :
    utxo.amount = s.potentialReward ∧ ∃ paid, c.rewardUtxos s.txId = .ok paid ∧
      utxo.id.outputIndex.toNat = paid.length := by
  obtain ⟨_, paid, _, hpaid, hfits, rfl⟩ := of_rewardOutput hutxo
  rw [(h.retire hs).rewardUtxos_eq, c.write_delete] at hpaid
  exact ⟨rfl, paid, hpaid, UInt32.toNat_ofNat_of_lt' hfits⟩

/-- The writes of a claim keep the records in order. -/
theorem claim (h : l.Upholds c) (hs : l.claimedStaker stakerTx = .ok s)
    (hrewards : Rewards stakerTx s (l.write (.delete .current s)) writes) :
    (l.writeAll (.delete .current s :: writes)).Upholds
      (c.writeAll (.delete .current s :: writes)) := by
  have hcurrent := h.mem_of_claimedStaker hs
  obtain ⟨rfl, _⟩ := of_claimedStaker hs
  have hretired := h.retire hcurrent
  cases hrewards with
  | nothing => exact hretired
  | @paid owner utxo hutxo =>
      obtain ⟨_, paid, hpaid, hnext⟩ := h.paid_of_rewardOutput hcurrent hutxo
      have hstored := hretired.plain (w := .addUtxo utxo) trivial trivial
      rw [c.write_delete] at hstored
      have hafter := hstored.pay (h.stakes hcurrent) hpaid hnext
      rw [← c.write_delete] at hafter
      exact hafter
  | forfeited => exact hretired.plain trivial trivial

end Upholds

end Ledger

end StakingLedger
