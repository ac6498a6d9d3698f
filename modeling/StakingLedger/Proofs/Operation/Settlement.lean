import StakingLedger.Proofs.Ledger.Coherence
import StakingLedger.Proofs.Operation.Payouts

/-! # The two ways to settle a claim

A claim pays the reward of a staker out or takes it back into the pool. In both
cases the staker retires in the same way, so the two ledgers that come about are
read alike, save for the output in the one and the pool in the other. Where the
staker sets were coherent, both ledgers list everybody but the retired staker.
-/

namespace StakingLedger

variable {book : Book} {l paid returned : Ledger} {stakerTx : EntityId} {s : Staker} {v : View}

/-- What the two ways of settling make of the view after the staker has retired. A reward that is
paid out adds one output, recorded under the transaction of the staker. One that is taken back adds
to the pool of the supernet. -/
inductive SettlesBothWays (s : Staker) (v : View) : View → View → Prop
  | unrewarded (hzero : s.potentialReward = 0) : SettlesBothWays s v v v
  | rewarded {outputs : List Utxo} {utxo : Utxo} {pool total : UInt64}
    (hreward : s.potentialReward ≠ 0) (houtputs : v.rewardUtxos s.txId = .ok outputs)
    (hid : utxo.id = ⟨s.txId, .ofNat outputs.length⟩) (hamount : utxo.amount = s.potentialReward)
    (hpool : v.rewardPool s.supernetId = .ok pool)
    (htotal : pool.toNat + s.potentialReward.toNat = total.toNat) :
    SettlesBothWays s v
      { v with
        utxo := Function.update v.utxo utxo.id (.ok (some utxo))
        rewardUtxos := Function.update v.rewardUtxos s.txId (.ok (outputs ++ [utxo])) }
      { v with rewardPool := Function.update v.rewardPool s.supernetId (.ok total) }

/-- Settling a reward does not touch the stakers. -/
theorem SettlesBothWays.lists {v₁ v₂ : View} {phase : Phase} {members : Set Staker}
    (h : SettlesBothWays s v v₁ v₂) (hlists : v.Lists phase members) :
    v₁.Lists phase members ∧ v₂.Lists phase members := by
  obtain ⟨hstakers, hdelegators, hvalidator⟩ := hlists
  cases h with
  | unrewarded => exact ⟨⟨hstakers, hdelegators, hvalidator⟩, ⟨hstakers, hdelegators, hvalidator⟩⟩
  | rewarded => exact ⟨⟨hstakers, hdelegators, hvalidator⟩, ⟨hstakers, hdelegators, hvalidator⟩⟩

theorem RewardEffect.settlesBothWays {v₁ v₂ : View} (hpaid : RewardEffect s v true v₁)
    (hreturned : RewardEffect s v false v₂) : SettlesBothWays s v v₁ v₂ := by
  cases hpaid with
  | unrewarded hzero =>
      cases hreturned with
      | unrewarded => exact .unrewarded hzero
      | returned hreward => exact absurd hzero hreward
  | paid hreward houtputs hid hamount =>
      cases hreturned with
      | unrewarded hzero => exact absurd hzero hreward
      | returned _ hpool htotal => exact .rewarded hreward houtputs hid hamount hpool htotal

namespace Ledger

/-- A claim that can be settled either way leads to ledgers that are read alike, save for the output
that is paid in the one and the pool that takes the reward back in the other. From both of them the
claimed staker is gone: from the lookups, from the walks over delegators and from the walk over
all. -/
theorem Coherent.claims_agree (h : l.Coherent book)
    (hpaid : (rewardStaker stakerTx true).run l = (.ok (), paid))
    (hreturned : (rewardStaker stakerTx false).run l = (.ok (), returned)) :
    ∃ s members, l.claimedStaker stakerTx = .ok s ∧ s.txId = stakerTx ∧
      l.view.Lists .current members ∧ s ∈ members ∧
      SettlesBothWays s (l.write (.delete .current s)).view paid.view returned.view ∧
      paid.view.Lists .current (members \ {s}) ∧ returned.view.Lists .current (members \ {s}) := by
  obtain ⟨s, hs, hpays⟩ := effect_of_claim hpaid
  obtain ⟨s', hs', hreturns⟩ := effect_of_claim hreturned
  obtain rfl : s = s' := Except.ok.inj (hs.symm.trans hs')
  have hways := hpays.settlesBothWays hreturns
  obtain ⟨htx, _, _, held, hread, hfirst⟩ := of_claimedStaker hs
  have hrecords := book.injOn .current
  obtain ⟨members, hkeeps⟩ := h.keeps .current
  have hlists := hkeeps.lists hrecords
  have hmem : s ∈ members := (hlists.mem_of_read hread).mp (List.mem_of_head? hfirst)
  have hretired := (hkeeps.delete hrecords hmem).lists hrecords
  exact ⟨s, members, hs, htx, hlists, hmem, hways, hways.lists hretired⟩

/-- A layer over a genesis with one validator, at the time when the validator ends. -/
def soloDue : Ledger :=
  (layer (root .solo) (.ofWord 1) true (.untouched State.solo.timestamp State.solo.feePool)).write
    (.setTimestamp soloTx.endTime)

theorem coherent_soloDue : soloDue.Coherent soloBook := by
  have hreached : State.solo.Reached soloBook :=
    .genesis State.fromGenesis_solo State.recordedIn_solo
  obtain ⟨c, hc, hproper⟩ := hreached.mirrors
  have hlists := fun phase => hc.shows.lists (hproper.slots phase) fun _ => Iff.rfl
  have hroot : (root State.solo).Coherent soloBook :=
    .root (.founded State.fromGenesis_solo) hlists hproper.recorded
  exact .written (hroot.opened (.ofWord 1)) trivial

theorem claims_agree_solo : ∃ s paid returned members,
    (rewardStaker soloTx.txId true).run soloDue = (.ok (), paid) ∧
      (rewardStaker soloTx.txId false).run soloDue = (.ok (), returned) ∧
      s.txId = soloTx.txId ∧ s.potentialReward ≠ 0 ∧
      soloDue.view.Lists .current members ∧ s ∈ members ∧
      SettlesBothWays s (soloDue.write (.delete .current s)).view paid.view returned.view ∧
      paid.view.Lists .current (members \ {s}) ∧
      returned.view.Lists .current (members \ {s}) := by
  have hclaimed : ∃ s, soloDue.claimedStaker soloTx.txId = .ok s ∧ s.potentialReward ≠ 0 := by
    decide +kernel
  have hends : ∀ rewarded, ∃ l', (rewardStaker soloTx.txId rewarded).ending soloDue = .ok l' ∧
      l'.timestamp = soloTx.endTime := by
    decide +kernel
  obtain ⟨s, hs, hreward⟩ := hclaimed
  obtain ⟨paid, hpaid, _⟩ := hends true
  obtain ⟨returned, hreturned, _⟩ := hends false
  have hpaid := LedgerM.ending_eq_ok_iff.mp hpaid
  have hreturned := LedgerM.ending_eq_ok_iff.mp hreturned
  obtain ⟨t, members, ht, htx, hlists, hmem, hways, hgone⟩ :=
    coherent_soloDue.claims_agree hpaid hreturned
  obtain rfl : s = t := Except.ok.inj (hs.symm.trans ht)
  exact ⟨s, paid, returned, members, hpaid, hreturned, htx, hreward, hlists, hmem, hways, hgone⟩

end Ledger

end StakingLedger
