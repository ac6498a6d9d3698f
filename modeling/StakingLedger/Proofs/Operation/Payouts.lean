import StakingLedger.Proofs.Ledger.Footprint
import StakingLedger.Proofs.Operation.Claims
import StakingLedger.Proofs.Operation.Script

/-! # What a claim leaves alone

A claim retires its staker before it settles the reward. If it is refused, the
ledger is as it was; if only the reward cannot be settled, the staker is gone and
nothing else happened. A reward that is paid out adds one output under the
staking transaction, at the index after the rewards paid so far, and no other
output changes.
-/

namespace StakingLedger

open LedgerM

variable {l l' : Ledger} {stakerTx : EntityId} {rewarded : Bool} {e : LedgerError} {s : Staker}
  {tx : StakerTx}

/-- The view with the current stakers as another view has them. -/
def View.withCurrentOf (v other : View) : View where
  timestamp := v.timestamp
  feePool := v.feePool
  supply := v.supply
  rewardPool := v.rewardPool
  validator phase := match phase with
    | .current => other.validator .current
    | .pending => v.validator .pending
  delegators phase := match phase with
    | .current => other.delegators .current
    | .pending => v.delegators .pending
  stakers phase := match phase with
    | .current => other.stakers .current
    | .pending => v.stakers .pending
  utxo := v.utxo
  rewardUtxos := v.rewardUtxos
  supernet := v.supernet
  transformation := v.transformation
  chains := v.chains
  tx := v.tx

namespace View

theorem withCurrentOf_self (v : View) : v.withCurrentOf v = v := by
  apply View.ext <;> first | rfl | (funext phase; cases phase <;> rfl)

end View

namespace Ledger

/-- Retiring a staker changes what is read of the current stakers only. -/
theorem view_retire (l : Ledger) (s : Staker) :
    (l.write (.delete .current s)).view =
      l.view.withCurrentOf (l.write (.delete .current s)).view := by
  unfold Write.delete
  cases l <;> split <;>
    (apply View.ext <;> first | rfl | (funext phase; cases phase <;> rfl))

end Ledger

/-! ## Claims that fail -/

/-- How a claim fails, and the ledger after it. -/
inductive ClaimFails (stakerTx : EntityId) (rewarded : Bool) (l : Ledger) (e : LedgerError) :
    Ledger → Prop
  /-- A check fails. -/
  | refused (h : l.claim stakerTx = .error e) : ClaimFails stakerTx rewarded l e l
  /-- The staker may be retired, but its reward cannot be settled. -/
  | unpaid {s : Staker} {tx : StakerTx} (h : l.claim stakerTx = .ok (s, tx))
    (hreward : (l.write (.delete .current s)).rewardWrites stakerTx s tx.rewardOwner rewarded =
      .error e) :
    ClaimFails stakerTx rewarded l e (l.write (.delete .current s))

theorem claimFails_iff : ClaimFails stakerTx rewarded l e l' ↔
    (rewardStaker stakerTx rewarded).run l = (.error e, l') := by
  rw [run_rewardStaker]
  constructor
  · rintro (h | ⟨h, hreward⟩)
    · rw [h]
    · rw [h]
      dsimp only
      rw [hreward]
  · cases hclaim : l.claim stakerTx with
    | error e =>
        intro h
        cases h
        exact .refused hclaim
    | ok found =>
        obtain ⟨s, tx⟩ := found
        dsimp only
        cases hreward : (l.write (.delete .current s)).rewardWrites stakerTx s tx.rewardOwner
            rewarded with
        | error e =>
            intro h
            cases h
            exact .unpaid hclaim hreward
        | ok writes =>
            intro h
            cases h

/-- A claim that fails changes at most what is read of the current stakers. That is the same too,
unless every check was passed and only the reward cannot be settled: then the claimed staker is
retired all the same. -/
theorem view_of_failed_claim (h : (rewardStaker stakerTx rewarded).run l = (.error e, l')) :
    l'.view = l.view.withCurrentOf l'.view ∧
      ((l.claim stakerTx = .error e ∧ l' = l) ∨
        ∃ s tx, l.claim stakerTx = .ok (s, tx) ∧ s.potentialReward ≠ 0 ∧
          (l.write (.delete .current s)).rewardWrites stakerTx s tx.rewardOwner rewarded =
            .error e ∧
          l' = l.write (.delete .current s)) := by
  cases claimFails_iff.mpr h with
  | refused hrefused => exact ⟨l.view.withCurrentOf_self.symm, Or.inl ⟨hrefused, rfl⟩⟩
  | @unpaid s tx hclaim hreward =>
      refine ⟨l.view_retire s, Or.inr ⟨s, tx, hclaim, fun hzero => ?_, hreward, rfl⟩⟩
      rw [Ledger.rewardWrites, if_pos hzero] at hreward
      cases hreward

/-- The sample network when its validator ends, with a pool that cannot take anything back. -/
def Ledger.brimming : Ledger :=
  match State.fromGenesis {} .sample .sample with
  | .ok s =>
    (root s).writeAll
      [.setRewardPool .primaryNetwork (.ofNat (UInt64.size - 1)), .setTimestamp 100000]
  | .error _ => root default

/-- The claim on its validator fails, and the validator is gone all the same. -/
theorem fails_brimming : ∃ e l', (rewardStaker (.ofWord 1) false).run .brimming = (.error e, l') ∧
    (l'.stakers .current).map StakerSeq.toList = .ok [] := by
  have hfails : ((rewardStaker (.ofWord 1) false).run .brimming).1 =
      .error (.overflow (.sum "reward pool" 18446744073709551615 729282407)) := by
    decide +kernel
  have hgone : (((rewardStaker (.ofWord 1) false).run .brimming).2.stakers .current).map
      StakerSeq.toList = .ok [] := by
    decide +kernel
  rcases hrun : (rewardStaker (.ofWord 1) false).run .brimming with ⟨answer, l'⟩
  rw [hrun] at hfails hgone
  obtain rfl : answer = _ := hfails
  exact ⟨_, l', rfl, hgone⟩

theorem view_of_failed_claim_brimming :
    ∃ e l', (rewardStaker (.ofWord 1) false).run .brimming = (.error e, l') ∧
      l'.view = Ledger.brimming.view.withCurrentOf l'.view := by
  obtain ⟨e, l', hrun, _⟩ := fails_brimming
  exact ⟨e, l', hrun, (view_of_failed_claim hrun).1⟩

/-- A claim that fails may change what is read: when the reward finds no room in the pool, the
staker has gone already. -/
theorem failed_claim_retires : ¬ ∀ (l l' : Ledger) (stakerTx : EntityId) (rewarded : Bool)
    (e : LedgerError), (rewardStaker stakerTx rewarded).run l = (.error e, l') →
      l'.view = l.view := by
  intro h
  obtain ⟨e, l', hrun, hgone⟩ := fails_brimming
  have hsame : (l'.stakers .current).map StakerSeq.walkAll =
      (Ledger.brimming.stakers .current).map StakerSeq.walkAll :=
    congrArg (fun v => v.stakers .current) (h _ _ _ _ _ hrun)
  rw [show StakerSeq.walkAll = StakerSeq.toList from funext StakerSeq.walkAll_eq_toList, hgone]
    at hsame
  exact absurd hsame (by decide +kernel)

/-! ## Claims that succeed -/

/-- What settling the reward of a retired staker makes of the view. A reward that is paid out is the
next output of the staking transaction; one that is not goes back to the pool. -/
inductive RewardEffect (s : Staker) (v : View) : Bool → View → Prop
  | unrewarded {rewarded : Bool} (hzero : s.potentialReward = 0) : RewardEffect s v rewarded v
  | paid {outputs : List Utxo} {utxo : Utxo} (hreward : s.potentialReward ≠ 0)
    (houtputs : v.rewardUtxos s.txId = .ok outputs)
    (hid : utxo.id = ⟨s.txId, .ofNat outputs.length⟩) (hamount : utxo.amount = s.potentialReward) :
    RewardEffect s v true
      { v with
        utxo := Function.update v.utxo utxo.id (.ok (some utxo))
        rewardUtxos := Function.update v.rewardUtxos s.txId (.ok (outputs ++ [utxo])) }
  | returned {pool total : UInt64} (hreward : s.potentialReward ≠ 0)
    (hpool : v.rewardPool s.supernetId = .ok pool)
    (htotal : pool.toNat + s.potentialReward.toNat = total.toNat) :
    RewardEffect s v false
      { v with rewardPool := Function.update v.rewardPool s.supernetId (.ok total) }

namespace Ledger

/-- Where the next reward of a staking transaction is to be found: after those paid so far. -/
def nextReward (l : Ledger) (stakerTx : EntityId) : Answer UtxoId :=
  (l.rewardUtxos stakerTx).map fun paid => ⟨stakerTx, .ofNat paid.length⟩

/-- There is an output of that name. -/
def HasUtxo (l : Ledger) (id : UtxoId) : Prop := ∃ utxo, l.utxo id = .ok (some utxo)

theorem utxo_retire (l : Ledger) (s : Staker) : (l.write (.delete .current s)).utxo = l.utxo :=
  congrArg View.utxo (l.view_retire s)

theorem rewardUtxos_retire (l : Ledger) (s : Staker) :
    (l.write (.delete .current s)).rewardUtxos = l.rewardUtxos :=
  congrArg View.rewardUtxos (l.view_retire s)

/-- The writes that settle a reward have no other effect. -/
theorem effect_of_rewardWrites {owner : EntityId} {writes : List Write}
    (h : l.rewardWrites s.txId s owner rewarded = .ok writes) :
    RewardEffect s l.view rewarded (l.writeAll writes).view := by
  obtain ⟨hzero, rfl⟩ | ⟨hreward, rfl, utxo, hutxo, rfl⟩ |
    ⟨hreward, rfl, pool, total, hpool, htotal, rfl⟩ := of_rewardWrites h
  · exact .unrewarded hzero
  · obtain ⟨asset, outputs, _, houtputs, _, hutxo⟩ := of_rewardOutput hutxo
    have hread : l.view.rewardUtxos s.txId = .ok outputs := houtputs
    change RewardEffect s l.view true
      ((l.write (.addUtxo utxo)).write (.addRewardUtxo s.txId utxo)).view
    rw [view_addRewardUtxo, view_addUtxo, hread]
    exact .paid hreward hread (congrArg Utxo.id hutxo) (congrArg Utxo.amount hutxo)
  · change RewardEffect s l.view false (l.write (.setRewardPool s.supernetId total)).view
    rw [view_setRewardPool]
    exact .returned hreward hpool htotal

end Ledger

/-- A claim retires its staker and settles the reward. -/
theorem effect_of_claim (h : (rewardStaker stakerTx rewarded).run l = (.ok (), l')) :
    ∃ s, l.claimedStaker stakerTx = .ok s ∧
      RewardEffect s (l.write (.delete .current s)).view rewarded l'.view := by
  obtain ⟨s, tx, writes, hclaim, hwrites, rfl⟩ := settled_of_rewardStaker h
  obtain ⟨hs, _⟩ := Ledger.of_claim hclaim
  obtain ⟨rfl, _⟩ := Ledger.of_claimedStaker hs
  exact ⟨s, hs, Ledger.effect_of_rewardWrites hwrites⟩

/-- What a claim does to the outputs: a reward that is paid out takes the place of the next reward,
and every other output is as it was. -/
theorem utxo_of_claim (h : (rewardStaker stakerTx rewarded).run l = (.ok (), l')) :
    ∃ s, l.claimedStaker stakerTx = .ok s ∧
      if rewarded = true ∧ s.potentialReward ≠ 0 then
        ∃ utxo : Utxo, l.nextReward stakerTx = .ok utxo.id ∧ utxo.amount = s.potentialReward ∧
          l'.utxo = Function.update l.utxo utxo.id (.ok (some utxo))
      else l'.utxo = l.utxo := by
  obtain ⟨s, hs, heffect⟩ := effect_of_claim h
  obtain ⟨rfl, _⟩ := Ledger.of_claimedStaker hs
  refine ⟨s, hs, ?_⟩
  rw [← l.utxo_retire s, Ledger.nextReward, ← l.rewardUtxos_retire s]
  change if rewarded = true ∧ s.potentialReward ≠ 0 then
      ∃ utxo : Utxo, _ ∧ utxo.amount = s.potentialReward ∧ l'.view.utxo = _
    else l'.view.utxo = _
  generalize l'.view = after at heffect
  cases heffect with
  | unrewarded hzero =>
      rw [if_neg fun hpays => hpays.2 hzero]
      rfl
  | @paid outputs utxo hreward houtputs hid hamount =>
      rw [if_pos ⟨rfl, hreward⟩]
      have hnext : (l.write (.delete .current s)).rewardUtxos s.txId = .ok outputs := houtputs
      refine ⟨utxo, ?_, hamount, rfl⟩
      rw [hnext, hid]
      rfl
  | returned =>
      rw [if_neg fun hpays => Bool.false_ne_true hpays.1]
      rfl

/-- A claim destroys no output, and one that pays a reward out adds just one, where the next reward
is to be found. This asks that no output stands there yet: the claim looks at the rewards paid so
far only, and writes over whatever else has that name. -/
theorem outputs_survive_claim (h : (rewardStaker stakerTx rewarded).run l = (.ok (), l'))
    (hfree : rewarded = true → ∀ id, l.nextReward stakerTx = .ok id → ¬ l.HasUtxo id) :
    (∀ id utxo, l.utxo id = .ok (some utxo) → l'.utxo id = .ok (some utxo)) ∧
      (rewarded = true → ∀ s, l.claimedStaker stakerTx = .ok s → s.potentialReward ≠ 0 →
        ∃ utxo : Utxo, l.nextReward stakerTx = .ok utxo.id ∧ utxo.amount = s.potentialReward ∧
          l'.utxo utxo.id = .ok (some utxo) ∧
          ∀ id, l'.HasUtxo id ∧ ¬ l.HasUtxo id ↔ id = utxo.id) := by
  obtain ⟨s, hs, heffect⟩ := utxo_of_claim h
  split at heffect
  next hpays =>
    obtain ⟨utxo, hnext, hamount, hreads⟩ := heffect
    -- The next reward stands where no output does, so the update takes nothing away.
    have hunused := hfree hpays.1 utxo.id hnext
    have hpaid : l'.utxo utxo.id = .ok (some utxo) := by rw [hreads, Function.update_self]
    have hkept : ∀ id, id ≠ utxo.id → l'.utxo id = l.utxo id := fun id hid => by
      rw [hreads, Function.update_of_ne hid]
    refine ⟨fun id held hheld => ?_, fun _ s' hs' _ => ?_⟩
    · rw [hkept id, hheld]
      rintro rfl
      exact hunused ⟨held, hheld⟩
    · obtain rfl : s = s' := Except.ok.inj (hs.symm.trans hs')
      refine ⟨utxo, hnext, hamount, hpaid, fun id => ⟨?_, ?_⟩⟩
      · rintro ⟨⟨held, hheld⟩, hnone⟩
        by_contra hid
        rw [hkept id hid] at hheld
        exact hnone ⟨held, hheld⟩
      · rintro rfl
        exact ⟨⟨utxo, hpaid⟩, hunused⟩
  next hkeeps =>
    refine ⟨fun id held hheld => heffect ▸ hheld, fun hpays s' hs' hreward => ?_⟩
    obtain rfl : s = s' := Except.ok.inj (hs.symm.trans hs')
    exact absurd ⟨hpays, hreward⟩ hkeeps

/-- The sample network when its validator ends. -/
theorem due_sample : ∃ l, Ledger.ofScript .sample .sample [.advance 100000] = .ok l ∧
    ((∃ s, l.claimedStaker (.ofWord 1) = .ok s ∧ s.potentialReward ≠ 0) ∧
      ∃ l', (rewardStaker (.ofWord 1) true).ending l = .ok l' ∧
        l.nextReward (.ofWord 1) = .ok ⟨.ofWord 1, 0⟩ ∧ l.utxo ⟨.ofWord 1, 0⟩ = .ok none) := by
  decide +kernel

/-- The reward of the sample validator is the first output of its transaction. -/
theorem outputs_survive_claim_sample :
    ∃ l l', Ledger.ofScript .sample .sample [.advance 100000] = .ok l ∧
      (rewardStaker (.ofWord 1) true).run l = (.ok (), l') ∧
      (∀ id, l.nextReward (.ofWord 1) = .ok id → ¬ l.HasUtxo id) ∧
      (∀ id utxo, l.utxo id = .ok (some utxo) → l'.utxo id = .ok (some utxo)) ∧
      ∀ id, l'.HasUtxo id ∧ ¬ l.HasUtxo id ↔ id = ⟨.ofWord 1, 0⟩ := by
  obtain ⟨l, hl, ⟨s, hs, hreward⟩, l', hends, hnext, hnone⟩ := due_sample
  have hrun := LedgerM.ending_eq_ok_iff.mp hends
  have hfree : ∀ id, l.nextReward (.ofWord 1) = .ok id → ¬ l.HasUtxo id := by
    rintro id hid ⟨utxo, hutxo⟩
    obtain rfl : _ = id := Except.ok.inj (hnext.symm.trans hid)
    rw [hnone] at hutxo
    cases hutxo
  obtain ⟨hsurvive, hnew⟩ := outputs_survive_claim hrun fun _ => hfree
  obtain ⟨utxo, hid, _, _, hone⟩ := hnew rfl s hs hreward
  rw [hnext, Except.ok.injEq] at hid
  exact ⟨l, l', hl, hrun, hfree, hsurvive, hid ▸ hone⟩

/-- The sample network, where an output has the name that the reward of the validator will have. -/
def Genesis.crowded : Genesis :=
  { Genesis.sample with utxos := [⟨⟨.ofWord 1, 0⟩, .ofWord 9, 42, .ofWord 8⟩] }

/-- Paying the reward destroys the output that had its name. -/
theorem claim_destroys_output :
    ∃ l l', Ledger.ofScript .crowded .sample [.advance 100000] = .ok l ∧
      (rewardStaker (.ofWord 1) true).run l = (.ok (), l') ∧
      l.utxo ⟨.ofWord 1, 0⟩ = .ok (some ⟨⟨.ofWord 1, 0⟩, .ofWord 9, 42, .ofWord 8⟩) ∧
      l'.utxo ⟨.ofWord 1, 0⟩ =
        .ok (some ⟨⟨.ofWord 1, 0⟩, .primaryNetwork, 729282407, .ofWord 7⟩) := by
  have hends : ∃ l, Ledger.ofScript .crowded .sample [.advance 100000] = .ok l ∧
      (l.utxo ⟨.ofWord 1, 0⟩ = .ok (some ⟨⟨.ofWord 1, 0⟩, .ofWord 9, 42, .ofWord 8⟩) ∧
        ∃ l', (rewardStaker (.ofWord 1) true).ending l = .ok l' ∧
          l'.utxo ⟨.ofWord 1, 0⟩ =
            .ok (some ⟨⟨.ofWord 1, 0⟩, .primaryNetwork, 729282407, .ofWord 7⟩)) := by
    decide +kernel
  obtain ⟨l, hl, hheld, l', hends, hpaid⟩ := hends
  exact ⟨l, l', hl, LedgerM.ending_eq_ok_iff.mp hends, hheld, hpaid⟩

end StakingLedger
