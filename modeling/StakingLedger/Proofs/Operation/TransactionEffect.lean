import StakingLedger.Proofs.Chronicle.Calls
import StakingLedger.Proofs.Ledger.Joining

/-! # What a transaction makes of a ledger

A transaction that is rejected leaves every read as it was. One that is applied was not
recorded before, is recorded then, and has one effect besides, which its body names.
This holds of every ledger that can come about, with one exception: a new staker does
not simply join the others if the ledger itself holds another one under its key, or if
it is a layer that has deleted some other delegation of the transaction.
-/

namespace StakingLedger

variable {l l' : Ledger} {config : StakingConfig} {tx : StoredTx}

/-- What a body makes of the view of a ledger, besides the record of its transaction. Reward claims
and moves of time have no effect as transactions. -/
inductive TxBody.TakesEffect (l : Ledger) (config : StakingConfig) : TxBody → View → Prop
  /-- Whoever may have stood there before, only the pending stakers change. -/
  | addStaker {tx : StakerTx} {s : Staker} {rules : Option StakingConfig} {after : View}
    (hs : Staker.newPending tx = .ok s) (hadmits : l.Admits config tx rules)
    (hothers : after = l.view.withStakersOf after .pending)
    (hgains : ¬ l.Displaces .pending s → ¬ l.Hides .pending s → l.view.Gains .pending s after) :
    TxBody.TakesEffect l config (.addStaker tx) after
  | createSupernet {supernet : SupernetRecord} (hnew : l.supernet supernet.id = .ok none) :
    TxBody.TakesEffect l config (.createSupernet supernet)
      { l.view with
        supernet := Function.update l.view.supernet supernet.id (.ok (some supernet)) }
  | createChain {chain : ChainRecord} {held : List ChainRecord}
    (hread : l.chains chain.supernetId = .ok held) (hnew : ∀ c ∈ held, c.id ≠ chain.id) :
    TxBody.TakesEffect l config (.createChain chain)
      { l.view with
        chains := Function.update l.view.chains chain.supernetId
          (.ok (Ledger.insertChain chain held)) }
  | transformSupernet {t : SupernetTransformation}
    (hnew : l.transformation t.supernetId = .ok none)
    (hpool : t.initialRewardPool ≤ t.initialSupply) (hrules : t.staking.validate = .ok ()) :
    TxBody.TakesEffect l config (.transformSupernet t)
      { l.view with
        supply := Function.update l.view.supply t.supernetId (.ok t.initialSupply)
        rewardPool := Function.update l.view.rewardPool t.supernetId (.ok t.initialRewardPool)
        transformation := Function.update l.view.transformation t.supernetId (.ok (some t)) }

theorem newPending_of_window {tx : StakerTx} (h : tx.startTime < tx.endTime) :
    Staker.newPending tx = .ok (pendingStaker tx) := by
  unfold Staker.newPending Staker.checkWindow
  rw [if_pos h]
  rfl

theorem TxBody.TakesEffect.tx_eq {body : TxBody} {after : View}
    (h : body.TakesEffect l config after) : after.tx = l.view.tx := by
  cases h with
  | addStaker _ _ hothers =>
      rw [hothers]
      rfl
  | createSupernet | createChain | transformSupernet => rfl

/-- The writes of a body have its effect. -/
theorem TxBody.Writes.takesEffect {body : TxBody} {id : EntityId} {writes : List Write}
    (hl : l.Filed) (h : body.Writes l config id writes) :
    body.TakesEffect l config (l.writeAll writes).view := by
  cases h with
  | @addStaker stakerTx s _ hadmit =>
      obtain ⟨rfl, rules, hadmits⟩ := Ledger.admits_of_admitStaker hadmit
      refine .addStaker (newPending_of_window hadmits.window) hadmits
        (l.view_put .pending (pendingStaker stakerTx)) fun hstay hkept => ?_
      refine hl.view_gains (fun hv => ?_) hstay hkept
      exact hadmits.free ((isValidator_pendingStaker stakerTx).symm.trans hv) .pending
  | createSupernet hcheck =>
      change TxBody.TakesEffect l config _ (l.write _).view
      rw [Ledger.view_addSupernet]
      exact .createSupernet (Ledger.of_checkSupernet hcheck)
  | createChain hcheck =>
      obtain ⟨held, hread, hnew⟩ := Ledger.of_checkChain hcheck
      change TxBody.TakesEffect l config _ (l.write _).view
      rw [hl.view_addChain hread hnew]
      exact .createChain hread hnew
  | transformSupernet hcheck =>
      obtain ⟨_, hnew, hpool, hrules⟩ := Ledger.of_checkTransformation hcheck
      change TxBody.TakesEffect l config _ (((l.write _).write _).write _).view
      rw [Ledger.view_addTransformation, Ledger.view_setRewardPool, Ledger.view_setSupply]
      exact .transformSupernet hnew hpool hrules

namespace Ledger

/-- A transaction is rejected without a trace, or it is recorded for the first time and has the
effect that its body names. -/
theorem applyTx_takesEffect (hl : l.Arises) (tx : StoredTx) (config : StakingConfig) :
    (∀ e l', (applyTx tx config).run l = (.error e, l') → l' = l) ∧
      ∀ l', (applyTx tx config).run l = (.ok (), l') → l.tx tx.id = .ok none ∧
        ∃ after, tx.body.TakesEffect l config after ∧
          l'.view = { after with
            tx := Function.update l.view.tx tx.id (.ok (some (tx, .committed))) } := by
  constructor
  · intro e l' hrun
    have hsame := atomic_applyTx tx config l e (by rw [hrun])
    rw [hrun] at hsame
    exact hsame
  · intro l' hrun
    obtain ⟨hnew, writes, hwrites, rfl⟩ := writes_of_applyTx hrun
    have heffect := hwrites.takesEffect hl.filed
    refine ⟨hnew, _, heffect, ?_⟩
    rw [writeAll_append]
    change ((l.writeAll writes).write _).view = _
    rw [view_addTx, heffect.tx_eq]

/-! ## Delegations of one transaction -/

/-- A delegation to the validator of the genesis. -/
def delegationTx (weight startTime endTime : UInt64) : StakerTx :=
  { soloTx with
    txId := .ofWord 2, kind := .primaryDelegator, weight := weight, startTime := startTime
    endTime := endTime }

def delegate (weight startTime endTime : UInt64) : StoredTx :=
  ⟨.ofWord 2, .addStaker (delegationTx weight startTime endTime)⟩

/-- Delegations may be short. -/
def lenient : StakingConfig := { reward := { minStakeDuration := 1 } }

theorem pending_of_run {held : List Staker} (hok : ((applyTx tx config).run l).1 = .ok ())
    (hread : (((applyTx tx config).run l).2.stakers .pending).map StakerSeq.toList = .ok held) :
    ∃ l', (applyTx tx config).run l = (.ok (), l') ∧ l'.view.stakers .pending = .ok held :=
  ⟨_, Prod.ext hok rfl, (view_stakers_eq _ _).trans hread⟩

/-- The root of the genesis with a delegation of which no transaction is recorded. -/
def awaiting : Ledger :=
  (root .solo).write (.putDelegator .pending (pendingStaker (delegationTx 100 10 20)))

/-- A layer above it that has deleted the delegation. -/
def withdrawn : Ledger :=
  (layer awaiting (.ofWord 1) true (.untouched awaiting.timestamp awaiting.feePool)).write
    (.deleteDelegator .pending (pendingStaker (delegationTx 100 10 20)))

theorem arises_awaiting : awaiting.Arises := (Arises.founded State.fromGenesis_solo).written _

theorem arises_withdrawn : withdrawn.Arises := (arises_awaiting.opened _).written _

theorem stakers_awaiting :
    awaiting.view.stakers .pending = .ok [pendingStaker (delegationTx 100 10 20)] :=
  (view_stakers_eq _ _).trans (by decide +kernel)

/-- The layer hides nothing but the delegation itself. -/
theorem not_hides_withdrawn :
    ¬ withdrawn.Hides .pending (pendingStaker (delegationTx 100 10 20)) := by
  have hdelegators : awaiting.view.delegators .pending
      (pendingStaker (delegationTx 100 10 20)).slot =
      .ok [pendingStaker (delegationTx 100 10 20)] :=
    (view_delegators_eq _ _ _).trans (by decide +kernel)
  refine fun hhides => hhides.2 ⟨fun held hheld => ?_, fun held hheld => ?_⟩
  · obtain rfl := Except.ok.inj (stakers_awaiting.symm.trans hheld)
    decide +kernel
  · obtain rfl := Except.ok.inj (hdelegators.symm.trans hheld)
    decide +kernel

theorem not_displaces {s : Staker} (hall : ((l.own .pending).values) = [])
    (hslot : (l.ownDelegators .pending s.slot).values = []) : ¬ l.Displaces .pending s := by
  rintro ⟨t, ht | ht, _⟩
  · exact List.not_mem_nil (hall ▸ ht)
  · exact List.not_mem_nil (hslot ▸ ht)

/-- A delegation joins the pending stakers, also where a layer has deleted this very one. -/
theorem applyTx_takesEffect_delegate :
    ((root .solo).Arises ∧ ∃ l' after,
      (applyTx (delegate 100 10 20) lenient).run (root .solo) = (.ok (), l') ∧
        (root .solo).view.Gains .pending (pendingStaker (delegationTx 100 10 20)) after ∧
        l'.view = { after with
          tx := Function.update (root .solo).view.tx (.ofWord 2)
            (.ok (some (delegate 100 10 20, .committed))) }) ∧
    withdrawn.Arises ∧ ∃ l' after,
      (applyTx (delegate 100 10 20) lenient).run withdrawn = (.ok (), l') ∧
        withdrawn.view.Gains .pending (pendingStaker (delegationTx 100 10 20)) after ∧
        l'.view = { after with
          tx := Function.update withdrawn.view.tx (.ofWord 2)
            (.ok (some (delegate 100 10 20, .committed))) } := by
  have hsolo : (root .solo).Arises := .founded State.fromGenesis_solo
  refine ⟨⟨hsolo, ?_⟩, arises_withdrawn, ?_⟩
  · obtain ⟨l', hrun, _⟩ := @pending_of_run (root .solo) lenient (delegate 100 10 20)
      [pendingStaker (delegationTx 100 10 20)] (by decide +kernel) (by decide +kernel)
    obtain ⟨_, after, heffect, hview⟩ := (applyTx_takesEffect hsolo _ _).2 l' hrun
    obtain ⟨hs, _, _, hgains⟩ := heffect
    cases hs
    exact ⟨l', after, hrun,
      hgains (not_displaces (by decide +kernel) (by decide +kernel)) id, hview⟩
  · obtain ⟨l', hrun, _⟩ := @pending_of_run withdrawn lenient (delegate 100 10 20)
      [pendingStaker (delegationTx 100 10 20)] (by decide +kernel) (by decide +kernel)
    obtain ⟨_, after, heffect, hview⟩ := (applyTx_takesEffect arises_withdrawn _ _).2 l' hrun
    obtain ⟨hs, _, _, hgains⟩ := heffect
    cases hs
    exact ⟨l', after, hrun,
      hgains (not_displaces (by decide +kernel) (by decide +kernel)) not_hides_withdrawn, hview⟩

/-- A delegation for which no transaction is recorded is driven out by one of the same key. -/
theorem delegation_met_before :
    awaiting.Arises ∧
      awaiting.view.stakers .pending = .ok [pendingStaker (delegationTx 100 10 20)] ∧
      Staker.newPending (delegationTx 200 10 20) = .ok (pendingStaker (delegationTx 200 10 20)) ∧
      ∃ l', (applyTx (delegate 200 10 20) lenient).run awaiting = (.ok (), l') ∧
        l'.view.stakers .pending = .ok [pendingStaker (delegationTx 200 10 20)] ∧
        ¬ awaiting.view.Gains .pending (pendingStaker (delegationTx 200 10 20)) l'.view := by
  obtain ⟨l', hrun, hafter⟩ := @pending_of_run awaiting lenient (delegate 200 10 20)
    [pendingStaker (delegationTx 200 10 20)] (by decide +kernel) (by decide +kernel)
  refine ⟨arises_awaiting, stakers_awaiting, rfl, l', hrun, hafter, fun hgains => ?_⟩
  have hkept := (hgains.stakers.mem_iff stakers_awaiting hafter).mpr
    (Or.inl (List.mem_singleton_self _))
  exact absurd hkept (by decide +kernel)

end Ledger

end StakingLedger
