import StakingLedger.Proofs.Ledger.Computation
import StakingLedger.Proofs.Operation.Upheld
import StakingLedger.Transaction

/-! # Transactions as writes

A transaction that is applied is a series of writes, given by its body, and one
that records it. Its checks are what the writes need: a staker is new and finds
its slot free, a chain is new to its supernet, and a supernet is transformed once.
What the checks of a joining staker have found is stated in full.
-/

namespace StakingLedger

open LedgerM

theorem require_eq_ok_iff {condition : Bool} {fault : TransactionFault} {u : Unit} :
    require condition fault = .ok u ↔ condition = true := by
  unfold require
  split
  next htrue => exact iff_of_true rfl htrue
  next hfalse => exact ⟨fun h => (nomatch h), fun h => absurd h hfalse⟩

/-- The staker that a transaction makes. -/
def pendingStaker (tx : StakerTx) : Staker where
  txId := tx.txId
  nodeId := tx.nodeId
  publicKey := tx.publicKey
  supernetId := tx.supernetId
  weight := tx.weight
  startTime := tx.startTime
  endTime := tx.endTime
  potentialReward := 0
  nextTime := tx.startTime
  priority := .pending tx.kind

theorem isValidator_pendingStaker (tx : StakerTx) :
    (pendingStaker tx).isValidator = tx.kind.isValidator := by
  change (Priority.pending tx.kind).kind.isValidator = _
  rw [Priority.kind_pending]

theorem EntityId.isPrimaryNetwork_iff {id : EntityId} :
    id.isPrimaryNetwork = true ↔ id = .primaryNetwork :=
  beq_iff_eq

variable {l l' : Ledger} {c : Contents} {tx : StoredTx} {stakerTx : StakerTx} {s : Staker}
  {config : StakingConfig}

/-! ## Who may join -/

namespace Ledger

/-- A staker joins a network that is open to its kind, under the rules of that network. -/
inductive Joins (l : Ledger) (config : StakingConfig) (tx : StakerTx) :
    Option StakingConfig → Prop
  | primary (hkind : tx.kind = .primaryValidator ∨ tx.kind = .primaryDelegator)
    (hsupernet : tx.supernetId = .primaryNetwork) : Joins l config tx (some config)
  | permissionless {t : SupernetTransformation}
    (hkind : tx.kind = .permissionlessValidator ∨ tx.kind = .permissionlessDelegator)
    (ht : l.transformation tx.supernetId = .ok (some t)) : Joins l config tx (some t.staking)
  | permissioned (hkind : tx.kind = .permissionedValidator)
    (hsupernet : tx.supernetId ≠ .primaryNetwork)
    (hnone : l.transformation tx.supernetId = .ok none) : Joins l config tx none

/-- A validator of the slot that stays throughout the period of a staker. -/
def Lodges (l : Ledger) (slot : Slot) (tx : StakerTx) (validator : Staker) : Prop :=
  (∃ phase, l.validator phase slot = .ok (some validator)) ∧ encloses validator tx = true

/-- What the checks of a joining staker have found. -/
structure Admits (l : Ledger) (config : StakingConfig) (tx : StakerTx)
    (rules : Option StakingConfig) : Prop where
  ahead : l.timestamp < tx.startTime
  window : tx.startTime < tx.endTime
  joins : l.Joins config tx rules
  terms : checkTerms tx rules = .ok ()
  free : tx.kind.isValidator = true → ∀ phase,
    l.validator phase ⟨tx.supernetId, tx.nodeId⟩ = .ok none
  /-- Off the primary network a validator validates the primary network as well. -/
  backed : tx.kind.isValidator = true → tx.supernetId ≠ .primaryNetwork →
    ∃ primary, l.Lodges ⟨.primaryNetwork, tx.nodeId⟩ tx primary
  /-- A delegator has a validator with room for its weight. -/
  hosted : tx.kind.isValidator = false → ∃ host rules' peak total,
    l.Lodges ⟨tx.supernetId, tx.nodeId⟩ tx host ∧ rules = some rules' ∧
      l.maxValidatorWeight host tx.startTime tx.endTime = .ok peak ∧
      checkedAdd peak tx.weight "validator weight" = .ok total ∧ total ≤ weightCap rules' host

theorem validator_of_existingValidator {slot : Slot} (h : l.existingValidator slot = .ok none)
    (phase : Phase) : l.validator phase slot = .ok none := by
  obtain ⟨current, hcurrent, h⟩ := bind_eq_ok_iff.mp h
  cases current with
  | some held => cases h
  | none =>
      cases phase with
      | current => exact hcurrent
      | pending => exact h

theorem exists_validator_of_existingValidator {slot : Slot}
    (h : l.existingValidator slot = .ok (some s)) :
    ∃ phase, l.validator phase slot = .ok (some s) := by
  obtain ⟨current, hcurrent, h⟩ := bind_eq_ok_iff.mp h
  cases current with
  | some held =>
      cases h
      exact ⟨.current, hcurrent⟩
  | none => exact ⟨.pending, h⟩

theorem joins_of_stakingRules {rules : Option StakingConfig}
    (h : l.stakingRules stakerTx config = .ok rules) : l.Joins config stakerTx rules := by
  unfold stakingRules at h
  split at h
  next hkind =>
    obtain ⟨_, hprimary, h⟩ := bind_eq_ok_iff.mp h
    cases h
    exact .primary (Or.inl hkind) (EntityId.isPrimaryNetwork_iff.mp (require_eq_ok_iff.mp hprimary))
  next hkind =>
    obtain ⟨_, hprimary, h⟩ := bind_eq_ok_iff.mp h
    cases h
    exact .primary (Or.inr hkind) (EntityId.isPrimaryNetwork_iff.mp (require_eq_ok_iff.mp hprimary))
  next hkind =>
    obtain ⟨transformation?, ht, h⟩ := bind_eq_ok_iff.mp h
    cases transformation? with
    | none => cases h
    | some t =>
        cases h
        exact .permissionless (Or.inl hkind) ht
  next hkind =>
    obtain ⟨transformation?, ht, h⟩ := bind_eq_ok_iff.mp h
    cases transformation? with
    | none => cases h
    | some t =>
        cases h
        exact .permissionless (Or.inr hkind) ht
  next hkind =>
    -- Between the two checks that matter here stands the one that the supernet exists.
    obtain ⟨_, hother, h⟩ := bind_eq_ok_iff.mp h
    obtain ⟨_, _, h⟩ := bind_eq_ok_iff.mp h
    obtain ⟨_, _, h⟩ := bind_eq_ok_iff.mp h
    obtain ⟨transformation?, ht, h⟩ := bind_eq_ok_iff.mp h
    obtain ⟨_, hnone, h⟩ := bind_eq_ok_iff.mp h
    cases h
    rw [require_eq_ok_iff, Option.isNone_iff_eq_none] at hnone
    subst hnone
    refine .permissioned hkind (fun hprimary => ?_) ht
    rw [require_eq_ok_iff, EntityId.isPrimaryNetwork_iff.mpr hprimary] at hother
    cases hother

theorem of_checkValidator (h : l.checkValidator stakerTx = .ok ()) :
    (∀ phase, l.validator phase ⟨stakerTx.supernetId, stakerTx.nodeId⟩ = .ok none) ∧
      (stakerTx.supernetId ≠ .primaryNetwork →
        ∃ primary, l.Lodges ⟨.primaryNetwork, stakerTx.nodeId⟩ stakerTx primary) := by
  obtain ⟨existing, hexisting, h⟩ := bind_eq_ok_iff.mp h
  obtain ⟨_, hnone, hprimary⟩ := bind_eq_ok_iff.mp h
  rw [require_eq_ok_iff, Option.isNone_iff_eq_none] at hnone
  subst hnone
  refine ⟨validator_of_existingValidator hexisting, fun hother => ?_⟩
  rw [if_pos fun heq => hother (EntityId.isPrimaryNetwork_iff.mp heq)] at hprimary
  obtain ⟨primary?, hread, hencloses⟩ := bind_eq_ok_iff.mp hprimary
  cases primary? with
  | none => cases hencloses
  | some primary =>
      exact ⟨primary, exists_validator_of_existingValidator hread, require_eq_ok_iff.mp hencloses⟩

theorem of_checkDelegator {rules : Option StakingConfig}
    (h : l.checkDelegator stakerTx rules = .ok ()) : ∃ host rules' peak total,
      l.Lodges ⟨stakerTx.supernetId, stakerTx.nodeId⟩ stakerTx host ∧ rules = some rules' ∧
        l.maxValidatorWeight host stakerTx.startTime stakerTx.endTime = .ok peak ∧
        checkedAdd peak stakerTx.weight "validator weight" = .ok total ∧
        total ≤ weightCap rules' host := by
  obtain ⟨host?, hhost, h⟩ := bind_eq_ok_iff.mp h
  cases host? with
  | none => cases h
  | some host =>
      obtain ⟨_, hencloses, h⟩ := bind_eq_ok_iff.mp h
      obtain ⟨rules', hrules, h⟩ := bind_eq_ok_iff.mp h
      obtain ⟨peak, hpeak, h⟩ := bind_eq_ok_iff.mp h
      obtain ⟨total, htotal, h⟩ := bind_eq_ok_iff.mp h
      refine ⟨host, rules', peak, total, ⟨exists_validator_of_existingValidator hhost,
        require_eq_ok_iff.mp hencloses⟩, ?_, hpeak, htotal, by simpa using require_eq_ok_iff.mp h⟩
      cases rules with
      | none => cases hrules
      | some held =>
          cases hrules
          rfl

/-- A staker that is admitted is the pending one of its transaction, and passed the checks. -/
theorem admits_of_admitStaker (h : l.admitStaker stakerTx config = .ok s) :
    s = pendingStaker stakerTx ∧ ∃ rules, l.Admits config stakerTx rules := by
  obtain ⟨_, hahead, h⟩ := bind_eq_ok_iff.mp h
  obtain ⟨staker, hstaker, h⟩ := bind_eq_ok_iff.mp h
  obtain ⟨_, hwindow, hstaker⟩ := bind_eq_ok_iff.mp hstaker
  cases hstaker
  obtain ⟨rules, hrules, h⟩ := bind_eq_ok_iff.mp h
  obtain ⟨_, hterms, h⟩ := bind_eq_ok_iff.mp h
  have hahead : l.timestamp < stakerTx.startTime := by simpa using require_eq_ok_iff.mp hahead
  have hwindow : stakerTx.startTime < stakerTx.endTime := by
    unfold Staker.checkWindow at hwindow
    split at hwindow
    next hlt => exact hlt
    next => cases hwindow
  dsimp only at h
  split at h
  next hvalidator =>
    obtain ⟨_, hcheck, h⟩ := bind_eq_ok_iff.mp h
    cases h
    obtain ⟨hfree, hbacked⟩ := of_checkValidator hcheck
    exact ⟨rfl, rules, hahead, hwindow, joins_of_stakingRules hrules, hterms, fun _ => hfree,
      fun _ => hbacked, fun hdelegator => by rw [hvalidator] at hdelegator; cases hdelegator⟩
  next hdelegator =>
    obtain ⟨_, hcheck, h⟩ := bind_eq_ok_iff.mp h
    cases h
    exact ⟨rfl, rules, hahead, hwindow, joins_of_stakingRules hrules, hterms,
      fun hvalidator => absurd hvalidator hdelegator,
      fun hvalidator => absurd hvalidator hdelegator, fun _ => of_checkDelegator hcheck⟩

/-! ## Chains and transformations -/

/-- A chain is new to its supernet. -/
theorem of_checkChain {chain : ChainRecord} (h : l.checkChain chain = .ok ()) :
    ∃ held, l.chains chain.supernetId = .ok held ∧ ∀ c ∈ held, c.id ≠ chain.id := by
  -- Both branches end with this check; only the one off the primary network has another before.
  have hregistered : ∀ {u : Unit}, (do
      let registered ← l.chains chain.supernetId
      require (registered.all fun c => c.id != chain.id) (.chainExists chain.id)) = .ok u →
      ∃ held, l.chains chain.supernetId = .ok held ∧ ∀ c ∈ held, c.id ≠ chain.id := by
    intro u h
    obtain ⟨held, hread, h⟩ := bind_eq_ok_iff.mp h
    rw [require_eq_ok_iff] at h
    exact ⟨held, hread, fun c hc => bne_iff_ne.mp (List.all_eq_true.mp h c hc)⟩
  unfold checkChain at h
  dsimp only at h
  split at h
  · obtain ⟨_, _, h⟩ := bind_eq_ok_iff.mp h
    obtain ⟨_, _, h⟩ := bind_eq_ok_iff.mp h
    exact hregistered h
  · exact hregistered h

theorem of_checkSupernet {supernet : SupernetRecord} (h : l.checkSupernet supernet = .ok ()) :
    l.supernet supernet.id = .ok none := by
  obtain ⟨_, _, h⟩ := bind_eq_ok_iff.mp h
  obtain ⟨supernet?, hread, hnone⟩ := bind_eq_ok_iff.mp h
  rw [require_eq_ok_iff, Option.isNone_iff_eq_none] at hnone
  rw [hread, hnone]

/-- A transformation is the first of its supernet, its reward pool is part of its supply, and its
staking rules are sound. -/
theorem of_checkTransformation {t : SupernetTransformation} (h : l.checkTransformation t = .ok ()) :
    t.supernetId ≠ .primaryNetwork ∧ l.transformation t.supernetId = .ok none ∧
      t.initialRewardPool ≤ t.initialSupply ∧ t.staking.validate = .ok () := by
  obtain ⟨_, hother, h⟩ := bind_eq_ok_iff.mp h
  obtain ⟨_, _, h⟩ := bind_eq_ok_iff.mp h
  obtain ⟨_, _, h⟩ := bind_eq_ok_iff.mp h
  obtain ⟨transformation?, hread, h⟩ := bind_eq_ok_iff.mp h
  obtain ⟨_, hnone, h⟩ := bind_eq_ok_iff.mp h
  obtain ⟨_, hpool, hvalid⟩ := bind_eq_ok_iff.mp h
  rw [require_eq_ok_iff, Option.isNone_iff_eq_none] at hnone
  rw [require_eq_ok_iff, decide_eq_true_eq] at hpool
  subst hnone
  refine ⟨fun hprimary => ?_, hread, hpool, ?_⟩
  · rw [require_eq_ok_iff, EntityId.isPrimaryNetwork_iff.mpr hprimary] at hother
    cases hother
  · cases hresult : t.staking.validate with
    | ok => rfl
    | error e =>
        rw [hresult] at hvalid
        cases hvalid

end Ledger

/-! ## Applying a transaction -/

/-- What a body writes once its checks have passed. -/
inductive TxBody.Writes (l : Ledger) (config : StakingConfig) (id : EntityId) :
    TxBody → List Write → Prop
  | addStaker {stakerTx : StakerTx} {s : Staker} (hid : stakerTx.txId = id)
    (h : l.admitStaker stakerTx config = .ok s) :
    TxBody.Writes l config id (.addStaker stakerTx) [.put .pending s]
  | createSupernet {supernet : SupernetRecord} (h : l.checkSupernet supernet = .ok ()) :
    TxBody.Writes l config id (.createSupernet supernet) [.addSupernet supernet]
  | createChain {chain : ChainRecord} (h : l.checkChain chain = .ok ()) :
    TxBody.Writes l config id (.createChain chain) [.addChain chain]
  | transformSupernet {t : SupernetTransformation} (h : l.checkTransformation t = .ok ()) :
    TxBody.Writes l config id (.transformSupernet t)
      [.setSupply t.supernetId t.initialSupply, .setRewardPool t.supernetId t.initialRewardPool,
        .addTransformation t]

theorem writes_of_applyTx (h : (applyTx tx config).run l = (.ok (), l')) :
    l.tx tx.id = .ok none ∧ ∃ writes, tx.body.Writes l config tx.id writes ∧
      l' = l.writeAll (writes ++ [.addTx tx .committed]) := by
  obtain ⟨recorded?, hread, h⟩ := run_ask_bind_eq_ok_iff.mp h
  obtain ⟨_, hnone, h⟩ := run_ask_bind_eq_ok_iff.mp h
  rw [require_eq_ok_iff, Option.isNone_iff_eq_none] at hnone
  rw [hnone] at hread
  refine ⟨hread, ?_⟩
  obtain ⟨id, body⟩ := tx
  cases body with
  | addStaker stakerTx =>
      obtain ⟨_, hid, h⟩ := run_ask_bind_eq_ok_iff.mp h
      obtain ⟨s, hs, h⟩ := run_ask_bind_eq_ok_iff.mp h
      refine ⟨_, .addStaker (beq_iff_eq.mp (require_eq_ok_iff.mp hid)) hs, ?_⟩
      obtain ⟨rfl, _⟩ := Ledger.admits_of_admitStaker hs
      unfold Write.put
      rw [isValidator_pendingStaker]
      split at h
      next hvalidator =>
        rw [if_pos hvalidator]
        exact run_write_eq_ok_iff.mp h
      next hdelegator =>
        rw [if_neg hdelegator]
        exact run_write_eq_ok_iff.mp h
  | createSupernet supernet =>
      obtain ⟨_, hcheck, h⟩ := run_ask_bind_eq_ok_iff.mp h
      exact ⟨_, .createSupernet hcheck, run_write_eq_ok_iff.mp h⟩
  | createChain chain =>
      obtain ⟨_, hcheck, h⟩ := run_ask_bind_eq_ok_iff.mp h
      exact ⟨_, .createChain hcheck, run_write_eq_ok_iff.mp h⟩
  | transformSupernet t =>
      obtain ⟨_, hcheck, h⟩ := run_ask_bind_eq_ok_iff.mp h
      exact ⟨_, .transformSupernet hcheck, run_write_eq_ok_iff.mp h⟩
  | rewardStaker | advanceTime => cases h

/-! ## What the writes uphold -/

/-- The writes of a body that adds no staker. -/
theorem TxBody.Writes.plain {writes : List Write} {body : TxBody} {id : EntityId}
    (h : body.Writes l config id writes) (hnone : ∀ stakerTx, body ≠ .addStaker stakerTx) :
    ∀ w ∈ writes, w.IsPlain := by
  cases h with
  | addStaker => exact absurd rfl (hnone _)
  | createSupernet | createChain | transformSupernet => simp [Write.IsPlain]

namespace Ledger.Upholds

/-- The staker of an admitted transaction is enrolled with it. -/
theorem enrolls (h : l.Upholds c) (hnone : c.tx tx.id = .ok none)
    (hbody : tx.body = .addStaker stakerTx) (hid : stakerTx.txId = tx.id)
    (hs : l.admitStaker stakerTx config = .ok s) : c.Enrolls tx s := by
  obtain ⟨rfl, rules, hadmits⟩ := admits_of_admitStaker hs
  refine ⟨hnone, hid, ?_, fun hv phase => ?_⟩
  · rw [StoredTx.stakedOn?, hbody]
    rfl
  · rw [isValidator_pendingStaker] at hv
    exact h.validator_eq_ok_iff.mp (hadmits.free hv phase)

/-- Writes that leave the stakers alone, and the transaction that they belong to. -/
theorem record {writes : List Write} (hnone : c.tx tx.id = .ok none)
    (hplain : ∀ w ∈ writes, w.IsPlain) (hwrites : (l.writeAll writes).Upholds (c.writeAll writes)) :
    (l.writeAll (writes ++ [.addTx tx .committed])).Upholds
      (c.writeAll (writes ++ [.addTx tx .committed])) := by
  have hread : (c.writeAll writes).tx tx.id = .ok none := by
    rw [(Contents.same_of_plains hplain c).2.1, hnone]
  rw [Ledger.writeAll_append, Contents.writeAll_append]
  exact hwrites.addTx hread .committed

/-- The writes of a transaction keep the records in order. -/
theorem transaction (h : l.Upholds c) (hnew : l.tx tx.id = .ok none) {writes : List Write}
    (hwrites : tx.body.Writes l config tx.id writes) :
    (l.writeAll (writes ++ [.addTx tx .committed])).Upholds
      (c.writeAll (writes ++ [.addTx tx .committed])) := by
  rw [h.tx_eq] at hnew
  have hplain := hwrites.plain
  generalize hbody : tx.body = body at hwrites hplain
  cases hwrites with
  | @addStaker stakerTx s hid hs =>
      exact h.enroll (h.enrolls hnew hbody hid hs) (fun hphase => by cases hphase) .committed
  | createSupernet =>
      have hplain := hplain fun _ hother => by cases hother
      exact record hnew hplain (h.plain (hplain _ List.mem_cons_self) trivial)
  | @createChain chain hcheck =>
      have hplain := hplain fun _ hother => by cases hother
      obtain ⟨held, hread, hfresh⟩ := of_checkChain hcheck
      have hchain : l.view.RegistersNewChain (.addChain chain) := fun held' hread' =>
        Except.ok.inj (hread.symm.trans hread') ▸ hfresh
      obtain ⟨book, hsustains, _⟩ := id h
      exact record hnew hplain (h.plain (hplain _ List.mem_cons_self)
        (h.shows.registersNewChain (Contains.proper hsustains) hchain))
  | transformSupernet =>
      have hplain := hplain fun _ hother => by cases hother
      refine record hnew hplain (h.plains fun w hw => ⟨hplain w hw, fun _ => ?_⟩)
      simp at hw
      rcases hw with rfl | rfl | rfl <;> trivial

end Ledger.Upholds

end StakingLedger
