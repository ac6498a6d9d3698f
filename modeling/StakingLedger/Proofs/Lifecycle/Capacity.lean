import StakingLedger.Proofs.Lifecycle.Backing
import StakingLedger.Proofs.Lifecycle.PeakWeight
import StakingLedger.Proofs.Operation.Script

/-! # No validator carries more than its cap

The weight that a validator may carry is checked when a delegator joins, against
what the delegations known then will weigh at each later moment. Nothing is
checked again. The check lasts because later moves only take delegations away,
and because a delegation counts until its end only: one that is over may still
stand in the ledger until it is claimed, beside those that begin at its end.
-/

namespace StakingLedger

variable {configs : Set StakingConfig} {config : StakingConfig} {l l' : Ledger} {c c' : Contents}
  {writes : List Write} {g : Genesis} {state : State} {time : UInt64} {s t v d : Staker}
  {phase : Phase} {rules : StakingConfig} {supernet : EntityId}

/-- The staking rules of a network: the configured ones on the primary network, and elsewhere those
of the transformation. -/
inductive Governs (transformation : EntityId → Answer (Option SupernetTransformation))
    (config : StakingConfig) (supernet : EntityId) : StakingConfig → Prop
  | primary (h : supernet = .primaryNetwork) : Governs transformation config supernet config
  | transformed {t : SupernetTransformation} (hother : supernet ≠ .primaryNetwork)
    (ht : transformation supernet = .ok (some t)) :
    Governs transformation config supernet t.staking

theorem Governs.unique {transformation : EntityId → Answer (Option SupernetTransformation)}
    {rules' : StakingConfig} (h : Governs transformation config supernet rules)
    (h' : Governs transformation config supernet rules') : rules = rules' := by
  cases h with
  | primary h =>
      cases h' with
      | primary => rfl
      | transformed hother => exact absurd h hother
  | transformed hother ht =>
      cases h' with
      | primary h => exact absurd h hother
      | transformed _ ht' =>
          rw [ht] at ht'
          cases ht'
          rfl

namespace Staker

theorem promoted_promoted (s : Staker) (first second : UInt64) :
    (s.promoted first).promoted second = s.promoted second := by
  have hsame : s.priority.toCurrent.toCurrent = s.priority.toCurrent := by
    cases s.priority <;> rfl
  simp [promoted, hsame]

theorem Becomes.promoted (h : s.Becomes t) (reward : UInt64) :
    t.promoted reward = s.promoted reward := by
  rcases h with rfl | ⟨first, rfl⟩
  · rfl
  · exact s.promoted_promoted first reward

theorem Becomes.isValidator (h : s.Becomes t) : t.isValidator = s.isValidator :=
  congrArg StakerKind.isValidator h.kind

end Staker

namespace Contents

/-- The delegations of a slot, whether they are pending or current. -/
def delegations (c : Contents) (slot : Slot) : Set Staker :=
  {d | ∃ phase, ∃ s ∈ c.stakers phase, s.isValidator = false ∧ s.slot = slot ∧ d = s.promoted 0}

/-- At no moment from now on do a validator and the delegations of its slot weigh more than the
rules let it carry. -/
def Bears (c : Contents) (rules : StakingConfig) (v : Staker) : Prop :=
  ∀ time, c.timestamp ≤ time → ∀ running : List Staker, running.Nodup →
    (∀ d ∈ running, d ∈ c.delegations v.slot ∧ d.startTime ≤ time ∧ time < d.endTime) →
    v.weight.toNat + totalWeight running ≤ (Ledger.weightCap rules v).toNat

/-- Every validator bears the delegations of its slot, if there are any. -/
def Capped (config : StakingConfig) (c : Contents) : Prop :=
  ∀ phase, ∀ v ∈ c.stakers phase, v.isValidator = true → (c.delegations v.slot).Nonempty →
    ∃ rules, Governs c.transformation config v.supernetId rules ∧ c.Bears rules v

theorem capped_genesis (r : State.GenesisRecord {} g state) : r.contents.Capped config := by
  rintro phase v _ _ ⟨d, phase', s, hs, hd, _⟩
  rw [r.stakers_contents] at hs
  cases phase' with
  | pending => exact absurd hs (Set.notMem_empty s)
  | current =>
      obtain ⟨p, hp, rfl⟩ := hs
      rw [r.isValidator hp] at hd
      cases hd

/-- Where stakers only go on or leave, the validators bear no more than before. -/
theorem Capped.of_fewer (h : c.Capped config) (htime : c.timestamp ≤ c'.timestamp)
    (hfrom : ∀ phase, ∀ t ∈ c'.stakers phase, ∃ phase', ∃ s ∈ c.stakers phase', s.Becomes t)
    (hgoverns : ∀ supernet rules, Governs c.transformation config supernet rules →
      Governs c'.transformation config supernet rules) : c'.Capped config := by
  have hfewer : ∀ slot, c'.delegations slot ⊆ c.delegations slot := by
    rintro slot d ⟨phase, t, ht, hdelegates, hslot, rfl⟩
    obtain ⟨phase', s, hs, hbecomes⟩ := hfrom phase t ht
    exact ⟨phase', s, hs, hbecomes.isValidator ▸ hdelegates, hbecomes.slot ▸ hslot,
      hbecomes.promoted 0⟩
  intro phase t ht hvalidator hsome
  obtain ⟨phase', v, hv, hbecomes⟩ := hfrom phase t ht
  rw [hbecomes.slot] at hsome
  obtain ⟨rules, hrules, hbears⟩ :=
    h phase' v hv (hbecomes.isValidator ▸ hvalidator) (hsome.mono (hfewer _))
  refine ⟨rules, hbecomes.supernetId ▸ hgoverns _ _ hrules,
    fun time hnow running hnodup hrunning => ?_⟩
  have hweight : t.weight = v.weight := by rcases hbecomes with rfl | ⟨_, rfl⟩ <;> rfl
  rw [Ledger.weightCap, hweight]
  refine hbears time (UInt64.le_trans htime hnow) running hnodup fun d hd => ?_
  obtain ⟨hmem, hactive⟩ := hrunning d hd
  exact ⟨hfewer _ (hbecomes.slot ▸ hmem), hactive⟩

end Contents

/-! ## What was checked -/

theorem totalWeight_promoted (stakers : List Staker) (reward : UInt64) :
    totalWeight (stakers.map (·.promoted reward)) = totalWeight stakers := by
  rw [totalWeight, List.map_map]
  rfl

namespace Ledger.Upholds

/-- The delegators of a slot, as a ledger answers them. -/
theorem enumerates_delegators (h : l.Upholds c) (phase : Phase) (slot : Slot) :
    ∃ sequence, l.delegators phase slot = .ok sequence ∧
      Enumerates sequence.toList Staker.key (delegatorsIn (c.stakers phase) slot) := by
  obtain ⟨held, hheld, hmembers⟩ := h.shows.delegators phase slot
  obtain ⟨sequence, hread, rfl⟩ := map_eq_ok_iff.mp hheld
  rw [sequence.walkAll_eq_toList] at hmembers
  exact ⟨sequence, hread, hmembers⟩

/-- The delegations that run at a moment of the window weigh no more than the peak lets them. -/
theorem delegations_le_peak (h : l.Upholds c) (htimely : c.Timely) {start finish peak : UInt64}
    (hpeak : l.maxValidatorWeight v start finish = .ok peak) (hstart : start ≤ time)
    (hfinish : time ≤ finish) {running : List Staker} (hnodup : running.Nodup)
    (hrunning : ∀ d ∈ running, d ∈ c.delegations v.slot ∧ d.startTime ≤ time ∧ time < d.endTime) :
    v.weight.toNat + totalWeight running ≤ peak.toNat := by
  obtain ⟨current, hcurrent, hserving⟩ := h.enumerates_delegators .current v.slot
  obtain ⟨pending, hpending, hwaiting⟩ := h.enumerates_delegators .pending v.slot
  have hmemCurrent : ∀ s, s ∈ current.toList ↔ s ∈ delegatorsIn (c.stakers .current) v.slot :=
    fun s => hserving.mem_iff s
  have hmemPending : ∀ s, s ∈ pending.toList ↔ s ∈ delegatorsIn (c.stakers .pending) v.slot :=
    fun s => hwaiting.mem_iff s
  have hupcoming : Upcoming current.toList pending.toList .empty := by
    refine ⟨fun s hs => (htimely.serves s ((hmemCurrent s).mp hs).1).nextTime,
      fun s hs => (htimely.waits s ((hmemPending s).mp hs).1).nextTime, hwaiting.nextTime_pairwise,
      fun _ he => absurd he List.not_mem_nil, ?_⟩
    rw [show (OrderedMap.empty : StakerTree).values = [] from rfl, List.append_nil]
    refine hwaiting.nodup.imp_of_mem fun {s t} hs ht hne htx => hne ?_
    exact h.txId_inj .pending ((hmemPending s).mp hs).1 ((hmemPending t).mp ht).1 htx
  have hload := load_le_maxValidatorWeight hcurrent hpending hupcoming hpeak hstart hfinish
  -- What runs at the moment is a part of the load of the walks, seen as promoted.
  have hsub : running ⊆ ((current.toList.filter fun s => time < s.endTime) ++
      (pending.toList.filter fun s => s.startTime ≤ time ∧ time < s.endTime)).map
        (·.promoted 0) := by
    intro d hd
    obtain ⟨⟨phase, s, hs, hdelegates, hslot, rfl⟩, hactive⟩ := hrunning d hd
    refine List.mem_map_of_mem (List.mem_append.mpr ?_)
    cases phase with
    | current =>
        exact Or.inl (List.mem_filter.mpr
          ⟨(hmemCurrent s).mpr ⟨hs, hdelegates, hslot⟩, decide_eq_true hactive.2⟩)
    | pending =>
        exact Or.inr (List.mem_filter.mpr
          ⟨(hmemPending s).mpr ⟨hs, hdelegates, hslot⟩, decide_eq_true hactive⟩)
  have hle := totalWeight_le_of_subset hnodup hsub
  rw [totalWeight_promoted, totalWeight_append] at hle
  rw [loadAt] at hload
  omega

end Ledger.Upholds

/-! ## A staker joins -/

theorem StakingConfig.factor_ne_zero (h : rules.validate = .ok ()) :
    rules.maxValidatorWeightFactor ≠ 0 := by
  intro hzero
  unfold validate at h
  dsimp only at h
  rw [hzero] at h
  split at h <;> cases h

theorem le_saturatingMul {a b : UInt64} (hb : b ≠ 0) : a.toNat ≤ (saturatingMul a b).toNat := by
  have hpositive : 0 < b.toNat := Nat.pos_of_ne_zero fun hzero => hb (UInt64.toNat_inj.mp hzero)
  unfold saturatingMul
  split
  next hfits =>
    rw [UInt64.toNat_mul, Nat.mod_eq_of_lt hfits]
    exact Nat.le_mul_of_pos_right _ hpositive
  next =>
    have hlt := a.toNat_lt_size
    rw [UInt64.toNat_ofNat_of_lt' (by decide)]
    omega

namespace Ledger

/-- A validator that meets the terms of its network may carry at least itself. -/
theorem weight_le_weightCap {tx : StakerTx} (hterms : checkTerms tx (some rules) = .ok ())
    (hvalid : rules.validate = .ok ()) :
    tx.weight.toNat ≤ (weightCap rules (pendingStaker tx)).toNat := by
  obtain ⟨_, _, hstakes⟩ := bind_eq_ok_iff.mp hterms
  have hbounds := require_eq_ok_iff.mp hstakes
  rw [Bool.and_eq_true, decide_eq_true_iff, decide_eq_true_iff] at hbounds
  have hmost := UInt64.le_iff_toNat_le.mp hbounds.2
  have hfactor := le_saturatingMul (a := tx.weight) (StakingConfig.factor_ne_zero hvalid)
  change _ ≤ (if _ ≤ _ then _ else _ : UInt64).toNat
  split
  · exact hfactor
  · exact hmost

end Ledger

/-- A delegator without a validator is one of an open supernet, and its period is just over. -/
theorem Contents.Backed.alone {slot : Slot} (h : c.Backed)
    (hfree : ∀ phase, occupant (c.stakers phase) slot = none) (ht : t ∈ c.stakers phase)
    (hdelegates : t.isValidator = false) (hslot : t.slot = slot) :
    t.priority.kind = .permissionlessDelegator ∧ t.endTime = c.timestamp := by
  have huncovered : ¬ c.Covers slot phase t := by
    rintro ⟨phase', v, hv, hvalidator, hvslot, _⟩
    exact occupant_eq_none_iff.mp (hfree phase') v hv hvalidator hvslot
  change t.priority.kind.isValidator = false at hdelegates
  cases hkind : t.priority.kind with
  | primaryDelegator =>
      have hprimary : t.supernetId = .primaryNetwork := (h.home phase t ht).mpr (by rw [hkind]; rfl)
      have hcovers := h.primary phase t ht (by rw [hkind]; rfl)
      rw [← hprimary] at hcovers
      exact absurd (hslot ▸ hcovers) huncovered
  | permissionlessDelegator =>
      rcases h.hosted phase t ht hkind with hcovers | ⟨_, hover⟩
      · exact absurd (hslot ▸ hcovers) huncovered
      · exact ⟨rfl, hover⟩
  | primaryValidator | permissionedValidator | permissionlessValidator =>
      rw [hkind] at hdelegates
      cases hdelegates

namespace Ledger.Upholds

/-- A staker joins under the rules that govern its network. -/
theorem governs_of_joins (h : l.Upholds c) (hbacked : c.Backed) {tx : StakerTx}
    (hjoins : l.Joins config tx (some rules)) :
    Governs c.transformation config tx.supernetId rules := by
  cases hjoins with
  | primary _ hprimary => exact .primary hprimary
  | permissionless _ ht =>
      rw [h.transformation_eq] at ht
      refine .transformed (fun hprimary => ?_) ht
      rw [hprimary, hbacked.untransformed] at ht
      cases ht

/-- A validator that joins bears what may still stand on its slot. -/
theorem bears_joining_validator (h : l.Upholds c) (hbacked : c.Backed) {tx : StakerTx}
    {rules? : Option StakingConfig} (hadmits : l.Admits config tx rules?)
    (hvalidator : tx.kind.isValidator = true)
    (hsome : (c.delegations (pendingStaker tx).slot).Nonempty) :
    ∃ rules, Governs c.transformation config tx.supernetId rules ∧
      c.Bears rules (pendingStaker tx) := by
  have hfree : ∀ phase, occupant (c.stakers phase) (pendingStaker tx).slot = none := fun phase =>
    h.validator_eq_ok_iff.mp (hadmits.free hvalidator phase)
  obtain ⟨_, phase, t, ht, hdelegates, hslot, _⟩ := hsome
  -- Delegations on a free slot are those of a validator that is gone, all of them over.
  have hkind := (hbacked.alone hfree ht hdelegates hslot).1
  have hsupernet : t.supernetId = tx.supernetId := congrArg Slot.supernetId hslot
  have hother : tx.supernetId ≠ .primaryNetwork := by
    rw [← hsupernet, ne_eq, hbacked.home phase t ht, hkind]
    decide
  obtain ⟨transformation, ht'⟩ := hbacked.opened phase t ht (by rw [hkind]; rfl)
  rw [hsupernet] at ht'
  have hterms := hadmits.terms
  cases hadmits.joins with
  | primary _ hprimary => exact absurd hprimary hother
  | permissioned _ _ hnone =>
      rw [h.transformation_eq, ht'] at hnone
      cases hnone
  | @permissionless t' _ hjoined =>
      rw [h.transformation_eq] at hjoined
      refine ⟨_, .transformed hother hjoined, fun time hnow running _ hrunning => ?_⟩
      have hempty : running = [] := by
        refine List.eq_nil_iff_forall_not_mem.mpr fun d hd => ?_
        obtain ⟨⟨phase', u, hu, hudelegates, huslot, rfl⟩, _, hactive⟩ := hrunning d hd
        have hover : (u.promoted 0).endTime = c.timestamp :=
          (hbacked.alone hfree hu hudelegates huslot).2
        rw [hover] at hactive
        exact absurd hactive (UInt64.not_lt.mpr hnow)
      rw [hempty]
      have hle := weight_le_weightCap hterms (hbacked.valid _ _ hjoined)
      exact Int.le_trans (Int.le_of_eq (Int.add_zero _)) (Int.ofNat_le.mpr hle)

/-- A validator that hosts a delegator bears it together with the other delegations. -/
theorem bears_joining_delegator (h : l.Upholds c) (htimely : c.Timely) (hbacked : c.Backed)
    (hcapped : c.Capped config) {tx : StakerTx} {rules? : Option StakingConfig}
    (hadmits : l.Admits config tx rules?) (hdelegates : tx.kind.isValidator = false)
    (hv : v ∈ c.stakers phase) (hvalidator : v.isValidator = true)
    (hslot : (pendingStaker tx).slot = v.slot) :
    ∃ rules, Governs c.transformation config v.supernetId rules ∧
      ∀ time, c.timestamp ≤ time → ∀ running : List Staker, running.Nodup →
        (∀ d ∈ running, (d ∈ c.delegations v.slot ∨ d = (pendingStaker tx).promoted 0) ∧
          d.startTime ≤ time ∧ time < d.endTime) →
        v.weight.toNat + totalWeight running ≤ (weightCap rules v).toNat := by
  obtain ⟨host, rules, peak, total, ⟨⟨phase', hhost⟩, _⟩, hrules, hpeak, htotal, hcap⟩ :=
    hadmits.hosted hdelegates
  obtain ⟨hmem, hhostValidator, hhostSlot⟩ :=
    spec_of_occupant (h.validator_eq_ok_iff.mp hhost)
  obtain ⟨_, rfl⟩ := h.one_validator hv hmem hvalidator hhostValidator
    (hslot.symm.trans hhostSlot.symm)
  have hsupernet : tx.supernetId = v.supernetId := congrArg Slot.supernetId hslot
  have hgoverns : Governs c.transformation config v.supernetId rules :=
    hsupernet ▸ h.governs_of_joins hbacked (hrules ▸ hadmits.joins)
  refine ⟨rules, hgoverns, fun time hnow running hnodup hrunning => ?_⟩
  have hsum := checkedAdd_eq_ok_iff.mp htotal
  have hle := UInt64.le_iff_toNat_le.mp hcap
  by_cases hjoins : (pendingStaker tx).promoted 0 ∈ running
  · -- At a moment of the new period the others are part of the peak that was checked.
    obtain ⟨_, hstart, hend⟩ := hrunning _ hjoins
    have hothers := h.delegations_le_peak htimely hpeak hstart (UInt64.le_of_lt hend)
      (hnodup.erase _) fun d hd => by
        obtain ⟨hne, hd⟩ := hnodup.mem_erase_iff.mp hd
        obtain ⟨hold | hnew, hactive⟩ := hrunning d hd
        · exact ⟨hold, hactive⟩
        · exact absurd hnew hne
    have hperm := totalWeight_perm (List.perm_cons_erase hjoins)
    rw [totalWeight_cons] at hperm
    have hweight : ((pendingStaker tx).promoted 0).weight = tx.weight := rfl
    rw [hweight] at hperm
    omega
  · have hold : ∀ d ∈ running,
        d ∈ c.delegations v.slot ∧ d.startTime ≤ time ∧ time < d.endTime := by
      intro d hd
      obtain ⟨hmem | rfl, hactive⟩ := hrunning d hd
      · exact ⟨hmem, hactive⟩
      · exact absurd hd hjoins
    -- The rules are those of the network, so what held of the others before still does.
    cases running with
    | nil =>
        have halone := h.delegations_le_peak htimely hpeak (UInt64.le_refl _)
          (UInt64.le_of_lt hadmits.window) List.nodup_nil fun d hd => absurd hd List.not_mem_nil
        omega
    | cons d rest =>
        obtain ⟨rules', hrules', hbears⟩ :=
          hcapped phase v hv hvalidator ⟨d, (hold d List.mem_cons_self).1⟩
        rw [hgoverns.unique hrules']
        exact hbears time hnow _ hnodup hold

/-- The cap lasts when a staker joins. -/
theorem capped_enroll (h : l.Upholds c) (htimely : c.Timely) (hbacked : c.Backed)
    (hcapped : c.Capped config) {tx : StakerTx} {rules? : Option StakingConfig}
    (hadmits : l.Admits config tx rules?) (htime : c'.timestamp = c.timestamp)
    (hstakers : ∀ phase s, s ∈ c'.stakers phase ↔
      (phase = .pending ∧ s = pendingStaker tx) ∨ s ∈ c.stakers phase)
    (htransformation : c'.transformation = c.transformation) : c'.Capped config := by
  have hdelegations : ∀ slot d, d ∈ c'.delegations slot → d ∈ c.delegations slot ∨
      (tx.kind.isValidator = false ∧ (pendingStaker tx).slot = slot ∧
        d = (pendingStaker tx).promoted 0) := by
    rintro slot d ⟨phase, s, hs, hdelegates, hslot, rfl⟩
    rcases (hstakers phase s).mp hs with ⟨_, rfl⟩ | hs
    · exact Or.inr ⟨isValidator_pendingStaker tx ▸ hdelegates, hslot, rfl⟩
    · exact Or.inl ⟨phase, s, hs, hdelegates, hslot, rfl⟩
  intro phase v hv hvalidator hsome
  rw [htransformation]
  by_cases hhost : tx.kind.isValidator = false ∧ (pendingStaker tx).slot = v.slot
  · -- The staker is a delegator of this validator.
    obtain ⟨hdelegates, hslot⟩ := hhost
    rcases (hstakers phase v).mp hv with ⟨_, rfl⟩ | hv
    · rw [isValidator_pendingStaker, hdelegates] at hvalidator
      cases hvalidator
    obtain ⟨rules, hgoverns, hbears⟩ :=
      h.bears_joining_delegator htimely hbacked hcapped hadmits hdelegates hv hvalidator hslot
    refine ⟨rules, hgoverns, fun time hnow running hnodup hrunning => ?_⟩
    refine hbears time (htime ▸ hnow) running hnodup fun d hd => ?_
    obtain ⟨hmem, hactive⟩ := hrunning d hd
    exact ⟨(hdelegations _ d hmem).imp_right fun hnew => hnew.2.2, hactive⟩
  · -- The delegations of this validator are those from before.
    have hsame : ∀ d, d ∈ c'.delegations v.slot → d ∈ c.delegations v.slot := fun d hd =>
      (hdelegations _ d hd).resolve_right fun hnew => hhost ⟨hnew.1, hnew.2.1⟩
    have hbefore : ∃ rules, Governs c.transformation config v.supernetId rules ∧
        c.Bears rules v := by
      rcases (hstakers phase v).mp hv with ⟨_, rfl⟩ | hv
      · rw [isValidator_pendingStaker] at hvalidator
        exact h.bears_joining_validator hbacked hadmits hvalidator (hsome.mono hsame)
      · exact hcapped phase v hv hvalidator (hsome.mono hsame)
    obtain ⟨rules, hgoverns, hbears⟩ := hbefore
    refine ⟨rules, hgoverns, fun time hnow running hnodup hrunning => ?_⟩
    exact hbears time (htime ▸ hnow) running hnodup fun d hd =>
      ⟨hsame d (hrunning d hd).1, (hrunning d hd).2⟩

/-- Every operation keeps the cap, if transactions are checked with the configuration of the
run. -/
theorem capped (h : l.Upholds c) (htimely : c.Timely) (hbacked : c.Backed)
    (hcapped : c.Capped config) (hmoves : l.Moves {config} c writes) :
    (c.writeAll writes).Capped config := by
  -- Only an enrolment can add to what a validator bears; all other moves leave fewer delegations.
  cases hmoves with
  | unmoved htime hstakers htransformation =>
      refine hcapped.of_fewer (UInt64.le_of_eq htime.symm)
        (fun phase t ht => ⟨phase, t, hstakers ▸ ht, Or.inl rfl⟩) fun supernet rules hgoverns => ?_
      rwa [htransformation]
  | @transformed t hother hnone _ htime hstakers htransformation =>
      refine hcapped.of_fewer (UInt64.le_of_eq htime.symm)
        (fun phase t ht => ⟨phase, t, hstakers ▸ ht, Or.inl rfl⟩) fun supernet rules hgoverns => ?_
      cases hgoverns with
      | primary hprimary => exact .primary hprimary
      | transformed hother ht =>
          refine .transformed hother ?_
          rw [htransformation, Function.update_of_ne, ht]
          rintro rfl
          rw [hnone] at ht
          cases ht
  | enrolled hconfig _ hadmits htime hstakers htransformation =>
      cases Set.mem_singleton_iff.mp hconfig
      exact h.capped_enroll htimely hbacked hcapped hadmits htime hstakers htransformation
  | advanced _ _ _ hadvances =>
      refine hcapped.of_fewer (by rw [hadvances.timestamp]; exact hadvances.ahead)
        (fun phase t ht => ?_) fun supernet rules hgoverns => by rwa [hadvances.transformation]
      obtain ⟨phase', s, hs, hbecomes, _⟩ := htimely.origin hadvances ht
      exact ⟨phase', s, hs, hbecomes⟩
  | claimed _ htime hstakers htransformation =>
      refine hcapped.of_fewer (UInt64.le_of_eq htime.symm)
        (fun phase t ht => ⟨phase, t, ((hstakers phase t).mp ht).1, Or.inl rfl⟩)
        fun supernet rules hgoverns => ?_
      rwa [htransformation]

end Ledger.Upholds

namespace Ledger

theorem Runs.capped (h : Runs {config} g config l) :
    ∃ c, l.Upholds c ∧ c.Timely ∧ c.Backed ∧ c.Capped config :=
  h.invariant
    (fun r _ => ⟨Contents.timely_genesis r, Contents.backed_genesis r, Contents.capped_genesis r⟩)
    fun hupholds ⟨htimely, hbacked, hcapped⟩ hperforms =>
      have hmoves := hupholds.moves hperforms
      ⟨hupholds.timely htimely hmoves, hupholds.backed htimely hbacked hmoves,
        hupholds.capped htimely hbacked hcapped hmoves⟩

/-- What runs now of the delegators that a ledger answers is a part of the delegations. -/
theorem Upholds.running_delegations (h : l.Upholds c) (htimely : c.Timely) {slot : Slot}
    {delegators : List Staker}
    (hmembers : Enumerates delegators Staker.key (delegatorsIn (c.stakers .current) slot)) :
    let running := (delegators.filter (l.timestamp < ·.endTime)).map (·.promoted 0)
    running.Nodup ∧ ∀ d ∈ running, d ∈ c.delegations slot ∧ d.startTime ≤ c.timestamp ∧
      c.timestamp < d.endTime := by
  refine ⟨List.Nodup.map_on (fun s hs t ht heq => ?_) (hmembers.nodup.filter _), fun d hd => ?_⟩
  · have hs := (hmembers.mem_iff s).mp (List.mem_filter.mp hs).1
    have ht := (hmembers.mem_iff t).mp (List.mem_filter.mp ht).1
    have hid : (s.promoted 0).txId = (t.promoted 0).txId := by rw [heq]
    exact h.txId_inj .current hs.1 ht.1 hid
  · obtain ⟨s, hs, rfl⟩ := List.mem_map.mp hd
    obtain ⟨hs, hactive⟩ := List.mem_filter.mp hs
    obtain ⟨hs, hdelegates, hslot⟩ := (hmembers.mem_iff s).mp hs
    rw [decide_eq_true_iff, h.timestamp_eq] at hactive
    exact ⟨⟨.current, s, hs, hdelegates, hslot, rfl⟩, (htimely.serves s hs).started, hactive⟩

/-- In every ledger of a run, a validator with delegators carries no more than its cap: itself and
those of its current delegators that are not over yet. -/
theorem carried_le_cap (h : Runs {config} g config l) (phase : Phase) (slot : Slot) :
    ∃ found delegators, l.validator phase slot = .ok found ∧
      l.delegators .current slot = .ok delegators ∧
      ∀ v, found = some v → delegators.toList ≠ [] →
        ∃ rules, Governs l.transformation config slot.supernetId rules ∧
          v.weight.toNat + totalWeight (delegators.toList.filter (l.timestamp < ·.endTime)) ≤
            (weightCap rules v).toNat := by
  obtain ⟨c, hupholds, htimely, _, hcapped⟩ := h.capped
  obtain ⟨delegators, hread, hmembers⟩ := hupholds.enumerates_delegators .current slot
  refine ⟨_, delegators, hupholds.shows.validator phase slot, hread, fun v hv hsome => ?_⟩
  obtain ⟨hmem, hvalidator, rfl⟩ := spec_of_occupant hv
  obtain ⟨s, hs⟩ := List.exists_mem_of_ne_nil _ hsome
  obtain ⟨hs, hdelegates, hslot⟩ := (hmembers.mem_iff s).mp hs
  obtain ⟨rules, hgoverns, hbears⟩ :=
    hcapped phase v hmem hvalidator ⟨_, .current, s, hs, hdelegates, hslot, rfl⟩
  obtain ⟨hnodup, hrunning⟩ := hupholds.running_delegations htimely hmembers
  have hsame : l.transformation = c.transformation := funext hupholds.transformation_eq
  refine ⟨rules, hsame ▸ hgoverns, ?_⟩
  rw [← totalWeight_promoted _ 0]
  exact hbears c.timestamp (UInt64.le_refl _) _ hnodup hrunning

theorem carried_le_cap_sample :
    Runs {.sample} .sample .sample Ledger.sample ∧
      ∃ rules delegators,
        Governs Ledger.sample.transformation .sample sampleSupernet rules ∧
          Ledger.sample.delegators .current ⟨sampleSupernet, .zero 20⟩ = .ok delegators ∧
          1000000000000 +
              totalWeight (delegators.toList.filter (Ledger.sample.timestamp < ·.endTime)) ≤
            (weightCap rules (currentStaker sampleHostTx 199776)).toNat := by
  obtain ⟨found, delegators, hfound, hread, hcarried⟩ :=
    carried_le_cap runs_sample .current ⟨sampleSupernet, .zero 20⟩
  have hhost : Ledger.sample.validator .current ⟨sampleSupernet, .zero 20⟩ =
      .ok (some (currentStaker sampleHostTx 199776)) := by
    decide +kernel
  have hguest : ∃ delegators,
      Ledger.sample.delegators .current ⟨sampleSupernet, .zero 20⟩ = .ok delegators ∧
        delegators.toList ≠ [] := by
    decide +kernel
  obtain ⟨delegators', hread', hsome⟩ := hguest
  cases hread.symm.trans hread'
  obtain ⟨rules, hgoverns, hle⟩ :=
    hcarried _ (Except.ok.inj (hfound.symm.trans hhost)) hsome
  exact ⟨runs_sample, rules, delegators, hgoverns, hread, hle⟩

/-- One delegation begins when another one ends. -/
def touchingScript : List Instruction :=
  [sampleDelegatorTx.join, .advance 10,
    (sampleTx 7 .primaryDelegator .primaryNetwork 900000000000 20 30).join, .advance 20]

/-- Together with a delegation that is over but not claimed, a validator may carry more than its
cap. -/
theorem carried_above_cap :
    ∃ l, Runs {.sample} .sample .sample l ∧
      ∃ v, l.validator .current ⟨.primaryNetwork, .zero 20⟩ = .ok (some v) ∧
        ∃ delegators, l.delegators .current ⟨.primaryNetwork, .zero 20⟩ = .ok delegators ∧
          delegators.toList ≠ [] ∧
            (weightCap .sample v).toNat < v.weight.toNat + totalWeight delegators.toList := by
  have hends : ∃ l, ofScript .sample .sample touchingScript = .ok l ∧
      l.validator .current ⟨.primaryNetwork, .zero 20⟩ = .ok (some (currentStaker
        (sampleTx 1 .primaryValidator .primaryNetwork 1000000000000 5 100000) 729282407)) ∧
      ∃ delegators, l.delegators .current ⟨.primaryNetwork, .zero 20⟩ = .ok delegators ∧
        delegators.toList ≠ [] ∧ 2000000000000 < 1000000000000 + totalWeight delegators.toList := by
    decide +kernel
  obtain ⟨l, hscript, hhost, delegators, hread, hsome, habove⟩ := hends
  exact ⟨l, runs_of_ofScript hscript, _, hhost, delegators, hread, hsome, habove⟩

end Ledger

end StakingLedger
