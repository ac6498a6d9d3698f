import StakingLedger.Proofs.Lifecycle.Backing
import StakingLedger.Proofs.Operation.Script

/-! # What backs a staker

Whom the validators of a run back is stated here for the ledgers themselves: by
the stakers that they list and the validators that they find. The primary network
is the backbone of every run. The validator of a supernet slot outlasts its
delegators as well, unless it was permissioned before the supernet was opened;
such a validator leaves by time alone, and a delegator with the same end may then
still wait to be claimed.
-/

namespace StakingLedger.Ledger

variable {configs : Set StakingConfig} {g : Genesis} {config : StakingConfig} {l : Ledger}
  {c : Contents} {slot : Slot} {phase : Phase} {s : Staker}

/-- The ledger finds a validator of the slot that stays throughout the period of a staker and is
current if that is. -/
def Backs (l : Ledger) (slot : Slot) (phase : Phase) (s : Staker) : Prop :=
  ∃ phase' v, l.validator phase' slot = .ok (some v) ∧
    v.startTime ≤ s.startTime ∧ s.endTime ≤ v.endTime ∧ (phase = .current → phase' = .current)

/-- A validator that stands on a slot is the one that the ledger finds there. -/
theorem Upholds.validator_eq (h : l.Upholds c) {v : Staker} (hv : v ∈ c.stakers phase)
    (hvalidator : v.isValidator = true) : l.validator phase v.slot = .ok (some v) := by
  refine h.validator_eq_ok_iff.mpr ?_
  obtain ⟨_, hsustains, _⟩ := h
  exact (occupant_eq_some_iff ((Contains.proper hsustains).slots phase)).mpr ⟨hv, hvalidator, rfl⟩

theorem Upholds.backs_of_covers (h : l.Upholds c) (hcovers : c.Covers slot phase s) :
    l.Backs slot phase s := by
  obtain ⟨phase', v, hv, hvalidator, rfl, hwithin⟩ := hcovers
  exact ⟨phase', v, h.validator_eq hv hvalidator, hwithin⟩

/-- In every ledger of a run, each primary delegator and each supernet validator is backed by the
validator of its node on the primary network, which is of no other kind. -/
theorem primary_backs (h : Runs configs g config l) :
    (∀ phase, ∃ sequence, l.stakers phase = .ok sequence) ∧
      (∀ phase node v, l.validator phase ⟨.primaryNetwork, node⟩ = .ok (some v) →
        v.priority.kind = .primaryValidator) ∧
      ∀ phase s, l.Has phase s → s.priority.kind.needsPrimary = true →
        l.Backs ⟨.primaryNetwork, s.nodeId⟩ phase s := by
  obtain ⟨c, hupholds, _, hbacked⟩ := h.backed
  refine ⟨hupholds.exists_stakers, fun phase node v hv => ?_, fun phase s hs hneeds => ?_⟩
  · obtain ⟨hmem, hvalidator, hslot⟩ := spec_of_occupant (hupholds.validator_eq_ok_iff.mp hv)
    have hprimary := (hbacked.home phase v hmem).mp (congrArg Slot.supernetId hslot)
    exact StakerKind.eq_primaryValidator hprimary hvalidator
  · exact hupholds.backs_of_covers (hbacked.primary phase s (hupholds.has_iff.mp hs) hneeds)

theorem primary_backs_sample :
    Runs {.sample} .sample .sample Ledger.sample ∧
      Ledger.sample.Backs ⟨.primaryNetwork, .zero 20⟩ .current (currentStaker sampleHostTx 199776) ∧
      Ledger.sample.Backs ⟨.primaryNetwork, .zero 20⟩ .pending (pendingStaker sampleLateTx) := by
  obtain ⟨_, hhost, hlate⟩ := has_sample
  obtain ⟨_, _, hbacks⟩ := primary_backs runs_sample
  exact ⟨runs_sample, hbacks _ _ hhost rfl, hbacks _ _ hlate rfl⟩

/-- In every ledger of a run, each delegator of an open supernet is backed by the validator of its
slot, unless it is about to be claimed. -/
theorem host_backs (h : Runs configs g config l) :
    (∀ phase, ∃ sequence, l.stakers phase = .ok sequence) ∧
      ∀ phase s, l.Has phase s → s.priority.kind = .permissionlessDelegator →
        l.Backs s.slot phase s ∨ (phase = .current ∧ s.endTime = l.timestamp) := by
  obtain ⟨c, hupholds, _, hbacked⟩ := h.backed
  refine ⟨hupholds.exists_stakers, fun phase s hs hdelegates => ?_⟩
  rw [hupholds.timestamp_eq]
  exact (hbacked.hosted phase s (hupholds.has_iff.mp hs) hdelegates).imp_left
    hupholds.backs_of_covers

theorem host_backs_sample :
    Runs {.sample} .sample .sample Ledger.sample ∧
      Ledger.sample.Backs ⟨sampleSupernet, .zero 20⟩ .current
        (currentStaker sampleGuestTx 39954) := by
  obtain ⟨hguest, _, _⟩ := has_sample
  obtain ⟨_, hbacks⟩ := host_backs runs_sample
  refine ⟨runs_sample, (hbacks _ _ hguest rfl).resolve_right fun ⟨_, hend⟩ => ?_⟩
  exact absurd hend (by decide +kernel)

/-- A permissioned validator joins, its supernet opens, and a delegator joins that ends with it. -/
def outlastingScript : List Instruction :=
  [createSampleSupernet,
    (sampleTx 4 .permissionedValidator sampleSupernet 1000000000000 10 30).join,
    transformSampleSupernet, sampleGuestTx.join, .advance 10, .advance 30]

/-- The delegator of an open supernet may outlast its validator. -/
theorem host_backs_outlasted :
    ∃ l, Runs {.sample} .sample .sample l ∧
      ∃ s, l.Has .current s ∧ s.priority.kind = .permissionlessDelegator ∧
        ¬ l.Backs s.slot .current s := by
  have hends : ∃ l, ofScript .sample .sample outlastingScript = .ok l ∧
      l.Has .current (currentStaker sampleGuestTx 39954) ∧
      l.validator .current ⟨sampleSupernet, .zero 20⟩ = .ok none := by
    decide +kernel
  obtain ⟨l, hscript, hguest, hfree⟩ := hends
  refine ⟨l, runs_of_ofScript hscript, _, hguest, rfl, fun ⟨phase, v, hv, _, _, hcurrent⟩ => ?_⟩
  obtain rfl := hcurrent rfl
  cases hfree.symm.trans hv

end StakingLedger.Ledger
