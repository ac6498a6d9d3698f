import StakingLedger.Proofs.Operation.Run

/-! # Scripts of operations

A script lists operations together with what they are given. Carrying it out
after a genesis fails as soon as one of the operations fails; otherwise what it
ends in is a ledger of a run. So a run can be given by its script.
-/

namespace StakingLedger

/-- Whether an answer is given and has a property can be computed. -/
instance {α : Type} (answer : Answer α) (P : α → Prop) [DecidablePred P] :
    Decidable (∃ a, answer = .ok a ∧ P a) :=
  match answer with
  | .ok a => decidable_of_iff (P a) ⟨fun h => ⟨a, rfl, h⟩, fun ⟨_, heq, h⟩ => by cases heq; exact h⟩
  | .error _ => isFalse fun ⟨_, heq, _⟩ => nomatch heq

instance (l : Ledger) (phase : Phase) (s : Staker) : Decidable (l.Has phase s) :=
  inferInstanceAs (Decidable (∃ sequence, l.stakers phase = .ok sequence ∧ s ∈ sequence.toList))

/-- An operation with what it is given. -/
inductive Instruction where
  | apply (tx : StoredTx)
  | advance (time : UInt64)
  | claim (stakerTx : EntityId) (rewarded : Bool)
  deriving DecidableEq

/-- What an action on a ledger ends in, if it succeeds. -/
def LedgerM.ending (action : LedgerM Unit) (l : Ledger) : Answer Ledger :=
  match action.run l with
  | (.ok (), l') => .ok l'
  | (.error e, _) => .error e

theorem LedgerM.ending_eq_ok_iff {action : LedgerM Unit} {l l' : Ledger} :
    action.ending l = .ok l' ↔ action.run l = (.ok (), l') := by
  rw [ending]
  split
  next heq => rw [heq, Except.ok.injEq, Prod.mk.injEq, and_iff_right rfl]
  next heq =>
    rw [heq]
    exact iff_of_false nofun nofun

namespace Ledger

/-- Carries out an operation with the rules and the rewards of a configuration. -/
def perform (config : StakingConfig) (l : Ledger) : Instruction → Answer Ledger
  | .apply tx => (applyTx tx config).ending l
  | .advance time => do
    l.verifyAdvance time
    let plan ← l.planAdvance (configuredRewards config.reward) time
    return l.applyAdvance plan
  | .claim stakerTx rewarded => (rewardStaker stakerTx rewarded).ending l

/-- Carries out a script after a genesis. -/
def ofScript (g : Genesis) (config : StakingConfig) (script : List Instruction) :
    Answer Ledger := do
  let s ← State.fromGenesis {} g config
  script.foldlM (perform config) (root s)

variable {g : Genesis} {config : StakingConfig} {l l' : Ledger} {instruction : Instruction}
  {script : List Instruction}

theorem operates_of_perform (h : l.perform config instruction = .ok l') :
    l.Operates {config} l' := by
  cases instruction with
  | apply tx => exact .applied rfl (LedgerM.ending_eq_ok_iff.mp h)
  | advance time =>
      obtain ⟨⟨⟩, hverify, h⟩ := bind_eq_ok_iff.mp h
      obtain ⟨plan, hplan, h⟩ := bind_eq_ok_iff.mp h
      exact .advanced hverify hplan (Except.ok.inj h).symm
  | claim stakerTx rewarded => exact .claimed (LedgerM.ending_eq_ok_iff.mp h)

theorem Runs.foldlM_perform (h : Runs {config} g config l)
    (hscript : script.foldlM (perform config) l = .ok l') : Runs {config} g config l' :=
  foldlM_keeps (Runs {config} g config) (fun hstep hruns => hruns.step (operates_of_perform hstep)) hscript h

/-- What a script ends in is a ledger of a run. -/
theorem runs_of_ofScript (h : ofScript g config script = .ok l) : Runs {config} g config l := by
  obtain ⟨s, hs, hscript⟩ := bind_eq_ok_iff.mp h
  exact (Runs.genesis hs).foldlM_perform hscript

end Ledger

/-! ## A network with one node -/

/-- Rules with a cap of twice the own weight. -/
def StakingConfig.sample : StakingConfig where
  minValidatorStake := 1
  maxValidatorStake := 10000000000000
  minDelegatorStake := 1
  maxValidatorWeightFactor := 2
  reward := { minStakeDuration := 1, maxStakeDuration := 100000 }

/-- A staking transaction of the one node. -/
def sampleTx (word : UInt64) (kind : StakerKind) (supernet : EntityId)
    (weight startTime endTime : UInt64) : StakerTx where
  txId := .ofWord word
  kind := kind
  nodeId := .zero 20
  supernetId := supernet
  publicKey := none
  weight := weight
  startTime := startTime
  endTime := endTime
  rewardOwner := .ofWord 7

/-- The node validates the primary network. -/
def Genesis.sample : Genesis where
  timestamp := 5
  initialSupply := 100000000000000
  initialRewardPool := 500000000
  validators := [sampleTx 1 .primaryValidator .primaryNetwork 1000000000000 5 100000]

/-- The supernet that the second transaction creates. -/
def sampleSupernet : EntityId := .ofWord 2

/-- Opens that supernet. -/
def sampleTransformation : SupernetTransformation where
  supernetId := sampleSupernet
  assetId := .ofWord 8
  initialSupply := 10000000000000
  initialRewardPool := 1000000000000
  staking := .sample

def createSampleSupernet : Instruction :=
  .apply ⟨.ofWord 2, .createSupernet ⟨sampleSupernet, .ofWord 7⟩⟩

def transformSampleSupernet : Instruction :=
  .apply ⟨.ofWord 3, .transformSupernet sampleTransformation⟩

/-- A validator of the supernet. -/
def sampleHostTx : StakerTx :=
  sampleTx 4 .permissionlessValidator sampleSupernet 1000000000000 10 40

/-- A delegator to that validator. -/
def sampleGuestTx : StakerTx :=
  sampleTx 5 .permissionlessDelegator sampleSupernet 300000000000 10 30

/-- A delegator of the primary network. -/
def sampleDelegatorTx : StakerTx :=
  sampleTx 6 .primaryDelegator .primaryNetwork 700000000000 10 20

/-- Another one, much later. -/
def sampleLateTx : StakerTx :=
  sampleTx 7 .primaryDelegator .primaryNetwork 100000000000 50 60

/-- The instruction that lets a staker join. -/
def StakerTx.join (tx : StakerTx) : Instruction := .apply ⟨tx.txId, .addStaker tx⟩

/-- The supernet opens and stakers join. The first of them serves its period and is rewarded. -/
def sampleScript : List Instruction :=
  [createSampleSupernet, transformSampleSupernet, sampleHostTx.join, sampleGuestTx.join,
    sampleDelegatorTx.join, sampleLateTx.join, .advance 10, .advance 20, .claim (.ofWord 6) true]

/-- What the script ends in. -/
def Ledger.sample : Ledger :=
  match ofScript .sample .sample sampleScript with
  | .ok l => l
  | .error _ => .root default

theorem Ledger.runs_sample : Runs {.sample} .sample .sample Ledger.sample := by
  have hends : ∃ l, ofScript .sample .sample sampleScript = .ok l ∧ True := by decide +kernel
  obtain ⟨l, hscript, _⟩ := hends
  rw [Ledger.sample, hscript]
  exact runs_of_ofScript hscript

/-- The stakers of the ledger that the script ends in, with the rewards promised to them. -/
theorem Ledger.has_sample :
    Ledger.sample.Has .current (currentStaker sampleGuestTx 39954) ∧
      Ledger.sample.Has .current (currentStaker sampleHostTx 199776) ∧
      Ledger.sample.Has .pending (pendingStaker sampleLateTx) := by
  decide +kernel

end StakingLedger
