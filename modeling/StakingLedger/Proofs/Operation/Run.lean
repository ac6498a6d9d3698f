import StakingLedger.Proofs.Operation.Advancing
import StakingLedger.Proofs.Operation.Claims
import StakingLedger.Proofs.Operation.Opening

/-! # Runs of the ledger

A run starts with the root of a genesis in an empty store. It goes on with
transactions, moves of time and reward claims that succeed, opens layers, folds
them and commits. The first three are series of writes; the others change
nothing that the ledger on top contains. So what the genesis has, and these
series of writes keep, holds in every ledger of every run.
-/

namespace StakingLedger

namespace Ledger

/-- An operation that succeeds on the ledger, as the series of writes that it makes. -/
inductive Performs (configs : Set StakingConfig) (l : Ledger) : List Write → Prop
  | transaction {tx : StoredTx} {config : StakingConfig} {writes : List Write}
    (hconfig : config ∈ configs) (hnew : l.tx tx.id = .ok none)
    (hwrites : tx.body.Writes l config tx.id writes) :
    Performs configs l (writes ++ [.addTx tx .committed])
  | advance {rewards : RewardPolicy} {time : UInt64} {plan : TimeAdvance}
    (hverify : l.verifyAdvance time = .ok ()) (hplan : l.planAdvance rewards time = .ok plan) :
    Performs configs l plan.writes
  | claim {stakerTx : EntityId} {s : Staker} {writes : List Write}
    (hclaimed : l.claimedStaker stakerTx = .ok s)
    (hrewards : Rewards stakerTx s (l.write (.delete .current s)) writes) :
    Performs configs l (.delete .current s :: writes)

/-- One step of a run: transactions are applied with one of the given configurations, and time
moves as far as it may, whatever the reward policy. -/
inductive Operates (configs : Set StakingConfig) (l l' : Ledger) : Prop
  | applied {tx : StoredTx} {config : StakingConfig} (hconfig : config ∈ configs)
    (h : (applyTx tx config).run l = (.ok (), l'))
  | advanced {rewards : RewardPolicy} {time : UInt64} {plan : TimeAdvance}
    (hverify : l.verifyAdvance time = .ok ()) (hplan : l.planAdvance rewards time = .ok plan)
    (h : l' = l.applyAdvance plan)
  | claimed {stakerTx : EntityId} {rewarded : Bool}
    (h : (rewardStaker stakerTx rewarded).run l = (.ok (), l'))
  | opened {versions : Versions} {block : EntityId} (hresolve : versions.resolve? block = some l)
    (h : versions.openLayer block = .ok l')
  | settled (h : Settles l l')

/-- The ledgers that runs from a genesis reach. -/
inductive Runs (configs : Set StakingConfig) (g : Genesis) (config : StakingConfig) :
    Ledger → Prop
  | genesis {s : State} (h : State.fromGenesis {} g config = .ok s) :
    Runs configs g config (root s)
  | step {l l' : Ledger} (h : Runs configs g config l) (hop : l.Operates configs l') :
    Runs configs g config l'

variable {configs : Set StakingConfig} {g : Genesis} {config : StakingConfig} {l l' : Ledger}
  {c : Contents} {writes : List Write}

namespace Upholds

/-- Every operation keeps the records in order. -/
theorem performs (h : l.Upholds c) (hperforms : l.Performs configs writes) :
    (l.writeAll writes).Upholds (c.writeAll writes) := by
  cases hperforms with
  | transaction _ hnew hwrites => exact h.transaction hnew hwrites
  | advance _ hplan => exact h.advance hplan
  | claim hclaimed hrewards => exact h.claim hclaimed hrewards

/-- A step of a run is an operation or changes nothing on top. -/
theorem operates (h : l.Upholds c) (hop : l.Operates configs l') :
    (∃ writes, l.Performs configs writes ∧ l' = l.writeAll writes) ∨ l'.Upholds c := by
  cases hop with
  | applied hconfig hrun =>
      obtain ⟨hnew, writes, hwrites, rfl⟩ := writes_of_applyTx hrun
      exact Or.inl ⟨_, .transaction hconfig hnew hwrites, rfl⟩
  | advanced hverify hplan happly => exact Or.inl ⟨_, .advance hverify hplan, happly⟩
  | claimed hrun =>
      obtain ⟨s, writes, hclaimed, hrewards, rfl⟩ := rewards_of_rewardStaker hrun
      exact Or.inl ⟨_, .claim hclaimed hrewards, rfl⟩
  | @opened versions block hresolve hlayer =>
      rw [Versions.openLayer, hresolve] at hlayer
      cases hlayer
      exact Or.inr (h.opened block)
  | settled hsettles => exact Or.inr (h.settled hsettles)

end Upholds

/-- What holds after the genesis and is kept by every operation holds throughout a run. -/
theorem Runs.invariant {I : Contents → Prop}
    (hgenesis : ∀ {s : State} (r : State.GenesisRecord {} g s), config.validate = .ok () →
      I r.contents)
    (hperforms : ∀ {l : Ledger} {c : Contents} {writes : List Write}, l.Upholds c → I c →
      l.Performs configs writes → I (c.writeAll writes))
    (h : Runs configs g config l) : ∃ c, l.Upholds c ∧ I c := by
  induction h with
  | genesis hopened =>
      obtain ⟨r⟩ := State.genesisRecord_of_fromGenesis hopened
      exact ⟨r.contents, r.upholds_contents, hgenesis r (State.validate_of_fromGenesis hopened)⟩
  | step _ hop ih =>
      obtain ⟨c, hupholds, hc⟩ := ih
      rcases hupholds.operates hop with ⟨writes, hwrites, rfl⟩ | hsame
      · exact ⟨_, hupholds.performs hwrites, hperforms hupholds hc hwrites⟩
      · exact ⟨c, hsame, hc⟩

end Ledger

end StakingLedger
