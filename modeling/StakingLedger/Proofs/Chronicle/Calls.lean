import StakingLedger.Proofs.Operation.Run

/-! # Calls that may fail

A transaction that is rejected leaves the ledger as it was. A claim checks
everything about the staker before it retires it, but a failure to settle the reward
comes later: the staker is gone then, and nothing is paid. So whatever a call comes
to, it makes one of a few series of writes.
-/

namespace StakingLedger

/-! ## Computations that fail without a trace -/

namespace LedgerM

variable {α β : Type} {action : LedgerM α} {l : Ledger}

/-- The computation does not fail. -/
def Infallible (action : LedgerM α) : Prop := ∀ l, ∃ a, (action.run l).1 = .ok a

/-- If the computation fails, the ledger is as it was. -/
def Atomic (action : LedgerM α) : Prop := ∀ l e, (action.run l).1 = .error e → (action.run l).2 = l

theorem run_ask_bind_of_ok {read : Ledger → Answer α} {next : α → LedgerM β} {a : α}
    (h : read l = .ok a) : (ask read >>= next).run l = (next a).run l := by
  have hask : (ask read).run l = (.ok a, l) := run_ask_eq_ok_iff.mpr ⟨h, rfl⟩
  rw [run_bind, hask]

theorem run_ask_bind_of_error {read : Ledger → Answer α} {next : α → LedgerM β} {e : LedgerError}
    (h : read l = .error e) : (ask read >>= next).run l = (.error e, l) := by
  have hask : (ask read).run l = (.error e, l) := congrArg (·, l) h
  rw [run_bind, hask]

theorem Infallible.atomic (h : action.Infallible) : action.Atomic := by
  intro l e he
  obtain ⟨a, ha⟩ := h l
  rw [ha] at he
  cases he

theorem infallible_write (w : Write) : (write w).Infallible := fun _ => ⟨(), rfl⟩

theorem infallible_write_bind {w : Write} {next : Unit → LedgerM β} (h : (next ()).Infallible) :
    (write w >>= next).Infallible := by
  intro l
  rw [run_write_bind]
  exact h (l.write w)

theorem atomic_throw (e : LedgerError) : (throw e : LedgerM α).Atomic := fun _ _ _ => rfl

theorem atomic_ask_bind {read : Ledger → Answer α} {next : α → LedgerM β}
    (h : ∀ a, (next a).Atomic) : (ask read >>= next).Atomic := by
  intro l e he
  cases hread : read l with
  | error e' => rw [run_ask_bind_of_error hread]
  | ok a =>
      rw [run_ask_bind_of_ok hread] at he ⊢
      exact h a l e he

end LedgerM

open LedgerM

/-- A transaction that is rejected changes nothing. -/
theorem atomic_applyTx (tx : StoredTx) (config : StakingConfig) : (applyTx tx config).Atomic := by
  -- All checks come before the first write, and writes do not fail.
  obtain ⟨id, body⟩ := tx
  apply atomic_ask_bind
  intro recorded
  apply atomic_ask_bind
  intro _
  cases body with
  | addStaker stakerTx =>
      apply atomic_ask_bind
      intro _
      apply atomic_ask_bind
      intro s
      dsimp only
      split <;> exact (infallible_write_bind (infallible_write _)).atomic
  | createSupernet | createChain =>
      apply atomic_ask_bind
      intro _
      exact (infallible_write_bind (infallible_write _)).atomic
  | transformSupernet =>
      apply atomic_ask_bind
      intro _
      exact (infallible_write_bind (infallible_write_bind (infallible_write_bind
        (infallible_write _)))).atomic
  | rewardStaker | advanceTime => exact atomic_throw _

variable {configs : Set StakingConfig} {l : Ledger} {c : Contents} {s : Staker} {tx : StakerTx}
  {writes : List Write}

/-! ## Claims, whatever they come to -/

/-- What is written about the reward of a staker that was retired. Nothing is, if there is none or
if the claim fails over it. -/
inductive Recompenses (tx : StakerTx) (s : Staker) (l : Ledger) : List Write → Prop
  | nothing : Recompenses tx s l []
  | paid {utxo : Utxo} (h : l.rewardOutput s tx.rewardOwner = .ok utxo) :
    Recompenses tx s l [.addUtxo utxo, .addRewardUtxo s.txId utxo]
  | forfeited {pool total : UInt64} (hpool : l.rewardPool s.supernetId = .ok pool)
    (htotal : pool.toNat + s.potentialReward.toNat = total.toNat) :
    Recompenses tx s l [.setRewardPool s.supernetId total]

theorem recompenses_of_rewardWrites {rewarded : Bool}
    (h : l.rewardWrites s.txId s tx.rewardOwner rewarded = .ok writes) :
    Recompenses tx s l writes := by
  obtain ⟨_, rfl⟩ | ⟨_, _, utxo, hutxo, rfl⟩ | ⟨_, _, pool, total, hpool, htotal, rfl⟩ :=
    Ledger.of_rewardWrites h
  · exact .nothing
  · exact .paid hutxo
  · exact .forfeited hpool htotal

/-- A claim leaves the ledger alone, or it retires the claimed staker. -/
theorem recompenses_of_rewardStaker (stakerTx : EntityId) (rewarded : Bool) (l : Ledger) :
    ((rewardStaker stakerTx rewarded).run l).2 = l ∨ ∃ s tx writes,
      l.claimedStaker stakerTx = .ok s ∧ l.stakingTx stakerTx = .ok tx ∧
        Recompenses tx s (l.write (.delete .current s)) writes ∧
        ((rewardStaker stakerTx rewarded).run l).2 = l.writeAll (.delete .current s :: writes) := by
  rw [run_rewardStaker]
  cases hclaim : l.claim stakerTx with
  | error e => exact Or.inl rfl
  | ok found =>
      obtain ⟨s, tx⟩ := found
      obtain ⟨hclaimed, hstaking⟩ := Ledger.of_claim hclaim
      obtain ⟨rfl, _⟩ := Ledger.of_claimedStaker hclaimed
      right
      dsimp only
      -- From here on the staker is retired, whether or not its reward can be settled.
      cases hwrites : (l.write (.delete .current s)).rewardWrites s.txId s tx.rewardOwner
          rewarded with
      | error e => exact ⟨s, tx, [], hclaimed, hstaking, .nothing, rfl⟩
      | ok writes =>
          exact ⟨s, tx, writes, hclaimed, hstaking, recompenses_of_rewardWrites hwrites, rfl⟩

/-! ## The writes of a call -/

namespace Ledger

/-- The writes of a call on the ledger, whether or not it succeeds in the end. -/
inductive Issues (configs : Set StakingConfig) (l : Ledger) : List Write → Prop
  | transaction {tx : StoredTx} {config : StakingConfig} {writes : List Write}
    (hconfig : config ∈ configs) (hnew : l.tx tx.id = .ok none)
    (hwrites : tx.body.Writes l config tx.id writes) :
    Issues configs l (writes ++ [.addTx tx .committed])
  | advance {rewards : RewardPolicy} {time : UInt64} {plan : TimeAdvance}
    (hverify : l.verifyAdvance time = .ok ()) (hplan : l.planAdvance rewards time = .ok plan) :
    Issues configs l plan.writes
  | claim {s : Staker} {tx : StakerTx} {writes : List Write}
    (hclaimed : l.claimedStaker s.txId = .ok s) (hstaking : l.stakingTx s.txId = .ok tx)
    (hreward : Recompenses tx s (l.write (.delete .current s)) writes) :
    Issues configs l (.delete .current s :: writes)

/-- Every call keeps the records in order. -/
theorem Upholds.issues (h : l.Upholds c) (hissues : l.Issues configs writes) :
    (l.writeAll writes).Upholds (c.writeAll writes) := by
  cases hissues with
  | transaction _ hnew hwrites => exact h.transaction hnew hwrites
  | advance _ hplan => exact h.advance hplan
  | claim hclaimed _ hreward =>
      cases hreward with
      | nothing => exact h.retire (h.mem_of_claimedStaker hclaimed)
      | paid hutxo => exact h.claim hclaimed (.paid hutxo)
      | forfeited hpool htotal => exact h.claim hclaimed (.forfeited hpool htotal)

theorem issues_of_applyTx {tx : StoredTx} {config : StakingConfig} (hconfig : config ∈ configs) :
    ((applyTx tx config).run l).2 = l ∨ ∃ writes, l.Issues configs writes ∧
      ((applyTx tx config).run l).2 = l.writeAll writes := by
  rcases hrun : (applyTx tx config).run l with ⟨e | ⟨⟨⟩⟩, l'⟩
  · have hsame := atomic_applyTx tx config l e (by rw [hrun])
    rw [hrun] at hsame
    exact Or.inl hsame
  · obtain ⟨hnew, writes, hwrites, rfl⟩ := writes_of_applyTx hrun
    exact Or.inr ⟨_, .transaction hconfig hnew hwrites, rfl⟩

theorem issues_of_rewardStaker (stakerTx : EntityId) (rewarded : Bool) :
    ((rewardStaker stakerTx rewarded).run l).2 = l ∨ ∃ writes, l.Issues configs writes ∧
      ((rewardStaker stakerTx rewarded).run l).2 = l.writeAll writes := by
  rcases recompenses_of_rewardStaker stakerTx rewarded l with
    hsame | ⟨s, tx, writes, hclaimed, hstaking, hreward, hafter⟩
  · exact Or.inl hsame
  · obtain ⟨rfl, _⟩ := of_claimedStaker hclaimed
    exact Or.inr ⟨_, .claim hclaimed hstaking hreward, hafter⟩

end Ledger

end StakingLedger
