import Mathlib.Algebra.BigOperators.Finprod
import Mathlib.Data.Set.Finite.List
import StakingLedger.Proofs.Operation.Upheld

/-! # Rewards that are promised and paid

The rewards of a supernet are either still promised to its current stakers or
recorded as outputs of its staking transactions. Both sums are over all that a
ledger contains; a write changes them by the one staker or output it names.
-/

namespace StakingLedger

instance {n : Nat} : Finite (FixedBytes n) := by
  have hbyte : Finite UInt8 := Finite.of_injective UInt8.toFin fun _ _ => UInt8.toFin_inj.mp
  have hlists : Finite {l : Bytes // l.length = n} := List.finite_length_eq UInt8 n
  refine Finite.of_injective
    (fun a : FixedBytes n => (⟨a.toList, a.length_toList⟩ : {l : Bytes // l.length = n})) ?_
  intro a b h
  cases a
  cases b
  cases h
  rfl

/-- What a staker is promised in the asset of a supernet. -/
def Staker.owed (supernet : EntityId) (s : Staker) : Int :=
  if s.supernetId = supernet then s.potentialReward.toNat else 0

theorem Staker.owed_self (s : Staker) : s.owed s.supernetId = s.potentialReward.toNat := if_pos rfl

theorem Staker.owed_ne {supernet : EntityId} {s : Staker} (h : supernet ≠ s.supernetId) :
    s.owed supernet = 0 :=
  if_neg h.symm

theorem Staker.owed_eq_zero {s : Staker} (h : s.potentialReward = 0) (supernet : EntityId) :
    s.owed supernet = 0 := by
  unfold owed
  rw [h]
  exact ite_self 0

/-- The amounts of some outputs, together. -/
def totalAmount (outputs : List Utxo) : Int :=
  (outputs.map fun utxo => (utxo.amount.toNat : Int)).sum

/-- What the reward outputs of a recorded transaction pay, if it stakes on the supernet. -/
def paidFor (supernet : EntityId) : Answer (Option (StoredTx × TxStatus)) → Answer (List Utxo) → Int
  | .ok (some (tx, _)), .ok outputs =>
    if tx.stakedOn? = some supernet then totalAmount outputs else 0
  | _, _ => 0

/-- The supply of a supernet, less its pool and all rewards promised and paid, is `total`. -/
def View.Balances (v : View) (supernet : EntityId) (total : Int) : Prop :=
  ∃ supply pool current, v.supply supernet = .ok supply ∧ v.rewardPool supernet = .ok pool ∧
    v.stakers .current = .ok current ∧
    (∀ stakerTx, (∃ recorded?, v.tx stakerTx = .ok recorded?) ∧
      ∃ outputs, v.rewardUtxos stakerTx = .ok outputs) ∧
    (supply.toNat : Int) - pool.toNat - (current.map (Staker.owed supernet)).sum -
      ∑ᶠ stakerTx, paidFor supernet (v.tx stakerTx) (v.rewardUtxos stakerTx) = total

namespace Contents

variable {c c' : Contents} {supernet : EntityId} {s : Staker} {stakerTx : EntityId} {tx : StoredTx}
  {status : TxStatus} {outputs : List Utxo}

/-- What the current stakers are promised in the asset of a supernet. -/
noncomputable def promised (c : Contents) (supernet : EntityId) : Int :=
  ∑ᶠ s ∈ c.stakers .current, s.owed supernet

/-- What was paid for the staking transactions of a supernet. -/
noncomputable def paid (c : Contents) (supernet : EntityId) : Int :=
  ∑ᶠ stakerTx, paidFor supernet (c.tx stakerTx) (c.rewardUtxos stakerTx)

/-- All rewards of a supernet, promised and paid. -/
noncomputable def outstanding (c : Contents) (supernet : EntityId) : Int :=
  c.promised supernet + c.paid supernet

/-! ## Promises -/

theorem promised_insert (hfinite : (c.stakers .current).Finite) (hs : s ∉ c.stakers .current) :
    (c.updateStakers .current (insert s)).promised supernet =
      c.promised supernet + s.owed supernet := by
  rw [promised, updateStakers_self, finsum_mem_insert _ hs hfinite, add_comm]
  rfl

theorem promised_delete (hfinite : (c.stakers .current).Finite) (hs : s ∈ c.stakers .current) :
    (c.updateStakers .current (· \ {s})).promised supernet =
      c.promised supernet - s.owed supernet := by
  have hsplit := finsum_mem_insert (Staker.owed supernet)
    (fun hmem : s ∈ c.stakers .current \ {s} => hmem.2 rfl) (hfinite.subset Set.sdiff_subset)
  rw [Set.insert_sdiff_singleton, Set.insert_eq_of_mem hs] at hsplit
  rw [promised, promised, updateStakers_self, hsplit]
  omega

theorem promised_congr (h : c'.stakers .current = c.stakers .current) (supernet : EntityId) :
    c'.promised supernet = c.promised supernet := by
  rw [promised, promised, h]

/-- The promises along an enumeration of the current stakers. -/
theorem promised_eq_sum {current : List Staker}
    (h : Enumerates current Staker.key (c.stakers .current)) (supernet : EntityId) :
    c.promised supernet = (current.map (Staker.owed supernet)).sum := by
  have hset : c.stakers .current = (current.toFinset : Set Staker) := by
    ext s
    rw [List.coe_toFinset]
    exact (h.mem_iff s).symm
  rw [promised, hset, finsum_mem_coe_finset, List.sum_toFinset _ h.nodup]

/-! ## Payments -/

theorem paid_congr (htx : c'.tx = c.tx) (hrewards : c'.rewardUtxos = c.rewardUtxos)
    (supernet : EntityId) : c'.paid supernet = c.paid supernet := by
  rw [paid, paid, htx, hrewards]

/-- Where two contents pay the same for all transactions but one, the difference is in that one. -/
theorem paid_eq_add {amount : Int} (stakerTx : EntityId)
    (hone : paidFor supernet (c'.tx stakerTx) (c'.rewardUtxos stakerTx) =
      paidFor supernet (c.tx stakerTx) (c.rewardUtxos stakerTx) + amount)
    (hother : ∀ id, id ≠ stakerTx → paidFor supernet (c'.tx id) (c'.rewardUtxos id) =
      paidFor supernet (c.tx id) (c.rewardUtxos id)) :
    c'.paid supernet = c.paid supernet + amount := by
  have hsum : ∀ id, paidFor supernet (c'.tx id) (c'.rewardUtxos id) =
      paidFor supernet (c.tx id) (c.rewardUtxos id) + if id = stakerTx then amount else 0 := by
    intro id
    by_cases hid : id = stakerTx
    · rw [if_pos hid, hid, hone]
    · rw [if_neg hid, hother id hid, add_zero]
  have hamount : ∑ᶠ id, (if id = stakerTx then amount else 0) = amount := by
    rw [finsum_eq_single _ stakerTx fun id hid => if_neg hid, if_pos rfl]
  -- There are finitely many identifiers, so no sum hides an infinite support.
  rw [paid, finsum_congr hsum, finsum_add_distrib (Set.toFinite _) (Set.toFinite _), hamount]
  rfl

/-- An output of the amount that a staker is promised, recorded for its transaction. -/
theorem paid_addRewardUtxo {utxo : Utxo} (htx : c.tx stakerTx = .ok (some (tx, status)))
    (hstaked : tx.stakedOn? = some s.supernetId) (houtputs : c.rewardUtxos stakerTx = .ok outputs)
    (hamount : utxo.amount = s.potentialReward) :
    (c.write (.addRewardUtxo stakerTx utxo)).paid supernet = c.paid supernet + s.owed supernet := by
  have hread : (c.write (.addRewardUtxo stakerTx utxo)).rewardUtxos stakerTx =
      .ok (outputs ++ [utxo]) := by
    simp only [write, Function.update_self, houtputs]
    rfl
  refine paid_eq_add stakerTx ?_ fun id hid => ?_
  · change paidFor supernet (c.tx stakerTx) _ = _
    rw [hread, htx, houtputs]
    simp only [paidFor, Staker.owed, hstaked, Option.some.injEq, ← hamount]
    split
    · simp [totalAmount]
    · rfl
  · simp only [write, Function.update_of_ne hid]

/-- Recording a transaction for which nothing was paid. -/
theorem paid_addTx (htx : c.tx tx.id = .ok none) (houtputs : c.rewardUtxos tx.id = .ok [])
    (status : TxStatus) (supernet : EntityId) :
    (c.write (.addTx tx status)).paid supernet = c.paid supernet := by
  rw [← add_zero (c.paid supernet)]
  refine paid_eq_add tx.id ?_ fun id hid => ?_
  · simp only [write, Function.update_self, houtputs, htx]
    exact ite_self 0
  · simp only [write, Function.update_of_ne hid]

/-! ## Both together -/

theorem outstanding_congr (hstakers : c'.stakers = c.stakers) (htx : c'.tx = c.tx)
    (hrewards : c'.rewardUtxos = c.rewardUtxos) (supernet : EntityId) :
    c'.outstanding supernet = c.outstanding supernet := by
  rw [outstanding, outstanding, paid_congr htx hrewards,
    promised_congr (congrFun hstakers .current)]

theorem outstanding_insert (hfinite : (c.stakers .current).Finite) (hs : s ∉ c.stakers .current) :
    (c.updateStakers .current (insert s)).outstanding supernet =
      c.outstanding supernet + s.owed supernet := by
  rw [outstanding, outstanding, promised_insert hfinite hs, add_right_comm]
  rfl

theorem outstanding_delete (hfinite : (c.stakers .current).Finite) (hs : s ∈ c.stakers .current) :
    (c.updateStakers .current (· \ {s})).outstanding supernet =
      c.outstanding supernet - s.owed supernet := by
  rw [outstanding, outstanding, promised_delete hfinite hs, sub_add_eq_add_sub]
  rfl

/-- Pending stakers are promised nothing. -/
theorem outstanding_pending (c : Contents) (f : Set Staker → Set Staker) (supernet : EntityId) :
    (c.updateStakers .pending f).outstanding supernet = c.outstanding supernet := by
  rw [outstanding, outstanding, promised_congr (c.updateStakers_ne f (by decide))]
  rfl

theorem outstanding_addRewardUtxo {utxo : Utxo} (htx : c.tx stakerTx = .ok (some (tx, status)))
    (hstaked : tx.stakedOn? = some s.supernetId) (houtputs : c.rewardUtxos stakerTx = .ok outputs)
    (hamount : utxo.amount = s.potentialReward) (supernet : EntityId) :
    (c.write (.addRewardUtxo stakerTx utxo)).outstanding supernet =
      c.outstanding supernet + s.owed supernet := by
  rw [outstanding, outstanding, paid_addRewardUtxo htx hstaked houtputs hamount, ← add_assoc]
  rfl

theorem outstanding_addTx (htx : c.tx tx.id = .ok none) (houtputs : c.rewardUtxos tx.id = .ok [])
    (status : TxStatus) (supernet : EntityId) :
    (c.write (.addTx tx status)).outstanding supernet = c.outstanding supernet := by
  rw [outstanding, outstanding, paid_addTx htx houtputs]
  rfl

theorem outstanding_plain {w : Write} (hplain : w.IsPlain) (c : Contents) (supernet : EntityId) :
    (c.write w).outstanding supernet = c.outstanding supernet := by
  obtain ⟨hstakers, htx, hrewards⟩ := hplain.same c
  exact outstanding_congr hstakers htx hrewards supernet

theorem outstanding_plains {writes : List Write} (hplain : ∀ w ∈ writes, w.IsPlain) (c : Contents)
    (supernet : EntityId) : (c.writeAll writes).outstanding supernet = c.outstanding supernet := by
  obtain ⟨hstakers, htx, hrewards⟩ := same_of_plains hplain c
  exact outstanding_congr hstakers htx hrewards supernet

end Contents

/-! ## The series of writes of the operations -/

namespace Ledger.Upholds

variable {l : Ledger} {c : Contents} {phase : Phase} {s : Staker} {tx : StoredTx}
  {status : TxStatus}

theorem outstanding_enroll (h : l.Upholds c) (henrolls : c.Enrolls tx s) (phase : Phase)
    (status : TxStatus) (supernet : EntityId) :
    (c.writeAll [.put phase s, .addTx tx status]).outstanding supernet =
      c.outstanding supernet + if phase = .current then s.owed supernet else 0 := by
  have hfinite := h.finite .current
  obtain ⟨book, hsustains, hstaked⟩ := h
  have hnone := henrolls.unrecorded
  rw [Contents.writeAll_enroll]
  refine (Contents.outstanding_addTx (c := c.updateStakers phase (insert s)) hnone
    (hstaked.unpaid _ hnone) status supernet).trans ?_
  cases phase with
  | current =>
      refine Contents.outstanding_insert hfinite fun hs => ?_
      exact hstaked.new_of_enrolls henrolls .current s
        ((Contains.proper hsustains).recorded _ hs) rfl
  | pending =>
      rw [if_neg (by decide), add_zero]
      exact c.outstanding_pending _ supernet

theorem outstanding_promote (h : l.Upholds c) (hs : s ∈ c.stakers .pending) (reward : UInt64)
    (supernet : EntityId) :
    (c.writeAll (TimeAdvance.promotionWrites ⟨s, s.promoted reward⟩)).outstanding supernet =
      c.outstanding supernet + (s.promoted reward).owed supernet := by
  have hfinite := h.finite .current
  obtain ⟨book, hsustains, hstaked⟩ := h
  have hcurrent : (c.updateStakers .pending (· \ {s})).stakers .current = c.stakers .current :=
    c.updateStakers_ne _ (by decide)
  rw [Contents.writeAll_promotionWrites, Contents.outstanding_insert (hcurrent ▸ hfinite),
    c.outstanding_pending]
  -- The promoted staker is new to the current set.
  rw [hcurrent]
  exact fun hmem => hstaked.unpromoted s hs _ ((Contains.proper hsustains).recorded _ hmem) rfl

theorem outstanding_retire (h : l.Upholds c) (hs : s ∈ c.stakers .current) (supernet : EntityId) :
    (c.write (.delete .current s)).outstanding supernet =
      c.outstanding supernet - s.owed supernet := by
  rw [Contents.write_delete]
  exact Contents.outstanding_delete (h.finite .current) hs

end Ledger.Upholds

end StakingLedger
