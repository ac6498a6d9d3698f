import StakingLedger.Advance
import StakingLedger.Proofs.Ledger.StakerReplay
import StakingLedger.Proofs.State.Settling

/-! # Staking records in order

Every staker goes back to a recorded staking transaction, of which it is the
only one: it waits in the pending set, is promoted once and retires once. The
operations on stakers keep this together with the contract of their writes. A
ledger upholds contents when it contains them and their records are in order.
-/

namespace StakingLedger

/-- Adds a staker of a new transaction to the records of a phase. -/
def Book.insert (book : Book) (phase : Phase) (s : Staker)
    (hnew : ∀ t ∈ book.records phase, t.txId ≠ s.txId) : Book where
  records := Function.update book.records phase (Insert.insert s (book.records phase))
  injOn phase' := by
    by_cases hphase : phase' = phase
    · subst hphase
      rw [Function.update_self]
      rintro t (rfl | ht) u (rfl | hu) htx
      · rfl
      · exact absurd htx.symm (hnew u hu)
      · exact absurd htx (hnew t ht)
      · exact book.injOn phase' ht hu htx
    · rw [Function.update_of_ne hphase]
      exact book.injOn phase'

theorem Book.mem_insert {book : Book} {phase phase' : Phase} {s t : Staker}
    (hnew : ∀ t ∈ book.records phase, t.txId ≠ s.txId) :
    t ∈ (book.insert phase s hnew).records phase' ↔
      (phase' = phase ∧ t = s) ∨ t ∈ book.records phase' := by
  change t ∈ Function.update book.records phase _ phase' ↔ _
  by_cases hphase : phase' = phase
  · subst hphase
    rw [Function.update_self, Set.mem_insert_iff, and_iff_right rfl]
  · rw [Function.update_of_ne hphase, or_iff_right fun h => hphase h.1]

@[simp] theorem Priority.kind_current (k : StakerKind) : (current k).kind = k := by
  rw [current, kind_toCurrent, kind_pending]

theorem Staker.isValidator_promoted (s : Staker) (reward : UInt64) :
    (s.promoted reward).isValidator = s.isValidator := by
  change s.priority.toCurrent.kind.isValidator = s.priority.kind.isValidator
  rw [Priority.kind_toCurrent]

theorem Staker.isPermissioned_promoted (s : Staker) (reward : UInt64) :
    (s.promoted reward).priority.isPermissioned = s.priority.isPermissioned := by
  change (s.priority.toCurrent.kind == _) = (s.priority.kind == _)
  rw [Priority.kind_toCurrent]

/-- The supernet that a transaction stakes on, if it does. -/
def StoredTx.stakedOn? (tx : StoredTx) : Option EntityId :=
  match tx.body with
  | .addStaker stakerTx => some stakerTx.supernetId
  | _ => none

/-- The write concerns neither stakers nor transactions nor reward outputs. -/
def Write.IsPlain : Write → Prop
  | .setTimestamp _ | .setFeePool _ | .setSupply .. | .setRewardPool .. => True
  | .addUtxo _ | .deleteUtxo _ | .addSupernet _ | .addTransformation _ | .addChain _ => True
  | _ => False

theorem Write.IsPlain.same {w : Write} (h : w.IsPlain) (c : Contents) :
    (c.write w).stakers = c.stakers ∧ (c.write w).tx = c.tx ∧
      (c.write w).rewardUtxos = c.rewardUtxos := by
  cases w <;> first | exact ⟨rfl, rfl, rfl⟩ | cases h

theorem Write.IsPlain.allows {w : Write} (h : w.IsPlain) (book : Book) (c : Contents) :
    c.Allows book w := by
  cases w <;> first | exact trivial | cases h

namespace Contents

variable {book : Book} {c c' : Contents} {phase phase' : Phase} {s t : Staker} {w : Write}
  {tx : StoredTx} {status : TxStatus} {stakerTx supernet : EntityId}

theorem mem_stakers_insert :
    t ∈ (c.updateStakers phase (insert s)).stakers phase' ↔
      (phase' = phase ∧ t = s) ∨ t ∈ c.stakers phase' := by
  by_cases hphase : phase' = phase
  · subst hphase
    rw [updateStakers_self, Set.mem_insert_iff, and_iff_right rfl]
  · rw [updateStakers_ne _ _ hphase, or_iff_right fun h => hphase h.1]

theorem mem_stakers_delete :
    t ∈ (c.updateStakers phase (· \ {s})).stakers phase' ↔
      t ∈ c.stakers phase' ∧ (phase' = phase → t ≠ s) := by
  by_cases hphase : phase' = phase
  · subst hphase
    rw [updateStakers_self, Set.mem_sdiff, Set.mem_singleton_iff]
    exact and_congr_right fun _ => ⟨fun h _ => h, fun h => h rfl⟩
  · rw [updateStakers_ne _ _ hphase, and_iff_left fun h => absurd h hphase]

/-- The transaction is recorded as one that stakes on the supernet. -/
def Stakes (c : Contents) (stakerTx supernet : EntityId) : Prop :=
  ∃ tx status, c.tx stakerTx = .ok (some (tx, status)) ∧ tx.stakedOn? = some supernet

/-- The staking records are in order. -/
structure Staked (book : Book) (c : Contents) : Prop where
  answered : ∀ id, ∃ recorded?, c.tx id = .ok recorded?
  staking : ∀ phase, ∀ s ∈ book.records phase, c.Stakes s.txId s.supernetId
  unpromoted : ∀ s ∈ c.stakers .pending, ∀ t ∈ book.records .current, t.txId ≠ s.txId
  vacant : ∀ s ∈ c.stakers .pending, ∀ t ∈ c.stakers .current, s.isValidator = true →
    t.isValidator = true → t.slot ≠ s.slot
  unrewarded : ∀ s ∈ c.stakers .current, s.priority.isPermissioned = true → s.potentialReward = 0
  numbered : c.NumbersOutputs
  unpaid : ∀ id, c.tx id = .ok none → c.rewardUtxos id = .ok []

theorem stakes_addTx (hnone : c.tx tx.id = .ok none) (h : c.Stakes stakerTx supernet) :
    (c.write (.addTx tx status)).Stakes stakerTx supernet := by
  obtain ⟨tx', status', hread, hstaked⟩ := h
  refine ⟨tx', status', ?_, hstaked⟩
  have hne : stakerTx ≠ tx.id := by
    rintro rfl
    rw [hnone] at hread
    cases hread
  simpa only [write, Function.update_of_ne hne] using hread

/-- A staker of a new transaction, which is still to be recorded, finds its slot free. -/
structure Enrolls (c : Contents) (tx : StoredTx) (s : Staker) : Prop where
  unrecorded : c.tx tx.id = .ok none
  txId : s.txId = tx.id
  staked : tx.stakedOn? = some s.supernetId
  free : s.isValidator = true → ∀ phase, occupant (c.stakers phase) s.slot = none

theorem Enrolls.apart (h : c.Enrolls tx s) (ht : t ∈ c.stakers phase) (hs : s.isValidator = true)
    (htv : t.isValidator = true) : t.slot ≠ s.slot :=
  occupant_eq_none_iff.mp (h.free hs phase) t ht htv

namespace Staked

theorem of_same (h : c.Staked book) (hstakers : c'.stakers = c.stakers) (htx : c'.tx = c.tx)
    (hrewards : c'.rewardUtxos = c.rewardUtxos) : c'.Staked book where
  answered := by rw [htx]; exact h.answered
  staking phase s hs := by
    obtain ⟨tx, status, hread, hstaked⟩ := h.staking phase s hs
    exact ⟨tx, status, by rw [htx, hread], hstaked⟩
  unpromoted := by rw [hstakers]; exact h.unpromoted
  vacant := by rw [hstakers]; exact h.vacant
  unrewarded := by rw [hstakers]; exact h.unrewarded
  numbered := by rw [NumbersOutputs, hrewards]; exact h.numbered
  unpaid := by rw [htx, hrewards]; exact h.unpaid

/-- A staker in the book is not of a transaction that is still to be recorded. -/
theorem txId_ne (h : c.Staked book) (hs : s ∈ book.records phase) {id : EntityId}
    (hnone : c.tx id = .ok none) : s.txId ≠ id := by
  rintro rfl
  obtain ⟨tx, status, hread, _⟩ := h.staking phase s hs
  rw [hnone] at hread
  cases hread

theorem addTx (h : c.Staked book) (hnone : c.tx tx.id = .ok none) (status : TxStatus) :
    (c.write (.addTx tx status)).Staked book where
  answered id := by
    by_cases hid : id = tx.id
    · subst hid
      exact ⟨_, Function.update_self _ _ _⟩
    · simp only [write, Function.update_of_ne hid]
      exact h.answered id
  staking phase s hs := stakes_addTx hnone (h.staking phase s hs)
  unpromoted := h.unpromoted
  vacant := h.vacant
  unrewarded := h.unrewarded
  numbered := h.numbered
  unpaid id hid := by
    by_cases heq : id = tx.id
    · simp only [write, heq, Function.update_self] at hid
      cases hid
    · simp only [write, Function.update_of_ne heq] at hid
      exact h.unpaid id hid

/-- Stakers that leave do no harm to the records. -/
theorem delete (h : c.Staked book) (phase : Phase) (s : Staker) :
    (c.updateStakers phase (· \ {s})).Staked book where
  answered := h.answered
  staking := h.staking
  unpromoted t ht := h.unpromoted t (mem_stakers_delete.mp ht).1
  vacant t ht u hu := h.vacant t (mem_stakers_delete.mp ht).1 u (mem_stakers_delete.mp hu).1
  unrewarded t ht := h.unrewarded t (mem_stakers_delete.mp ht).1
  numbered := h.numbered
  unpaid := h.unpaid

theorem new_of_enrolls (h : c.Staked book) (henrolls : c.Enrolls tx s) (phase : Phase) :
    ∀ t ∈ book.records phase, t.txId ≠ s.txId :=
  fun _ ht => henrolls.txId ▸ h.txId_ne ht henrolls.unrecorded

/-- A staker joins a phase together with its transaction. -/
theorem enroll (h : c.Staked book) (hproper : c.Proper book) (henrolls : c.Enrolls tx s)
    (hunrewarded : phase = .current → s.priority.isPermissioned = true → s.potentialReward = 0)
    (status : TxStatus) :
    ((c.updateStakers phase (insert s)).write (.addTx tx status)).Staked
      (book.insert phase s (h.new_of_enrolls henrolls phase)) where
  answered := (h.addTx henrolls.unrecorded status).answered
  staking phase' t ht := by
    rcases (Book.mem_insert _).mp ht with ⟨_, rfl⟩ | ht
    · exact ⟨tx, status, henrolls.txId ▸ Function.update_self _ _ _, henrolls.staked⟩
    · exact (h.addTx henrolls.unrecorded status).staking phase' t ht
  unpromoted t ht u hu := by
    -- Only one of the two can be the new staker, since it joins one phase.
    rcases (Book.mem_insert _).mp hu with ⟨hcurrent, rfl⟩ | hbefore
    · rcases mem_stakers_insert.mp ht with ⟨hpending, _⟩ | hwaiting
      · rw [← hcurrent] at hpending
        cases hpending
      · exact (h.new_of_enrolls henrolls .pending t (hproper.recorded _ hwaiting)).symm
    · rcases mem_stakers_insert.mp ht with ⟨_, rfl⟩ | hwaiting
      · exact h.new_of_enrolls henrolls .current u hbefore
      · exact h.unpromoted t hwaiting u hbefore
  vacant t ht u hu htv huv := by
    rcases mem_stakers_insert.mp hu with ⟨hcurrent, rfl⟩ | hbefore
    · rcases mem_stakers_insert.mp ht with ⟨hpending, _⟩ | hwaiting
      · rw [← hcurrent] at hpending
        cases hpending
      · exact (henrolls.apart hwaiting huv htv).symm
    · rcases mem_stakers_insert.mp ht with ⟨_, rfl⟩ | hwaiting
      · exact henrolls.apart hbefore htv huv
      · exact h.vacant t hwaiting u hbefore htv huv
  unrewarded t ht := by
    rcases mem_stakers_insert.mp ht with ⟨hcurrent, rfl⟩ | ht
    · exact hunrewarded hcurrent.symm
    · exact h.unrewarded t ht
  numbered := h.numbered
  unpaid := (h.addTx henrolls.unrecorded status).unpaid

/-- A pending staker becomes a current one. -/
theorem promote (h : c.Staked book) (hproper : c.Proper book) (hs : s ∈ c.stakers .pending)
    {reward : UInt64} (hreward : s.priority.isPermissioned = true → reward = 0) :
    ((c.updateStakers .pending (· \ {s})).updateStakers .current
      (insert (s.promoted reward))).Staked
        (book.insert .current (s.promoted reward) (h.unpromoted s hs)) where
  answered := h.answered
  staking phase t ht := by
    rcases (Book.mem_insert _).mp ht with ⟨_, rfl⟩ | ht
    · exact h.staking .pending s (hproper.recorded _ hs)
    · exact h.staking phase t ht
  unpromoted t ht u hu := by
    rcases mem_stakers_insert.mp ht with ⟨hphase, _⟩ | ht
    · cases hphase
    obtain ⟨ht, hne⟩ := mem_stakers_delete.mp ht
    rcases (Book.mem_insert _).mp hu with ⟨_, rfl⟩ | hu
    · -- Another pending staker of this transaction would be the promoted one itself.
      intro htx
      exact hne rfl (hproper.one_record (hproper.recorded _ hs) t ht htx.symm)
    · exact h.unpromoted t ht u hu
  vacant t ht u hu htv huv := by
    rcases mem_stakers_insert.mp ht with ⟨hphase, _⟩ | ht
    · cases hphase
    obtain ⟨ht, hne⟩ := mem_stakers_delete.mp ht
    rcases mem_stakers_insert.mp hu with ⟨_, rfl⟩ | hu
    · -- The slot was its own before, and pending validators do not share slots.
      intro hslot
      have hsv : s.isValidator = true := by
        rwa [Staker.isValidator_promoted] at huv
      exact hne rfl (hproper.slots .pending t ht s hs htv hsv hslot.symm)
    · exact h.vacant t ht u (mem_stakers_delete.mp hu).1 htv huv
  unrewarded t ht := by
    rcases mem_stakers_insert.mp ht with ⟨_, rfl⟩ | ht
    · intro hpermissioned
      rw [Staker.isPermissioned_promoted] at hpermissioned
      exact hreward hpermissioned
    · exact h.unrewarded t (mem_stakers_delete.mp ht).1
  numbered := h.numbered
  unpaid := h.unpaid

/-- A reward output of a staking transaction is recorded with the next index. -/
theorem pay (h : c.Staked book) (hstakes : c.Stakes stakerTx supernet) {utxo : Utxo}
    {paid : List Utxo} (hpaid : c.rewardUtxos stakerTx = .ok paid)
    (hnext : utxo.id.outputIndex.toNat = paid.length) :
    (c.write (.addRewardUtxo stakerTx utxo)).Staked book where
  answered := h.answered
  staking := h.staking
  unpromoted := h.unpromoted
  vacant := h.vacant
  unrewarded := h.unrewarded
  numbered id := by
    by_cases hid : id = stakerTx
    · subst hid
      obtain ⟨found, hfound, hnumbered⟩ := h.numbered id
      rw [hpaid] at hfound
      cases hfound
      refine ⟨paid ++ [utxo], ?_, numbered_append_singleton hnumbered hnext⟩
      simp only [write, Function.update_self, hpaid]
      rfl
    · simp only [write, Function.update_of_ne hid]
      exact h.numbered id
  unpaid id hid := by
    obtain ⟨tx, status, hread, _⟩ := hstakes
    have hne : id ≠ stakerTx := by
      rintro rfl
      have hnone : c.tx id = .ok none := hid
      rw [hread] at hnone
      cases hnone
    simp only [write, Function.update_of_ne hne]
    exact h.unpaid id hid

end Staked

end Contents

end StakingLedger
