import Mathlib.Data.Set.Finite.List
import StakingLedger.Proofs.Operation.Records

/-! # What the operations uphold

A ledger upholds contents when it contains them over a durable root and their
staking records are in order. Every operation on the ledger is made of the few
series of writes treated here, and each of them keeps to the contract.
-/

namespace StakingLedger

namespace Contents

theorem asks_put (c : Contents) (phase : Phase) (s : Staker) :
    c.RegistersNewChain (.put phase s) ∧ c.NextOutput (.put phase s) := by
  unfold Write.put
  split <;> exact ⟨trivial, trivial⟩

theorem asks_delete (c : Contents) (phase : Phase) (s : Staker) :
    c.RegistersNewChain (.delete phase s) ∧ c.NextOutput (.delete phase s) := by
  unfold Write.delete
  split <;> exact ⟨trivial, trivial⟩

theorem same_of_plains {writes : List Write} (hplain : ∀ w ∈ writes, w.IsPlain) (c : Contents) :
    (c.writeAll writes).stakers = c.stakers ∧ (c.writeAll writes).tx = c.tx ∧
      (c.writeAll writes).rewardUtxos = c.rewardUtxos :=
  ⟨get_writeAll Contents.stakers fun w hw c => ((hplain w hw).same c).1,
    get_writeAll (fun c => c.tx) fun w hw c => ((hplain w hw).same c).2.1,
    get_writeAll (fun c => c.rewardUtxos) fun w hw c => ((hplain w hw).same c).2.2⟩

end Contents

/-- A promotion moves a staker from one phase to the other. -/
theorem TimeAdvance.promotionWrites_eq (s : Staker) (reward : UInt64) :
    promotionWrites ⟨s, s.promoted reward⟩ =
      [.delete .pending s, .put .current (s.promoted reward)] := by
  unfold promotionWrites Write.delete Write.put
  rw [Staker.isValidator_promoted]
  dsimp only
  split <;> rfl

theorem Contents.writeAll_promotionWrites (c : Contents) (s : Staker) (reward : UInt64) :
    c.writeAll (TimeAdvance.promotionWrites ⟨s, s.promoted reward⟩) =
      (c.updateStakers .pending (· \ {s})).updateStakers .current (insert (s.promoted reward)) := by
  rw [TimeAdvance.promotionWrites_eq]
  change (c.write (.delete .pending s)).write (.put .current (s.promoted reward)) = _
  rw [write_put, write_delete]

/-- A current staker that leaves, and what is written about it. -/
theorem Contents.writeAll_retire (c : Contents) (s : Staker) (writes : List Write) :
    c.writeAll (.delete .current s :: writes) =
      (c.updateStakers .current (· \ {s})).writeAll writes :=
  congrArg (Contents.writeAll · writes) (c.write_delete .current s)

/-- A staker that joins a phase, and its transaction. -/
theorem Contents.writeAll_enroll (c : Contents) (phase : Phase) (s : Staker) (tx : StoredTx)
    (status : TxStatus) : c.writeAll [.put phase s, .addTx tx status] =
      (c.updateStakers phase (insert s)).write (.addTx tx status) :=
  congrArg (Contents.write · (.addTx tx status)) (c.write_put phase s)

namespace Ledger

theorem writeAll_append (l : Ledger) (first second : List Write) :
    l.writeAll (first ++ second) = (l.writeAll first).writeAll second :=
  List.foldl_append

/-- The ledger contains `c`, with its staking records in order. -/
def Upholds (l : Ledger) (c : Contents) : Prop :=
  ∃ book, l.Sustains book c ∧ c.Staked book

namespace Upholds

variable {l l' : Ledger} {c : Contents} {w : Write} {writes : List Write} {phase : Phase}
  {s : Staker} {tx : StoredTx} {status : TxStatus} {supernet : EntityId}

theorem shows (h : l.Upholds c) : l.view.Shows c := by
  obtain ⟨book, hsustains, _⟩ := h
  exact hsustains.shows

theorem finite (h : l.Upholds c) (phase : Phase) : (c.stakers phase).Finite := by
  obtain ⟨held, _, hheld⟩ := h.shows.stakers phase
  refine held.finite_toSet.subset fun s hs => ?_
  exact (hheld.mem_iff s).mpr hs

/-! ## What the ledger answers -/

theorem timestamp_eq (h : l.Upholds c) : l.timestamp = c.timestamp := h.shows.timestamp

theorem supply_eq (h : l.Upholds c) (supernet : EntityId) :
    l.supply supernet = c.supply supernet :=
  congrFun h.shows.supply supernet

theorem rewardPool_eq (h : l.Upholds c) (supernet : EntityId) :
    l.rewardPool supernet = c.rewardPool supernet :=
  congrFun h.shows.rewardPool supernet

theorem transformation_eq (h : l.Upholds c) (supernet : EntityId) :
    l.transformation supernet = c.transformation supernet :=
  congrFun h.shows.transformation supernet

theorem tx_eq (h : l.Upholds c) (id : EntityId) : l.tx id = c.tx id := congrFun h.shows.tx id

theorem rewardUtxos_eq (h : l.Upholds c) (stakerTx : EntityId) :
    l.rewardUtxos stakerTx = c.rewardUtxos stakerTx :=
  congrFun h.shows.rewardUtxos stakerTx

theorem validator_eq_ok_iff (h : l.Upholds c) {slot : Slot} {found : Option Staker} :
    l.validator phase slot = .ok found ↔ occupant (c.stakers phase) slot = found := by
  have hread : l.validator phase slot = .ok (occupant (c.stakers phase) slot) :=
    h.shows.validator phase slot
  rw [hread, Except.ok.injEq]

/-- A node has one validator on a supernet, pending or current. -/
theorem one_validator {phase' : Phase} {t : Staker} (h : l.Upholds c) (hs : s ∈ c.stakers phase)
    (ht : t ∈ c.stakers phase') (hsv : s.isValidator = true) (htv : t.isValidator = true)
    (hslot : s.slot = t.slot) : phase = phase' ∧ s = t := by
  obtain ⟨book, hsustains, hstaked⟩ := h
  have hproper := Contains.proper hsustains
  cases phase with
  | pending =>
      cases phase' with
      | pending => exact ⟨rfl, hproper.slots .pending s hs t ht hsv htv hslot⟩
      | current => exact absurd hslot.symm (hstaked.vacant s hs t ht hsv htv)
  | current =>
      cases phase' with
      | pending => exact absurd hslot (hstaked.vacant t ht s hs htv hsv)
      | current => exact ⟨rfl, hproper.slots .current s hs t ht hsv htv hslot⟩

/-! ## Layers -/

theorem opened (h : l.Upholds c) (id : EntityId) :
    (layer l id true (.untouched l.timestamp l.feePool)).Upholds c := by
  obtain ⟨book, hsustains, hstaked⟩ := h
  exact ⟨book, Contains.opened (State.durable_grounding book) hsustains id, hstaked⟩

theorem settled (h : l.Upholds c) (hsettles : Settles l l') : l'.Upholds c := by
  obtain ⟨book, hsustains, hstaked⟩ := h
  exact ⟨book, hsustains.settled hstaked.numbered hsettles, hstaked⟩

/-! ## Writes that leave the stakers alone -/

theorem plain (h : l.Upholds c) (hplain : w.IsPlain) (hnew : c.RegistersNewChain w) :
    (l.write w).Upholds (c.write w) := by
  obtain ⟨book, hsustains, hstaked⟩ := h
  obtain ⟨hstakers, htx, hrewards⟩ := hplain.same c
  have hnext : c.NextOutput w := by
    cases w <;> first | exact trivial | cases hplain
  exact ⟨book, hsustains.write (hplain.allows book c) hnew hnext,
    hstaked.of_same hstakers htx hrewards⟩

theorem plains (h : l.Upholds c)
    (hplain : ∀ w ∈ writes, w.IsPlain ∧ ∀ c : Contents, c.RegistersNewChain w) :
    (l.writeAll writes).Upholds (c.writeAll writes) := by
  induction writes generalizing l c with
  | nil => exact h
  | cons w rest ih =>
      obtain ⟨hfirst, hnew⟩ := hplain w List.mem_cons_self
      exact ih (h.plain hfirst (hnew c)) fun w' hw' => hplain w' (List.mem_cons_of_mem _ hw')

theorem addTx (h : l.Upholds c) (hnone : c.tx tx.id = .ok none) (status : TxStatus) :
    (l.write (.addTx tx status)).Upholds (c.write (.addTx tx status)) := by
  obtain ⟨book, hsustains, hstaked⟩ := h
  exact ⟨book, hsustains.write trivial trivial trivial, hstaked.addTx hnone status⟩

/-! ## Stakers -/

/-- A staker joins a phase, and its transaction is recorded. -/
theorem enroll (h : l.Upholds c) (henrolls : c.Enrolls tx s)
    (hunrewarded : phase = .current → s.priority.isPermissioned = true → s.potentialReward = 0)
    (status : TxStatus) :
    (l.writeAll [.put phase s, .addTx tx status]).Upholds
      (c.writeAll [.put phase s, .addTx tx status]) := by
  obtain ⟨book, hsustains, hstaked⟩ := h
  have hproper := Contains.proper hsustains
  have hstaked' := hstaked.enroll hproper henrolls hunrewarded status
  have hnew := hstaked.new_of_enrolls henrolls phase
  -- The contract asks for a staker that is in the book, so the book takes it in first.
  have hmore : l.Sustains (book.insert phase s hnew) c :=
    hsustains.mono fun phase' t ht => (Book.mem_insert hnew).mpr (Or.inr ht)
  have hput := hmore.write
    (Contents.allows_put ((Book.mem_insert hnew).mpr (Or.inl ⟨rfl, rfl⟩))
      (fun t ht => hnew t (hproper.recorded _ ht)) fun hv => henrolls.free hv phase)
    (Contents.asks_put c phase s).1 (Contents.asks_put c phase s).2
  refine ⟨_, hput.write (w := .addTx tx status) trivial trivial trivial, ?_⟩
  rw [Contents.writeAll_enroll]
  exact hstaked'

/-- A pending staker is promoted. -/
theorem promote (h : l.Upholds c) (hs : s ∈ c.stakers .pending) {reward : UInt64}
    (hreward : s.priority.isPermissioned = true → reward = 0) :
    (l.writeAll (TimeAdvance.promotionWrites ⟨s, s.promoted reward⟩)).Upholds
      (c.writeAll (TimeAdvance.promotionWrites ⟨s, s.promoted reward⟩)) := by
  obtain ⟨book, hsustains, hstaked⟩ := h
  have hproper := Contains.proper hsustains
  have hstaked' := hstaked.promote hproper hs hreward
  have hnew : ∀ t ∈ book.records .current, t.txId ≠ (s.promoted reward).txId :=
    hstaked.unpromoted s hs
  have hmore : l.Sustains (book.insert .current (s.promoted reward) hnew) c :=
    hsustains.mono fun phase' t ht => (Book.mem_insert hnew).mpr (Or.inr ht)
  have hdelete := hmore.write (Contents.allows_delete hs) (Contents.asks_delete c .pending s).1
    (Contents.asks_delete c .pending s).2
  have hafter := Contents.write_delete c .pending s
  -- It is absent from the current set by its transaction, and its slot there is free.
  have hput := hdelete.write (w := .put .current (s.promoted reward))
    (Contents.allows_put ((Book.mem_insert hnew).mpr (Or.inl ⟨rfl, rfl⟩)) (fun t ht => ?_) ?_)
    (Contents.asks_put _ _ _).1 (Contents.asks_put _ _ _).2
  · rw [← Contents.writeAll_promotionWrites] at hstaked'
    rw [TimeAdvance.promotionWrites_eq] at hstaked' ⊢
    exact ⟨_, hput, hstaked'⟩
  · rw [hafter] at ht
    exact hnew t (hproper.recorded _ (Contents.mem_stakers_delete.mp ht).1)
  · intro hv
    rw [Staker.isValidator_promoted] at hv
    refine occupant_eq_none_iff.mpr fun t ht htv => ?_
    rw [hafter] at ht
    exact hstaked.vacant s hs t (Contents.mem_stakers_delete.mp ht).1 hv htv

/-- A current staker retires. -/
theorem retire (h : l.Upholds c) (hs : s ∈ c.stakers .current) :
    (l.write (.delete .current s)).Upholds (c.write (.delete .current s)) := by
  obtain ⟨book, hsustains, hstaked⟩ := h
  refine ⟨book, hsustains.write (Contents.allows_delete hs) (Contents.asks_delete c _ s).1
    (Contents.asks_delete c _ s).2, ?_⟩
  rw [Contents.write_delete]
  exact hstaked.delete .current s

/-- A reward output of a staking transaction is recorded. -/
theorem pay (h : l.Upholds c) {stakerTx : EntityId} (hstakes : c.Stakes stakerTx supernet)
    {utxo : Utxo} {paid : List Utxo} (hpaid : c.rewardUtxos stakerTx = .ok paid)
    (hnext : utxo.id.outputIndex.toNat = paid.length) :
    (l.write (.addRewardUtxo stakerTx utxo)).Upholds (c.write (.addRewardUtxo stakerTx utxo)) := by
  obtain ⟨book, hsustains, hstaked⟩ := h
  exact ⟨book, hsustains.write trivial trivial ⟨paid, hpaid, hnext⟩,
    hstaked.pay hstakes hpaid hnext⟩

end Upholds

end Ledger

end StakingLedger
