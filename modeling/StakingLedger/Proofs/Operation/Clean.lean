import StakingLedger.Proofs.Operation.Reopening

/-! # Roots without uncommitted changes

A root tells whether it has writes that no commit has flushed. The answer comes
from the net diffs, which forget what cancels out. Where it is no, the store
loads as what is in memory, provided that a delegator which is put back while
its deletion waits is put back as it was: the diff cancels the deletion by the
transaction alone and does not compare the records.
-/

namespace StakingLedger

open OrderedMap

/-! ## A registry and the stakers of the last flush -/

/-- The registry holds the stakers `are`, and its diffs lead there from `were`. Each of the two
sets is in order for itself; of the delegators of one slot there is no other record either. -/
structure Registry.Follows (r : Registry) (were are : Set Staker) : Prop where
  holds : r.Holds are
  diffs : r.diffs.Net were are
  slotsBefore : OneValidatorPerSlot were
  slots : OneValidatorPerSlot are
  injOnBefore : were.InjOn Staker.txId
  injOn : are.InjOn Staker.txId
  together : ∀ slot, (delegatorsIn were slot ∪ delegatorsIn are slot).InjOn Staker.txId

namespace Registry.Follows

variable {r : Registry} {were are : Set Staker} {t : Staker}

theorem injOn_insert (h : are.InjOn Staker.txId) (habsent : ∀ u ∈ are, u.txId ≠ t.txId) :
    (insert t are).InjOn Staker.txId := by
  rintro u (rfl | hu) v (rfl | hv) htx
  · rfl
  · exact absurd htx.symm (habsent v hv)
  · exact absurd htx (habsent u hu)
  · exact h hu hv htx

/-- After a flush the stakers in memory are those of the flush. -/
theorem clearDiffs (h : r.Follows were are) : r.clearDiffs.Follows are are where
  holds := h.holds.clearDiffs
  diffs := SlotDiffs.Net.refl are
  slotsBefore := h.slots
  slots := h.slots
  injOnBefore := h.injOn
  injOn := h.injOn
  together slot := by
    rw [Set.union_self]
    exact h.injOn.mono fun u hu => hu.1

theorem putValidator (h : r.Follows were are) (hv : t.isValidator = true)
    (habsent : ∀ u ∈ are, u.txId ≠ t.txId) (hfree : occupant are t.slot = none) :
    (r.putValidator t).Follows were (insert t are) where
  holds := h.holds.putValidator h.slots hv hfree fun u hu htx => absurd htx (habsent u hu)
  diffs := h.diffs.putValidator h.slots hv hfree
  slotsBefore := h.slotsBefore
  slots := h.slots.insert_validator hfree
  injOnBefore := h.injOnBefore
  injOn := injOn_insert h.injOn habsent
  together slot := by
    rw [delegatorsIn_insert_validator hv]
    exact h.together slot

theorem deleteValidator (h : r.Follows were are) (hv : t.isValidator = true) (ht : t ∈ are) :
    (r.deleteValidator t).Follows were (are \ {t}) where
  holds := h.holds.deleteValidator h.slots hv ht
  diffs := h.diffs.deleteValidator h.slots hv ht
  slotsBefore := h.slotsBefore
  slots := h.slots.subset fun u hu => hu.1
  injOnBefore := h.injOnBefore
  injOn := h.injOn.mono fun u hu => hu.1
  together slot := by
    rw [delegatorsIn_diff_validator hv]
    exact h.together slot

/-- Only here the records matter: the deletion of a delegator is cancelled by another record of
its transaction too. -/
theorem putDelegator (h : r.Follows were are) (hd : t.isValidator = false)
    (habsent : ∀ u ∈ are, u.txId ≠ t.txId)
    (hback : ∀ u, (r.diffs.recorded t.slot).deletedDelegators.get? t.txId = some u → u = t) :
    (r.putDelegator t).Follows were (insert t are) := by
  have htx : ∀ u ∈ delegatorsIn were t.slot ∪ delegatorsIn are t.slot, u.txId = t.txId → u = t := by
    rintro u (hu | hu) htx
    · have hgone : u ∈ delegatorsIn were t.slot \ delegatorsIn are t.slot :=
        ⟨hu, fun hare => habsent u hare.1 htx⟩
      have hget := (h.diffs.nets t.slot).deletedDelegators.get?_key hgone
      rw [htx] at hget
      exact hback u hget
    · exact absurd htx (habsent u hu.1)
  have hnot : t ∉ are := fun ht => habsent t ht rfl
  exact {
    holds := h.holds.putDelegator h.slots hd fun u hu htx => absurd htx (habsent u hu)
    diffs := h.diffs.putDelegator h.slots hd htx hnot
    slotsBefore := h.slotsBefore
    slots := h.slots.insert_delegator hd
    injOnBefore := h.injOnBefore
    injOn := injOn_insert h.injOn habsent
    together := fun slot => by
      by_cases heq : slot = t.slot
      · subst heq
        rw [delegatorsIn_insert_self hd, Set.union_insert]
        rintro u (rfl | hu) v (rfl | hv) heq
        · rfl
        · exact (htx v hv heq.symm).symm
        · exact htx u hu heq
        · exact h.together _ hu hv heq
      · rw [delegatorsIn_insert_ne heq]
        exact h.together slot }

theorem deleteDelegator (h : r.Follows were are) (hd : t.isValidator = false) (ht : t ∈ are) :
    (r.deleteDelegator t).Follows were (are \ {t}) where
  holds := h.holds.deleteDelegator h.slots hd ht
  diffs := h.diffs.deleteDelegator h.slots hd
    (fun _ hu htx => h.together t.slot hu (Or.inr ⟨ht, hd, rfl⟩) htx) ht
  slotsBefore := h.slotsBefore
  slots := h.slots.subset fun _ hu => hu.1
  injOnBefore := h.injOnBefore
  injOn := h.injOn.mono fun _ hu => hu.1
  together slot := (h.together slot).mono fun _ hu => hu.imp_right fun hare => ⟨hare.1.1, hare.2⟩

/-- A registry without changes holds what was flushed. -/
theorem eq_of_clean (h : r.Follows were are) (hclean : r.hasChanges = false) : are = were :=
  h.diffs.eq_of_isEmpty h.slotsBefore h.slots (by simpa [Registry.hasChanges] using hclean)

end Registry.Follows

namespace State

variable {s s' : State} {w : Write} {book : Book} {were are : Phase → Set Staker}
  {height : UInt64} {asks : State → Write → Prop}

/-! ## Trails -/

/-- The roots to which writes and commits lead from a genesis in an empty store. The contract of
the staker writes is kept, but its book may be another one for every write: a transaction may come
to denote another record once the one before is deleted. What else is asked of the writes is a
parameter. -/
inductive Trail (asks : State → Write → Prop) : State → Prop
  | genesis {g : Genesis} {config : StakingConfig} {s : State}
    (h : fromGenesis {} g config = .ok s) : Trail asks s
  | written {book : Book} {s : State} {w : Write} (h : Trail asks s)
    (hallowed : (Ledger.root s).view.Allows book w) (hasked : asks s w) : Trail asks (s.write w)
  | committed {s s' : State} {height : UInt64} (h : Trail asks s)
    (hcommit : s.commit height = .ok s') : Trail asks s'

/-- A delegator that is put while a deletion of its transaction waits on its slot is the deleted
one. -/
def PutsBack (s : State) : Write → Prop
  | .putDelegator phase t => ∀ u,
    ((s.registries.get phase).diffs.recorded t.slot).deletedDelegators.get? t.txId = some u → u = t
  | _ => True

/-- The store loads as a root with the figures, balances and stakers that are in memory. -/
def InStore (s : State) : Prop :=
  ∃ loaded, load s.store = .ok loaded ∧ loaded.height = s.height ∧
    loaded.timestamp = s.timestamp ∧ loaded.feePool = s.feePool ∧ loaded.supplies = s.supplies ∧
    loaded.rewardPools = s.rewardPools ∧
    (Ledger.root loaded).view.validator = (Ledger.root s).view.validator ∧
    (Ledger.root loaded).view.delegators = (Ledger.root s).view.delegators ∧
    (Ledger.root loaded).view.stakers = (Ledger.root s).view.stakers

/-! ## What the store has while writes wait -/

/-- The root holds the stakers `are`, and its store has the ledger of the last flush, in which they
were `were`. Time and fees are stored as they are unless they are on record as set. -/
structure Tracked (were are : Phase → Set Staker) (s : State) : Prop where
  registries : ∀ phase, (s.registries.get phase).Follows (were phase) (are phase)
  keyed : s.store.Keyed
  stored : ∀ phase, s.store.KeepsStakers (KeySpace.staker phase) (were phase)
  encoded : ∀ phase, ∀ t ∈ were phase, Codec.fits t = true
  supplies : s.store.KeepsBalances .supply s.unflushed.supplies s.supplies
  rewardPools : s.store.KeepsBalances .rewardPool s.unflushed.rewardPools s.rewardPools
  height : s.store.get? KeySpace.height.bytes = some (wordBytes s.height)
  timestamp : s.unflushed.metadata = false →
    s.store.get? KeySpace.timestamp.bytes = some (wordBytes s.timestamp)
  feePool : s.unflushed.metadata = false →
    s.store.get? KeySpace.feePool.bytes = some (wordBytes s.feePool)

/-- The records that are read, as the ones that wait over the stored ones. -/
def readings (s : State) : Records where
  utxo id := overlaid (s.unflushed.edits.utxos.get? id) (s.persisted.utxo id)
  rewardUtxos stakerTx :=
    (s.persisted.rewardUtxos stakerTx).map (· ++ s.unflushed.edits.heldRewards stakerTx)
  supernet id :=
    overlaid ((s.unflushed.edits.supernets.get? id).map some) (s.persisted.supernet id)
  transformation id :=
    overlaid ((s.unflushed.edits.transformations.get? id).map some) (s.persisted.transformation id)
  chains supernet :=
    (s.persisted.chains supernet).map (·.insertMany (s.unflushed.edits.heldChains supernet).entries)
  tx id := overlaid ((s.unflushed.edits.txs.get? id).map some) (s.persisted.tx id)

/-- A root mirrors the stakers of its registries, whatever its records are. -/
theorem mirrors_readings (hholds : ∀ phase, (s.registries.get phase).Holds (are phase)) :
    s.Mirrors { s.readings with
      timestamp := s.timestamp, feePool := s.feePool, supply := s.supply
      rewardPool := s.rewardPool, stakers := are } where
  timestamp := rfl
  feePool := rfl
  supply := rfl
  rewardPool := rfl
  registries := hholds
  edits := ⟨fun _ => rfl, fun _ => rfl, fun _ => rfl, fun _ => rfl, fun _ => rfl, fun _ => rfl⟩

namespace Tracked

theorem updateRegistry (h : s.Tracked were are) {phase : Phase} {f : Registry → Registry}
    {g : Set Staker → Set Staker}
    (hfollows : (f (s.registries.get phase)).Follows (were phase) (g (are phase))) :
    (s.updateRegistry phase f).Tracked were (Function.update are phase (g (are phase))) where
  __ := h
  registries phase' := by
    change ((s.registries.update phase f).get phase').Follows _ _
    by_cases heq : phase' = phase
    · subst heq
      rw [ByPhase.get_update_self, Function.update_self]
      exact hfollows
    · rw [ByPhase.get_update_ne _ _ heq, Function.update_of_ne heq]
      exact h.registries phase'

theorem write (h : s.Tracked were are) (hallowed : (Ledger.root s).view.Allows book w)
    (hback : s.PutsBack w) : ∃ are', (s.write w).Tracked were are' := by
  have hmirrors := mirrors_readings fun phase => (h.registries phase).holds
  have hallowed := hmirrors.shows.allows hallowed
  cases w with
  | putValidator phase t =>
      obtain ⟨_, hv, habsent, hfree⟩ := hallowed
      exact ⟨_, h.updateRegistry (g := insert t)
        ((h.registries phase).putValidator hv habsent hfree)⟩
  | deleteValidator phase t =>
      exact ⟨_, h.updateRegistry (g := (· \ {t}))
        ((h.registries phase).deleteValidator hallowed.1 hallowed.2)⟩
  | putDelegator phase t =>
      obtain ⟨_, hd, habsent⟩ := hallowed
      exact ⟨_, h.updateRegistry (g := insert t)
        ((h.registries phase).putDelegator hd habsent hback)⟩
  | deleteDelegator phase t =>
      exact ⟨_, h.updateRegistry (g := (· \ {t}))
        ((h.registries phase).deleteDelegator hallowed.1 hallowed.2)⟩
  | setTimestamp time => exact ⟨are, { h with timestamp := nofun, feePool := nofun }⟩
  | setFeePool amount => exact ⟨are, { h with timestamp := nofun, feePool := nofun }⟩
  | setSupply supernet amount =>
      exact ⟨are, { h with supplies := h.supplies.insert supernet amount }⟩
  | setRewardPool supernet amount =>
      exact ⟨are, { h with rewardPools := h.rewardPools.insert supernet amount }⟩
  | _ => exact ⟨are, { h with }⟩

theorem flushed (h : s.Tracked were are) {history : List (Bytes × Bytes)}
    (hflushed : s.Flushed height history s') : s'.Tracked are are := by
  obtain ⟨hheight, htimestamp, hfeePool, _⟩ := hflushed.figures
  exact {
    registries := fun phase => by
      rw [hflushed.registries]
      exact (h.registries phase).clearDiffs
    keyed := hflushed.keyed h.keyed
    stored := fun phase => hflushed.keepsStakers (h.registries phase).diffs
      (h.registries phase).slotsBefore (h.registries phase).slots (h.registries phase).injOnBefore
      (h.registries phase).injOn (h.stored phase)
    encoded := fun phase =>
      hflushed.fits (h.registries phase).diffs (h.registries phase).slots (h.encoded phase)
    supplies := hflushed.keepsSupplies h.supplies
    rewardPools := hflushed.keepsRewardPools h.rewardPools
    height := by rw [hflushed.get?_height, hheight]
    timestamp := fun _ => by rw [hflushed.get?_timestamp, htimestamp]
    feePool := fun _ => by rw [hflushed.get?_feePool, hfeePool] }

theorem of_fromGenesis {g : Genesis} {config : StakingConfig} (h : fromGenesis {} g config = .ok s) :
    ∃ are, s.Tracked are are := by
  obtain ⟨book, hbook⟩ := exists_book_of_fromGenesis h
  obtain ⟨c, hkept⟩ := kept_of_fromGenesis h hbook
  obtain ⟨r⟩ := genesisRecord_of_fromGenesis h
  obtain ⟨history, hflushed⟩ := flushed_of_flush r.flushed
  obtain ⟨hheight, htimestamp, hfeePool, _⟩ := hflushed.figures
  have hdurable := hkept.durable
  have hinjOn : ∀ phase, (c.stakers phase).InjOn Staker.txId := fun phase =>
    (book.injOn phase).mono (hkept.proper.recorded phase)
  have hfollows : ∀ phase,
      (s.registries.get phase).Follows (c.stakers phase) (c.stakers phase) := by
    intro phase
    refine ⟨hdurable.registries phase, hdurable.diffs phase, hdurable.slots phase,
      hkept.proper.slots phase, hinjOn phase, hinjOn phase, fun slot => ?_⟩
    rw [Set.union_self]
    exact (hinjOn phase).mono fun _ hu => hu.1
  exact ⟨c.stakers, {
    registries := hfollows
    keyed := hdurable.keyed
    stored := hdurable.stored
    encoded := hdurable.encoded
    supplies := hdurable.supplies
    rewardPools := hdurable.rewardPools
    height := by rw [hflushed.get?_height, hheight]
    timestamp := fun _ => by rw [hflushed.get?_timestamp, ← htimestamp]
    feePool := fun _ => by rw [hflushed.get?_feePool, ← hfeePool] }⟩

/-- A tracked root in which nothing waits is in its store. -/
theorem inStore (h : s.Tracked were are) (hclean : s.hasUncommittedChanges = false) :
    s.InStore := by
  obtain ⟨hunflushed, hunchanged⟩ := of_clean hclean
  have hsame : are = were := funext fun phase => (h.registries phase).eq_of_clean (hunchanged phase)
  have hmetadata : s.unflushed.metadata = false := congrArg Unflushed.metadata hunflushed
  have hkeptSupplies := h.supplies
  have hkeptPools := h.rewardPools
  rw [hunflushed] at hkeptSupplies hkeptPools
  obtain ⟨registries, hload, hregistries⟩ := load_of_stored h.keyed.listed h.height
    (h.timestamp hmetadata) (h.feePool hmetadata) hkeptSupplies hkeptPools h.stored
    (fun phase => (h.registries phase).slotsBefore) h.encoded
  refine ⟨_, hload, rfl, rfl, rfl, rfl, rfl, ?_⟩
  have hmemory := mirrors_readings fun phase => (h.registries phase).holds
  have hloaded := mirrors_readings (s := {
      store := s.store, height := s.height, timestamp := s.timestamp, feePool := s.feePool
      supplies := s.supplies, rewardPools := s.rewardPools, registries := registries })
    fun phase => (hregistries phase).1
  exact hloaded.shows.same_stakers hmemory.shows hsame.symm

end Tracked

theorem Trail.tracked (h : Trail PutsBack s) : ∃ were are, s.Tracked were are := by
  induction h with
  | genesis h =>
      obtain ⟨are, htracked⟩ := Tracked.of_fromGenesis h
      exact ⟨are, are, htracked⟩
  | written _ hallowed hback ih =>
      obtain ⟨were, are, htracked⟩ := ih
      obtain ⟨are', htracked'⟩ := htracked.write hallowed hback
      exact ⟨were, are', htracked'⟩
  | committed _ hcommit ih =>
      obtain ⟨were, are, htracked⟩ := ih
      obtain ⟨_, hflushed⟩ := flushed_of_flush (flush_of_commit hcommit).1
      exact ⟨are, are, htracked.flushed hflushed⟩

/-- A root that says that it has no uncommitted changes is in its store. -/
theorem inStore_of_clean (h : Trail PutsBack s) (hclean : s.hasUncommittedChanges = false) :
    s.InStore := by
  obtain ⟨were, are, htracked⟩ := h.tracked
  exact htracked.inStore hclean

/-! ## A delegator put back -/

/-- A genesis with one validator, and a delegator to it in the first commit. -/
def soloCommitted : State :=
  match (solo.write (.putDelegator .current soloDelegator)).commit 1 with
  | .ok s => s
  | .error _ => default

theorem commit_solo :
    (solo.write (.putDelegator .current soloDelegator)).commit 1 = .ok soloCommitted := by
  decide +kernel

theorem trail_soloCommitted (hasked : asks solo (.putDelegator .current soloDelegator)) :
    Trail asks soloCommitted := by
  have hput : (Ledger.root solo).view.Allows soloBook (.putDelegator .current soloDelegator) :=
    ⟨Or.inr rfl, by decide +kernel, _, stakers_solo .current, by decide +kernel⟩
  exact .committed (.written (.genesis fromGenesis_solo) hput hasked) commit_solo

/-- The delegator is deleted and another delegator is put. -/
def soloSwapped (t : Staker) : State :=
  (soloCommitted.write (.deleteDelegator .current soloDelegator)).write (.putDelegator .current t)

/-- Whoever delegates to the validator may be put in the place of the delegator. -/
theorem trail_soloSwapped {t : Staker} (hd : t.isValidator = false)
    (habsent : t.txId ≠ (currentStaker soloTx 1).txId)
    (hfirst : asks solo (.putDelegator .current soloDelegator))
    (hdelete : asks soloCommitted (.deleteDelegator .current soloDelegator))
    (hput : asks (soloCommitted.write (.deleteDelegator .current soloDelegator))
      (.putDelegator .current t)) : Trail asks (soloSwapped t) := by
  have hheld : (Ledger.root soloCommitted).view.stakers .current =
      .ok [soloDelegator, currentStaker soloTx 1] := stakers_of_values (by decide +kernel)
  have hleft : (Ledger.root (soloCommitted.write
      (.deleteDelegator .current soloDelegator))).view.stakers .current =
        .ok [currentStaker soloTx 1] := stakers_of_values (by decide +kernel)
  have hdeletes : (Ledger.root soloCommitted).view.Allows soloBook
      (.deleteDelegator .current soloDelegator) :=
    ⟨by decide +kernel, _, hheld, List.mem_cons_self⟩
  -- The book of the last write has its record only.
  have hputs : (Ledger.root (soloCommitted.write
      (.deleteDelegator .current soloDelegator))).view.Allows
        ⟨fun _ => {t}, fun _ => Set.injOn_singleton _ _⟩ (.putDelegator .current t) := by
    refine ⟨rfl, hd, _, hleft, fun u hu => ?_⟩
    rw [List.mem_singleton.mp hu]
    exact Ne.symm habsent
  exact .written (.written (trail_soloCommitted hfirst) hdeletes hdelete) hputs hput

theorem inStore_of_clean_solo : Trail PutsBack (soloSwapped soloDelegator) ∧
    (soloSwapped soloDelegator).hasUncommittedChanges = false ∧
    (soloSwapped soloDelegator).InStore := by
  have hfirst : solo.PutsBack (.putDelegator .current soloDelegator) := by
    intro u hget
    have hnone : (solo.registries.current.diffs.recorded
        soloDelegator.slot).deletedDelegators.get? soloDelegator.txId = none := by
      decide +kernel
    cases hnone.symm.trans hget
  have hback : (soloCommitted.write (.deleteDelegator .current soloDelegator)).PutsBack
      (.putDelegator .current soloDelegator) := by
    intro u hget
    have hdeleted : ((soloCommitted.write
        (.deleteDelegator .current soloDelegator)).registries.current.diffs.recorded
          soloDelegator.slot).deletedDelegators.get? soloDelegator.txId = some soloDelegator := by
      decide +kernel
    exact Option.some.inj (hget.symm.trans hdeleted)
  have htrail : Trail PutsBack (soloSwapped soloDelegator) :=
    trail_soloSwapped (by decide +kernel) (by decide +kernel) hfirst trivial hback
  have hclean : (soloSwapped soloDelegator).hasUncommittedChanges = false := by decide +kernel
  exact ⟨htrail, hclean, inStore_of_clean htrail hclean⟩

/-- The delegator with another weight. -/
def heavierDelegator : Staker := { soloDelegator with weight := 200 }

/-- A delegator of another weight is put under the transaction of the deleted one. The root says
that it has no uncommitted changes, and its store loads with the old weight. -/
theorem clean_not_inStore : Trail (fun _ _ => True) (soloSwapped heavierDelegator) ∧
    (soloSwapped heavierDelegator).hasUncommittedChanges = false ∧
    ¬ (soloSwapped heavierDelegator).InStore := by
  refine ⟨trail_soloSwapped (by decide +kernel) (by decide +kernel) trivial trivial trivial,
    by decide +kernel, ?_⟩
  rintro ⟨loaded, hload, _, _, _, _, _, _, _, hsame⟩
  have hstored : (load (soloSwapped heavierDelegator).store).map
      (fun s => s.registries.current.stakers.values) =
        .ok [soloDelegator, currentStaker soloTx 1] := by
    decide +kernel
  rw [hload] at hstored
  have hmemory : (Ledger.root (soloSwapped heavierDelegator)).view.stakers .current =
      .ok [heavierDelegator, currentStaker soloTx 1] := stakers_of_values (by decide +kernel)
  rw [← congrFun hsame .current, @stakers_of_values loaded .current _ (Except.ok.inj hstored),
    Except.ok.injEq] at hmemory
  exact absurd hmemory (by decide +kernel)

end State

end StakingLedger
