import StakingLedger.Proofs.Codec.Canonical
import StakingLedger.Proofs.State.Reload

/-! # Roots that their store restores

A store may come from anywhere: of the records that are read through it nothing
need be known for its ledger to be loaded. What a root in memory has of such a
store are the figures, the balances and the stakers. A root that a store loads as
is based on it, allowed writes keep it based, and the store of a flush loads as
just the root that the flush leaves.
-/

namespace StakingLedger

open OrderedMap

namespace State

variable {s s' : State} {w : Write} {book : Book} {were : Phase → Set Staker} {c : Contents}
  {height : UInt64} {history : List (Bytes × Bytes)} {space : KeySpace}

/-- The root holds the contents, and its store has the balances and stakers of the last commit, in
which the stakers were `were`. -/
structure Based (were : Phase → Set Staker) (s : State) (c : Contents) : Prop
    extends s.Mirrors c where
  tidy : ∀ phase, (s.registries.get phase).Tidy
  keyed : ∀ space : KeySpace, space.isListed = true → s.store.IdKeyed space
  supplies : s.store.KeepsBalances .supply s.unflushed.supplies s.supplies
  rewardPools : s.store.KeepsBalances .rewardPool s.unflushed.rewardPools s.rewardPools
  diffs : ∀ phase, (s.registries.get phase).diffs.Net (were phase) (c.stakers phase)
  stored : ∀ phase, s.store.KeepsStakers (KeySpace.staker phase) (were phase)

/-! ## Writes -/

/-- No write leaves an empty slot behind. -/
theorem tidy_write (h : ∀ phase, (s.registries.get phase).Tidy) (w : Write) (phase : Phase) :
    ((s.write w).registries.get phase).Tidy := by
  have hupdate : ∀ (phase' : Phase) (f : Registry → Registry), (∀ r : Registry, r.Tidy → (f r).Tidy) →
      ((s.registries.update phase' f).get phase).Tidy := by
    intro phase' f hf
    by_cases heq : phase = phase'
    · rw [heq, ByPhase.get_update_self]
      exact hf _ (h phase')
    · rw [ByPhase.get_update_ne _ _ heq]
      exact h phase
  cases w with
  | putValidator phase' t => exact hupdate phase' _ fun _ hr => hr.putValidator t
  | deleteValidator phase' t => exact hupdate phase' _ fun _ hr => hr.deleteValidator t
  | putDelegator phase' t => exact hupdate phase' _ fun _ hr => hr.putDelegator t
  | deleteDelegator phase' t => exact hupdate phase' _ fun _ hr => hr.deleteDelegator t
  | _ => exact h phase

theorem Based.write (h : s.Based were c) (hrecorded : ∀ phase, were phase ⊆ book.records phase)
    (hproper : c.Proper book) (hallowed : c.Allows book w) :
    (s.write w).Based were (c.write w) := by
  have hmirrors := h.toMirrors.write hproper hallowed
  have htidy := tidy_write h.tidy w
  have hdiffs := diffs_write hproper hrecorded h.diffs hallowed
  cases w with
  | setSupply supernet amount =>
      exact { h with toMirrors := hmirrors, supplies := h.supplies.insert supernet amount }
  | setRewardPool supernet amount =>
      exact { h with toMirrors := hmirrors, rewardPools := h.rewardPools.insert supernet amount }
  | _ => exact { h with toMirrors := hmirrors, tidy := htidy, diffs := hdiffs }

/-- Roots that are based on their store are a sound ground for layers. -/
theorem based_grounding (hrecorded : ∀ phase, were phase ⊆ book.records phase) :
    Grounding book (fun _ _ => True) (fun s c => s.Based were c) where
  shows _ _ h := h.toMirrors.shows
  write _ _ _ h hproper hallowed _ := h.write hrecorded hproper hallowed

/-! ## Flushes -/

namespace Based

/-- After a flush the root is based on the store with the stakers that it holds. -/
theorem of_flushed (h : s.Based were c) (hrecorded : ∀ phase, were phase ⊆ book.records phase)
    (hslots : ∀ phase, OneValidatorPerSlot (were phase)) (hproper : c.Proper book)
    (hflushed : s.Flushed height history s') : s'.Based c.stakers (s'.settled c.stakers) := by
  have hholds : ∀ phase, (s'.registries.get phase).Holds (c.stakers phase) := by
    intro phase
    rw [hflushed.registries]
    exact (h.registries phase).clearDiffs
  exact {
    toMirrors := mirrors_settled c.stakers hholds (congrArg Unflushed.edits hflushed.unflushed)
    tidy := fun phase => by
      rw [hflushed.registries]
      exact (h.tidy phase).clearDiffs
    keyed := fun space hlisted =>
      hflushed.idKeyed (KeySpace.width_of_isListed hlisted) (h.keyed space hlisted)
    supplies := hflushed.keepsSupplies h.supplies
    rewardPools := hflushed.keepsRewardPools h.rewardPools
    diffs := fun phase => by
      rw [hflushed.registries]
      exact SlotDiffs.Net.refl _
    stored := fun phase => hflushed.keepsStakers (h.diffs phase) (hslots phase)
      (hproper.slots phase) ((book.injOn phase).mono (hrecorded phase))
      ((book.injOn phase).mono (hproper.recorded phase)) (h.stored phase) }

end Based

/-- A root that its store restores: it holds just the stakers that are stored, and the store loads
as the root. -/
structure Restored (s : State) (members : Phase → Set Staker) : Prop where
  based : s.Based members (s.settled members)
  loads : load s.store = .ok s

/-- The store of a flush loads as just the root that the flush leaves. -/
theorem Based.restored_of_flushed (h : s.Based were c)
    (hrecorded : ∀ phase, were phase ⊆ book.records phase)
    (hslots : ∀ phase, OneValidatorPerSlot (were phase)) (hproper : c.Proper book)
    (hencoded : ∀ phase, ∀ t ∈ c.stakers phase, Codec.fits t = true)
    (hflushed : s.Flushed height history s') : s'.Restored c.stakers := by
  have hbased := h.of_flushed hrecorded hslots hproper hflushed
  refine ⟨hbased, ?_⟩
  obtain ⟨hheight, htimestamp, hfeePool, _, _⟩ := hflushed.figures
  have hsupplies := hbased.supplies
  have hrewardPools := hbased.rewardPools
  rw [hflushed.unflushed] at hsupplies hrewardPools
  obtain ⟨registries, hload, hregistries⟩ := load_of_stored hbased.keyed hflushed.get?_height
    hflushed.get?_timestamp hflushed.get?_feePool hsupplies hrewardPools hbased.stored
    hproper.slots hencoded
  -- Registries without empty slots are told by the stakers that they hold.
  have hsame : ∀ phase, registries.get phase = s'.registries.get phase := by
    intro phase
    have hloaded := (load_eq_ok_iff.mp hload).registries phase
    refine (tidy_of_loadRegistry hloaded).1.eq_of_holds (hbased.tidy phase) (hregistries phase).1
      (hbased.registries phase) ?_
    rw [(hregistries phase).2, hflushed.registries]
    rfl
  have hregistries : registries = s'.registries := by
    have hcurrent := hsame .current
    have hpending := hsame .pending
    generalize s'.registries = registries' at hcurrent hpending
    cases registries
    cases registries'
    cases hcurrent
    cases hpending
    rfl
  rw [hload, hregistries, ← hheight, ← htimestamp, ← hfeePool]
  have hunflushed := hflushed.unflushed
  generalize s' = after at hunflushed
  cases after
  cases hunflushed
  rfl

/-! ## What is loaded -/

theorem value_of_loadStaker {key value : Bytes} {t : Staker}
    (h : loadStaker space key value = .ok t) : value = toCanonical t ∧ Codec.fits t = true := by
  obtain ⟨txId, _, h⟩ := bind_eq_ok_iff.mp h
  obtain ⟨read, hread, h⟩ := bind_eq_ok_iff.mp h
  split at h
  · cases h
  · cases h
    exact eq_toCanonical_of_ofCanonical hread

theorem idKeyed_of_loadRegistry {store : Store} {r : Registry}
    (h : loadRegistry store space = .ok r) : store.IdKeyed space := by
  obtain ⟨_, hsteps, _⟩ := loadSteps_of_loadRegistry h
  intro key value hget hlead
  obtain ⟨t, ht⟩ := exists_loadStaker_of_loadSteps hsteps (key, value)
    (Store.mem_scan.mpr ⟨hget, hlead⟩)
  exact ⟨t.txId, key_of_loadStaker ht⟩

/-- No staker record of the store is hidden: each is the record of a staker that the root holds. -/
def HidesNoRecord (s : State) : Prop :=
  ∀ phase, ∀ e ∈ s.store.scan (KeySpace.staker phase).bytes,
    ∃ t ∈ (s.registries.get phase).all.toList, e.1 = (KeySpace.staker phase).idKey t.txId

/-- A store keeps the stakers that are read from it if they are read from all of its entries. -/
theorem keepsStakers_of_read {store : Store} {members : Set Staker}
    (hread : ∀ t ∈ members, ∃ e ∈ store.scan space.bytes, loadStaker space e.1 e.2 = .ok t)
    (hall : ∀ e ∈ store.scan space.bytes, ∃ t ∈ members, e.1 = space.idKey t.txId) :
    store.KeepsStakers space members := by
  have hget : ∀ t ∈ members, store.get? (space.idKey t.txId) = some (toCanonical t) := by
    intro t ht
    obtain ⟨⟨key, value⟩, he, hload⟩ := hread t ht
    rw [← key_of_loadStaker hload, ← (value_of_loadStaker hload).1]
    exact (Store.mem_scan.mp he).1
  intro id value
  constructor
  · intro hvalue
    obtain ⟨t, ht, hkey⟩ := hall (space.idKey id, value)
      (Store.mem_scan.mpr ⟨hvalue, List.prefix_append _ _⟩)
    obtain rfl := KeySpace.idKey_inj.mp hkey
    rw [hget t ht] at hvalue
    exact ⟨t, ht, rfl, (Option.some.inj hvalue).symm⟩
  · rintro ⟨t, ht, rfl, rfl⟩
    exact hget t ht

/-- A root that its store loads as is restored, unless a record of the store is hidden. -/
theorem restored_of_load (h : load s.store = .ok s) (hshown : s.HidesNoRecord) :
    ∃ members, s.Restored members ∧ (∀ phase, OneValidatorPerSlot (members phase)) ∧
      ∀ phase, ∀ t ∈ members phase, Codec.fits t = true := by
  have hloads := load_eq_ok_iff.mp h
  have hmembers := fun phase => holds_of_loadRegistry (hloads.registries phase)
  choose members hholds hslots hread using hmembers
  have hsupplies := loadBalances_eq_ok_iff.mp hloads.supplies
  have hrewardPools := loadBalances_eq_ok_iff.mp hloads.rewardPools
  have hregistries := fun phase => tidy_of_loadRegistry (hloads.registries phase)
  refine ⟨members, ⟨{
    toMirrors := mirrors_settled members hholds (congrArg Unflushed.edits hloads.unflushed)
    tidy := fun phase => (hregistries phase).1
    keyed := fun space hlisted => ?_
    supplies := ?_
    rewardPools := ?_
    diffs := fun phase => ?_
    stored := fun phase => keepsStakers_of_read (hread phase) fun e he => ?_ }, h⟩, hslots,
    fun phase t ht => ?_⟩
  · cases space with
    | supply => exact hsupplies.1
    | rewardPool => exact hrewardPools.1
    | currentStaker => exact idKeyed_of_loadRegistry (hloads.registries .current)
    | pendingStaker => exact idKeyed_of_loadRegistry (hloads.registries .pending)
    | _ => cases hlisted
  · rw [hloads.unflushed]
    exact hsupplies.2
  · rw [hloads.unflushed]
    exact hrewardPools.2
  · rw [(hregistries phase).2]
    exact SlotDiffs.Net.refl _
  · obtain ⟨t, ht, hkey⟩ := hshown phase e he
    exact ⟨t, ((hholds phase).enumerates_all.mem_iff t).mp ht, hkey⟩
  · obtain ⟨e, _, hload⟩ := hread phase t ht
    exact (value_of_loadStaker hload).2

end State

end StakingLedger
