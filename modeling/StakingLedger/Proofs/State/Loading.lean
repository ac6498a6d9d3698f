import StakingLedger.Proofs.State.Content
import StakingLedger.Proofs.State.Flushing
import StakingLedger.Proofs.Store.KeyLayout
import StakingLedger.Proofs.Store.Scan
import StakingLedger.State.Open

/-! # What a loaded root contains

Whatever a store holds, a root that loads from it has registries that agree
with plain sets of stakers: stakers of different keys have different
transactions, and of two validators of a slot the one of the later key stays.
-/

namespace StakingLedger

namespace State

theorem key_of_loadStaker {space : KeySpace} {key value : Bytes} {s : Staker}
    (h : loadStaker space key value = .ok s) : key = space.idKey s.txId := by
  obtain ⟨txId, hkey, h⟩ := bind_eq_ok_iff.mp h
  obtain ⟨staker, _, h⟩ := bind_eq_ok_iff.mp h
  split at h
  · cases h
  next hsame =>
    cases h
    rw [not_not.mp hsame]
    exact Key.parseId_eq_ok_iff.mp hkey

/-- Puts one stored staker into a registry. -/
def loadStep (space : KeySpace) (r : Registry) (entry : Bytes × Bytes) : Answer Registry := do
  let staker ← loadStaker space entry.1 entry.2
  return r.put staker

theorem holds_of_loadSteps {space : KeySpace} {entries : List (Bytes × Bytes)} {r r' : Registry}
    {members : Set Staker} (hsorted : Store.Ascending entries) (h : r.Holds members)
    (hone : OneValidatorPerSlot members)
    (hother : ∀ s ∈ members, ∀ e ∈ entries, e.1 ≠ space.idKey s.txId)
    (hload : entries.foldlM (loadStep space) r = .ok r') :
    ∃ members', r'.Holds members' ∧ OneValidatorPerSlot members' ∧
      ∀ s ∈ members', s ∈ members ∨ ∃ e ∈ entries, loadStaker space e.1 e.2 = .ok s := by
  -- Keys ascend, so no entry to come is of a transaction that is loaded already.
  induction entries generalizing r members with
  | nil =>
      cases hload
      exact ⟨members, h, hone, fun _ hs => Or.inl hs⟩
  | cons e rest ih =>
      obtain ⟨hhead, htail⟩ := List.pairwise_cons.mp hsorted
      obtain ⟨r₁, hstep, hrest⟩ := bind_eq_ok_iff.mp hload
      obtain ⟨s, hs, hput⟩ := bind_eq_ok_iff.mp hstep
      cases hput
      have hkey := key_of_loadStaker hs
      obtain ⟨members₁, h₁, hone₁, hsub⟩ := h.put (s := s) hone fun t ht htx =>
        hother t ht e List.mem_cons_self (by rw [hkey, htx])
      obtain ⟨members', h', hone', hread⟩ := ih htail h₁ hone₁ (fun t ht e' he' => by
        rcases hsub ht with rfl | ht
        · rw [← hkey]
          exact (OrderedMap.ne_of_compare_lt (hhead e' he')).symm
        · exact hother t ht e' (List.mem_cons_of_mem _ he')) hrest
      refine ⟨members', h', hone', fun t ht => ?_⟩
      rcases hread t ht with ht | ⟨e', he', hload'⟩
      · rcases hsub ht with rfl | ht
        · exact Or.inr ⟨e, List.mem_cons_self, hs⟩
        · exact Or.inl ht
      · exact Or.inr ⟨e', List.mem_cons_of_mem _ he', hload'⟩

/-- A registry is loaded entry by entry. -/
theorem loadSteps_of_loadRegistry {store : Store} {space : KeySpace} {r : Registry}
    (h : loadRegistry store space = .ok r) :
    ∃ r', (store.scan space.bytes).foldlM (loadStep space) {} = .ok r' ∧ r = r'.clearDiffs := by
  obtain ⟨r', hfold, hr⟩ := bind_eq_ok_iff.mp h
  exact ⟨r', hfold, (Except.ok.inj hr).symm⟩

theorem holds_of_loadRegistry {store : Store} {space : KeySpace} {r : Registry}
    (h : loadRegistry store space = .ok r) :
    ∃ members, r.Holds members ∧ OneValidatorPerSlot members ∧
      ∀ s ∈ members, ∃ e ∈ store.scan space.bytes, loadStaker space e.1 e.2 = .ok s := by
  obtain ⟨r', hfold, rfl⟩ := loadSteps_of_loadRegistry h
  obtain ⟨members, hholds, hone, hread⟩ := holds_of_loadSteps (store.scan_ascending space.bytes)
    Registry.Holds.empty (fun s hs => absurd hs (Set.notMem_empty s))
    (fun s hs => absurd hs (Set.notMem_empty s)) hfold
  exact ⟨members, hholds.clearDiffs, hone, fun s hs =>
    (hread s hs).resolve_left (Set.notMem_empty s)⟩

/-- Every entry that is loaded is read as a staker. -/
theorem exists_loadStaker_of_loadSteps {space : KeySpace} {entries : List (Bytes × Bytes)}
    {r r' : Registry} (h : entries.foldlM (loadStep space) r = .ok r') :
    ∀ e ∈ entries, ∃ s, loadStaker space e.1 e.2 = .ok s := by
  induction entries generalizing r with
  | nil => exact fun e he => absurd he List.not_mem_nil
  | cons e rest ih =>
      obtain ⟨r₁, hstep, hrest⟩ := bind_eq_ok_iff.mp h
      obtain ⟨s, hs, _⟩ := bind_eq_ok_iff.mp hstep
      intro e' he'
      rcases List.mem_cons.mp he' with rfl | he'
      · exact ⟨s, hs⟩
      · exact ih hrest e' he'

theorem tidy_of_loadSteps {space : KeySpace} {entries : List (Bytes × Bytes)} {r r' : Registry}
    (hr : r.Tidy) (h : entries.foldlM (loadStep space) r = .ok r') : r'.Tidy := by
  refine foldlM_keeps Registry.Tidy (fun hstep hr => ?_) h hr
  obtain ⟨s, _, hput⟩ := bind_eq_ok_iff.mp hstep
  cases hput
  exact hr.put s

theorem tidy_of_loadRegistry {store : Store} {space : KeySpace} {r : Registry}
    (h : loadRegistry store space = .ok r) : r.Tidy ∧ r.diffs = .empty := by
  obtain ⟨r', hfold, rfl⟩ := loadSteps_of_loadRegistry h
  exact ⟨(tidy_of_loadSteps Registry.Tidy.empty hfold).clearDiffs, rfl⟩

/-! ## The whole root -/

/-- What a store has that loads as the root. -/
structure Loads (store : Store) (s : State) : Prop where
  store_eq : s.store = store
  height : store.get? KeySpace.height.bytes = some (wordBytes s.height)
  timestamp : store.get? KeySpace.timestamp.bytes = some (wordBytes s.timestamp)
  feePool : store.get? KeySpace.feePool.bytes = some (wordBytes s.feePool)
  supplies : loadBalances store .supply = .ok s.supplies
  rewardPools : loadBalances store .rewardPool = .ok s.rewardPools
  registries : ∀ phase, loadRegistry store (KeySpace.staker phase) = .ok (s.registries.get phase)
  unflushed : s.unflushed = {}

theorem readWord_eq_ok_iff {store : Store} {space : KeySpace} {n : UInt64} :
    readWord store space = .ok n ↔ store.get? space.bytes = some (wordBytes n) := by
  unfold readWord
  cases store.get? space.bytes with
  | none => exact iff_of_false nofun nofun
  | some bytes => rw [Key.decodeWord_eq_ok_iff, Option.some.injEq]

theorem load_eq_ok_iff {store : Store} {s : State} : load store = .ok s ↔ Loads store s := by
  constructor
  · intro h
    obtain ⟨stored, hstored, h⟩ := bind_eq_ok_iff.mp h
    obtain ⟨height, hheight, h⟩ := bind_eq_ok_iff.mp h
    obtain ⟨timestamp, htimestamp, h⟩ := bind_eq_ok_iff.mp h
    obtain ⟨feePool, hfeePool, h⟩ := bind_eq_ok_iff.mp h
    obtain ⟨supplies, hsupplies, h⟩ := bind_eq_ok_iff.mp h
    obtain ⟨rewardPools, hrewardPools, h⟩ := bind_eq_ok_iff.mp h
    obtain ⟨current, hcurrent, h⟩ := bind_eq_ok_iff.mp h
    obtain ⟨pending, hpending, h⟩ := bind_eq_ok_iff.mp h
    cases h
    refine ⟨rfl, ?_, readWord_eq_ok_iff.mp htimestamp, readWord_eq_ok_iff.mp hfeePool, hsupplies,
      hrewardPools, fun phase => ?_, rfl⟩
    · rw [orNotFound_eq_ok_iff.mp hstored, Key.decodeWord_eq_ok_iff.mp hheight]
    · cases phase with
      | current => exact hcurrent
      | pending => exact hpending
  · rintro ⟨rfl, hheight, htimestamp, hfeePool, hsupplies, hrewardPools, hregistries, hunflushed⟩
    have hcurrent : loadRegistry s.store .currentStaker = .ok s.registries.current :=
      hregistries .current
    have hpending : loadRegistry s.store .pendingStaker = .ok s.registries.pending :=
      hregistries .pending
    unfold load
    rw [orNotFound_eq_ok_iff.mpr hheight, bind_ok, Key.decodeWord_wordBytes, bind_ok,
      readWord_eq_ok_iff.mpr htimestamp, bind_ok, readWord_eq_ok_iff.mpr hfeePool, bind_ok,
      hsupplies, bind_ok, hrewardPools, bind_ok, hcurrent, bind_ok, hpending, bind_ok]
    obtain ⟨_, _, _, _, _, _, _, _⟩ := s
    cases hunflushed
    rfl

/-- Nothing is uncommitted in a root that was loaded. -/
theorem clean_of_load {store : Store} (h : load store = .ok s) :
    s.hasUncommittedChanges = false := by
  have hloads := load_eq_ok_iff.mp h
  have hcurrent : s.registries.current.diffs = .empty :=
    (tidy_of_loadRegistry (hloads.registries .current)).2
  have hpending : s.registries.pending.diffs = .empty :=
    (tidy_of_loadRegistry (hloads.registries .pending)).2
  unfold hasUncommittedChanges Registry.hasChanges
  rw [hloads.unflushed, hcurrent, hpending]
  rfl

/-! ## Roots without waiting writes -/

theorem persisted_chains_filed (s : State) {supernet : EntityId}
    {held : OrderedMap EntityId ChainRecord} (h : s.persisted.chains supernet = .ok held)
    (id : EntityId) (chain : ChainRecord) (hget : held.get? id = some chain) : chain.id = id := by
  obtain ⟨found, _, rfl⟩ := map_eq_ok_iff.mp h
  rw [OrderedMap.ofList, OrderedMap.get?_insertMany, OrderedMap.get?_empty, Option.or_none] at hget
  obtain ⟨c, _, hc⟩ := List.mem_map.mp (OrderedMap.mem_of_lastValue?_eq_some hget)
  cases hc
  rfl

/-- The contents of a root in which no record write waits. -/
def settled (s : State) (stakers : Phase → Set Staker) : Contents where
  toRecords := s.persisted
  timestamp := s.timestamp
  feePool := s.feePool
  supply := s.supply
  rewardPool := s.rewardPool
  stakers := stakers

theorem mirrors_settled {s : State} (stakers : Phase → Set Staker)
    (hholds : ∀ phase, (s.registries.get phase).Holds (stakers phase))
    (hedits : s.unflushed.edits = {}) : s.Mirrors (s.settled stakers) where
  timestamp := rfl
  feePool := rfl
  supply := rfl
  rewardPool := rfl
  registries := hholds
  edits := by
    rw [hedits]
    exact RecordEdits.Carries.refl _

/-- A flush keeps the registries and leaves nothing waiting. -/
theorem registries_of_flush {s s' : State} {height : UInt64} (h : s.flush height = .ok s') :
    (∀ phase, s'.registries.get phase = (s.registries.get phase).clearDiffs) ∧
      s'.unflushed = {} := by
  obtain ⟨_, hflushed⟩ := flushed_of_flush h
  exact ⟨hflushed.registries, hflushed.unflushed⟩

theorem registries_of_load {store : Store} {s : State} (h : load store = .ok s) :
    (∀ phase, ∃ members, (s.registries.get phase).Holds members ∧ OneValidatorPerSlot members) ∧
      s.unflushed.edits = {} := by
  have hloads := load_eq_ok_iff.mp h
  refine ⟨fun phase => ?_, congrArg Unflushed.edits hloads.unflushed⟩
  obtain ⟨members, hholds, hone, _⟩ := holds_of_loadRegistry (hloads.registries phase)
  exact ⟨members, hholds, hone⟩

end State

end StakingLedger
