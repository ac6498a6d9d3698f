import Mathlib.Algebra.Ring.Int.Defs
import Mathlib.Data.List.Nodup
import StakingLedger.Proofs.Funding
import StakingLedger.Proofs.State.Loading

/-! # What a genesis writes

A genesis that is accepted is a series of writes on an empty root: each of its
validators is placed in the current set with a funded reward and recorded, then
come the balances, outputs and chains. The validators were checked to be told
apart by node and by transaction, so the series keeps to the contract.
-/

namespace StakingLedger

variable {curve : RewardConfig} {tx : StakerTx} {s : Staker}

/-! ## Placing validators -/

/-- The current staker of a transaction with a given reward. -/
def currentStaker (tx : StakerTx) (reward : UInt64) : Staker where
  txId := tx.txId
  nodeId := tx.nodeId
  publicKey := tx.publicKey
  supernetId := tx.supernetId
  weight := tx.weight
  startTime := tx.startTime
  endTime := tx.endTime
  potentialReward := reward
  nextTime := tx.endTime
  priority := .current tx.kind

theorem eq_currentStaker {reward : UInt64} (h : Staker.newCurrent tx reward = .ok s) :
    s = currentStaker tx reward := by
  obtain ⟨_, _, h⟩ := bind_eq_ok_iff.mp h
  cases h
  rfl

/-- A genesis validator with the reward that was funded for it. -/
structure Placement where
  tx : StakerTx
  reward : UInt64

namespace Placement

def staker (p : Placement) : Staker := currentStaker p.tx p.reward

/-- The writes that place a validator and record its transaction. -/
def writes (p : Placement) : List Write :=
  [.putValidator .current p.staker, .addTx ⟨p.tx.txId, .addStaker p.tx⟩ .committed]

end Placement

namespace State

/-- The rewards of the placed validators, together. -/
def placedRewards (placed : List Placement) : Int :=
  (placed.map fun p => (p.reward.toNat : Int)).sum

/-- Placing validators one by one is a series of writes, and the balances pay for the rewards. -/
theorem placements_of_foldlM {validators : List StakerTx} {p p' : GenesisProgress}
    (h : validators.foldlM (addGenesisValidator curve) p = .ok p') :
    ∃ placed : List Placement, placed.map Placement.tx = validators ∧
      p'.state = p.state.writeAll (placed.flatMap Placement.writes) ∧
      (p'.supply.toNat : Int) - p'.pool.toNat - placedRewards placed =
        p.supply.toNat - p.pool.toNat := by
  -- The supply less the pool grows with each validator by just its reward.
  induction validators generalizing p with
  | nil =>
      cases h
      exact ⟨[], rfl, rfl, by simp [placedRewards]⟩
  | cons tx rest ih =>
      obtain ⟨p₁, hstep, hrest⟩ := bind_eq_ok_iff.mp h
      obtain ⟨calculated, _, hstep⟩ := bind_eq_ok_iff.mp hstep
      obtain ⟨funding, hfunding, hstep⟩ := bind_eq_ok_iff.mp hstep
      obtain ⟨staker, hstaker, hstep⟩ := bind_eq_ok_iff.mp hstep
      cases hstep
      obtain ⟨placed, htxs, hstate, hbalance⟩ := ih hrest
      have heq := eq_currentStaker hstaker
      have hfunded := fundReward_conserves hfunding
      refine ⟨⟨tx, funding.reward⟩ :: placed, by simp [htxs], ?_, ?_⟩
      · rw [hstate, heq]
        rfl
      · simp only [placedRewards, List.map_cons, List.sum_cons] at hbalance ⊢
        omega

/-! ## The checks -/

/-- What the checks of a genesis say about its validators. -/
structure CheckedValidators (timestamp : UInt64) (seen validators : List StakerTx) : Prop where
  kind : ∀ v ∈ validators, v.kind = .primaryValidator ∧ v.supernetId = .primaryNetwork
  window : ∀ v ∈ validators, v.startTime = timestamp ∧ v.startTime < v.endTime
  apart : validators.Pairwise fun u v => u.nodeId ≠ v.nodeId ∧ u.txId ≠ v.txId
  unseen : ∀ u ∈ seen, ∀ v ∈ validators, u.nodeId ≠ v.nodeId ∧ u.txId ≠ v.txId

/-- What the checks of one validator let pass. -/
theorem of_checkValidators_cons {timestamp : UInt64} {seen rest : List StakerTx} {v : StakerTx}
    (h : Genesis.checkValidators timestamp seen (v :: rest) = .ok ()) :
    (v.kind = .primaryValidator ∧ v.supernetId = .primaryNetwork) ∧
      (v.startTime = timestamp ∧ v.startTime < v.endTime) ∧
      (∀ u ∈ seen, u.nodeId ≠ v.nodeId ∧ u.txId ≠ v.txId) ∧
      Genesis.checkValidators timestamp (v :: seen) rest = .ok () := by
  unfold Genesis.checkValidators at h
  dsimp only at h
  split at h
  · cases h
  next hkind =>
  split at h
  · cases h
  next hstart =>
  split at h
  · cases h
  next hempty =>
  split at h
  · cases h
  next hunseen =>
  simp only [not_or, ne_eq, not_not, EntityId.isPrimaryNetwork, beq_iff_eq] at hkind
  refine ⟨hkind, ⟨not_not.mp hstart, UInt64.not_le.mp hempty⟩, fun u hu => ?_, h⟩
  have hnot : ¬ (u.nodeId == v.nodeId || u.txId == v.txId) = true :=
    fun htrue => mt List.any_eq_true.mpr hunseen ⟨u, hu, htrue⟩
  simpa [not_or] using hnot

theorem checked_of_checkValidators {timestamp : UInt64} {seen validators : List StakerTx}
    (h : Genesis.checkValidators timestamp seen validators = .ok ()) :
    CheckedValidators timestamp seen validators := by
  -- Every validator that was checked is among those seen when the next one is.
  induction validators generalizing seen with
  | nil => exact ⟨by simp, by simp, .nil, by simp⟩
  | cons v rest ih =>
      obtain ⟨hkind, hwindow, hnew, hrest⟩ := of_checkValidators_cons h
      have hrest := ih hrest
      exact {
        kind := List.forall_mem_cons.mpr ⟨hkind, hrest.kind⟩
        window := List.forall_mem_cons.mpr ⟨hwindow, hrest.window⟩
        apart := List.pairwise_cons.mpr ⟨hrest.unseen v List.mem_cons_self, hrest.apart⟩
        unseen := fun u hu => List.forall_mem_cons.mpr
          ⟨hnew u hu, hrest.unseen u (List.mem_cons_of_mem _ hu)⟩ }

/-! ## The whole genesis -/

/-- Everything that a genesis writes. -/
def genesisWrites (g : Genesis) (placed : List Placement) (supply pool : UInt64) : List Write :=
  [.setTimestamp g.timestamp, .setFeePool 0] ++ placed.flatMap Placement.writes ++
    [.setSupply .primaryNetwork supply, .setRewardPool .primaryNetwork pool] ++
    g.utxos.map .addUtxo ++ g.chains.map .addChain

/-- How a genesis came about: what it placed, and the root before its flush. -/
structure GenesisRecord (store : Store) (g : Genesis) (s : State) where
  placed : List Placement
  supply : UInt64
  pool : UInt64
  txs : placed.map Placement.tx = g.validators
  checked : CheckedValidators g.timestamp [] g.validators
  absent : store.get? KeySpace.height.bytes = none
  balance : (supply.toNat : Int) - pool.toNat - placedRewards placed =
    g.initialSupply.toNat - g.initialRewardPool.toNat
  flushed : (({ store := store } : State).writeAll (genesisWrites g placed supply pool)).flush 0 =
    .ok s

theorem genesisRecord_of_fromGenesis {store : Store} {g : Genesis} {config : StakingConfig}
    {s : State} (h : fromGenesis store g config = .ok s) : Nonempty (GenesisRecord store g s) := by
  obtain ⟨_, _, h⟩ := bind_eq_ok_iff.mp h
  obtain ⟨_, hvalid, h⟩ := bind_eq_ok_iff.mp h
  split at h
  · cases h
  next habsent =>
  obtain ⟨s₀, hs₀, hflush⟩ := bind_eq_ok_iff.mp h
  obtain ⟨p, hfold, hp⟩ := bind_eq_ok_iff.mp hs₀
  obtain ⟨placed, htxs, hstate, hbalance⟩ := placements_of_foldlM hfold
  cases hp
  refine ⟨{
    placed := placed
    supply := p.supply
    pool := p.pool
    txs := htxs
    checked := checked_of_checkValidators hvalid
    absent := by simpa using habsent
    balance := hbalance
    flushed := ?_ }⟩
  rw [hstate] at hflush
  rw [← hflush]
  simp only [genesisWrites, writeAll, List.foldl_append]

namespace GenesisRecord

variable {store : Store} {g : Genesis} {s : State}

theorem kind (r : GenesisRecord store g s) {p : Placement} (hp : p ∈ r.placed) :
    p.tx.kind = .primaryValidator ∧ p.tx.supernetId = .primaryNetwork :=
  r.checked.kind p.tx (r.txs ▸ List.mem_map_of_mem hp)

theorem isValidator (r : GenesisRecord store g s) {p : Placement} (hp : p ∈ r.placed) :
    p.staker.isValidator = true := by
  change (Priority.current p.tx.kind).isValidator = true
  rw [(r.kind hp).1]
  rfl

theorem apart (r : GenesisRecord store g s) :
    r.placed.Pairwise fun p q => p.tx.nodeId ≠ q.tx.nodeId ∧ p.tx.txId ≠ q.tx.txId := by
  have happart := r.checked.apart
  rw [← r.txs] at happart
  exact List.pairwise_map.mp happart

/-- The stakers that a genesis places. -/
def stakers (r : GenesisRecord store g s) : Phase → Set Staker
  | .current => {s | ∃ p ∈ r.placed, p.staker = s}
  | .pending => ∅

end GenesisRecord

/-- Placing validators that are told apart keeps to the contract. -/
theorem accepts_placements {book : Book} {placed : List Placement} {c : Contents}
    (hrecorded : ∀ p ∈ placed, p.staker ∈ book.records .current)
    (hvalidators : ∀ p ∈ placed, p.staker.isValidator = true)
    (happart : placed.Pairwise fun p q => p.tx.nodeId ≠ q.tx.nodeId ∧ p.tx.txId ≠ q.tx.txId)
    (hfree : ∀ s ∈ c.stakers .current, ∀ p ∈ placed,
      s.nodeId ≠ p.tx.nodeId ∧ s.txId ≠ p.tx.txId) :
    c.Accepts (Contents.Allows book) (placed.flatMap Placement.writes) ∧
      (∀ s, s ∈ (c.writeAll (placed.flatMap Placement.writes)).stakers .current ↔
        s ∈ c.stakers .current ∨ ∃ p ∈ placed, p.staker = s) ∧
      (c.writeAll (placed.flatMap Placement.writes)).stakers .pending = c.stakers .pending := by
  -- Placing the first validator leaves the others apart from everybody who is current by then.
  induction placed generalizing c with
  | nil => exact ⟨trivial, fun s => by simp [Contents.writeAll], rfl⟩
  | cons p rest ih =>
      obtain ⟨hhead, htail⟩ := List.pairwise_cons.mp happart
      have hallowed : c.Allows book (.putValidator .current p.staker) := by
        refine ⟨hrecorded p List.mem_cons_self, hvalidators p List.mem_cons_self, ?_, ?_⟩
        · exact fun t ht => (hfree t ht p List.mem_cons_self).2
        · refine occupant_eq_none_iff.mpr fun t ht _ hslot => ?_
          exact (hfree t ht p List.mem_cons_self).1 (congrArg Slot.nodeId hslot)
      have hplaced : (c.writeAll p.writes).stakers =
          (c.updateStakers .current (insert p.staker)).stakers := rfl
      have hcurrent : ((c.writeAll p.writes).stakers .current) =
          insert p.staker (c.stakers .current) := by
        rw [hplaced, Contents.updateStakers_self]
      have hpending : ((c.writeAll p.writes).stakers .pending) = c.stakers .pending := by
        rw [hplaced, Contents.updateStakers_ne _ _ (by decide)]
      obtain ⟨haccepts, hmembers, hrest⟩ := ih (c := c.writeAll p.writes)
        (fun q hq => hrecorded q (List.mem_cons_of_mem _ hq))
        (fun q hq => hvalidators q (List.mem_cons_of_mem _ hq)) htail fun t ht q hq => by
          rw [hcurrent] at ht
          rcases ht with rfl | ht
          · exact hhead q hq
          · exact hfree t ht q (List.mem_cons_of_mem _ hq)
      rw [List.flatMap_cons]
      refine ⟨Contents.accepts_append.mpr ⟨⟨hallowed, trivial, trivial⟩, haccepts⟩, ?_, ?_⟩
      · intro t
        rw [Contents.writeAll_append, hmembers, hcurrent, Set.mem_insert_iff]
        constructor
        · rintro ((rfl | ht) | ⟨q, hq, rfl⟩)
          · exact Or.inr ⟨p, List.mem_cons_self, rfl⟩
          · exact Or.inl ht
          · exact Or.inr ⟨q, List.mem_cons_of_mem _ hq, rfl⟩
        · rintro (ht | ⟨q, hq, rfl⟩)
          · exact Or.inl (Or.inr ht)
          · rcases List.mem_cons.mp hq with rfl | hq
            · exact Or.inl (Or.inl rfl)
            · exact Or.inr ⟨q, hq, rfl⟩
      · rw [Contents.writeAll_append, hrest, hpending]

namespace GenesisRecord

variable {store : Store} {g : Genesis} {s : State}

/-- The genesis validators as the records that transactions denote. -/
def book (r : GenesisRecord store g s) : Book where
  records := r.stakers
  injOn phase := by
    cases phase with
    | pending => exact Set.injOn_empty _
    | current =>
        rintro _ ⟨p, hp, rfl⟩ _ ⟨q, hq, rfl⟩ htx
        have hnodup : (r.placed.map fun p => p.tx.txId).Nodup :=
          List.pairwise_map.mpr (r.apart.imp And.right)
        rw [List.inj_on_of_nodup_map hnodup hp hq htx]

theorem allows_rest {supply pool : UInt64} {w : Write}
    (hw : w ∈ [.setSupply .primaryNetwork supply, .setRewardPool .primaryNetwork pool] ++
      g.utxos.map .addUtxo ++ g.chains.map .addChain) (book : Book) (c : Contents) :
    c.Allows book w ∧ (c.write w).stakers = c.stakers := by
  simp only [List.mem_append, List.mem_cons, List.not_mem_nil, or_false, List.mem_map] at hw
  rcases hw with ((rfl | rfl) | ⟨utxo, _, rfl⟩) | ⟨chain, _, rfl⟩ <;> exact ⟨trivial, rfl⟩

/-- What a genesis writes keeps to the contract and makes its own stakers. -/
theorem accepts (r : GenesisRecord store g s) {book : Book}
    (hrecorded : r.stakers .current ⊆ book.records .current) {c : Contents}
    (hempty : c.stakers = fun _ => ∅) :
    c.Accepts (Contents.Allows book) (genesisWrites g r.placed r.supply r.pool) ∧
      (c.writeAll (genesisWrites g r.placed r.supply r.pool)).stakers = r.stakers := by
  have hwrites : genesisWrites g r.placed r.supply r.pool =
      [.setTimestamp g.timestamp, .setFeePool 0] ++ (r.placed.flatMap Placement.writes ++
        ([.setSupply .primaryNetwork r.supply, .setRewardPool .primaryNetwork r.pool] ++
          g.utxos.map .addUtxo ++ g.chains.map .addChain)) := by
    simp only [genesisWrites, List.append_assoc]
  have hstart : (c.writeAll [.setTimestamp g.timestamp, .setFeePool 0]).stakers = fun _ => ∅ :=
    hempty
  have hvacant : ∀ s ∈ (c.writeAll [.setTimestamp g.timestamp, .setFeePool 0]).stakers .current,
      ∀ p ∈ r.placed, s.nodeId ≠ p.tx.nodeId ∧ s.txId ≠ p.tx.txId := by
    rw [hstart]
    exact fun s hs => absurd hs (Set.notMem_empty s)
  obtain ⟨haccepts, hcurrent, hpending⟩ := accepts_placements
    (fun p hp => hrecorded ⟨p, hp, rfl⟩) (fun p hp => r.isValidator hp) r.apart hvacant
  rw [hwrites]
  refine ⟨Contents.accepts_append.mpr ⟨⟨trivial, trivial, trivial⟩, Contents.accepts_append.mpr
    ⟨haccepts, Contents.accepts_of_forall fun w hw c => (allows_rest hw book c).1⟩⟩, ?_⟩
  rw [Contents.writeAll_append, Contents.writeAll_append,
    Contents.get_writeAll Contents.stakers fun w hw c => (allows_rest hw book c).2]
  funext phase
  cases phase with
  | pending => rw [hpending, hstart]; rfl
  | current =>
      ext t
      rw [hcurrent, hstart]
      simp [stakers]

/-- The root before the flush holds the stakers of the genesis. -/
theorem mirrors (r : GenesisRecord store g s) :
    ∃ c : Contents, (({ store := store } : State).writeAll
        (genesisWrites g r.placed r.supply r.pool)).Mirrors c ∧ c.Proper r.book ∧
      c.stakers = r.stakers := by
  have hfresh : ({ store := store } : State).Mirrors
      (({ store := store } : State).settled fun _ => ∅) :=
    mirrors_settled _ (fun phase => by cases phase <;> exact Registry.Holds.empty) rfl
  have hproper : (({ store := store } : State).settled fun _ => ∅).Proper r.book :=
    ⟨fun _ => Set.empty_subset _, fun _ s hs => absurd hs (Set.notMem_empty s),
      fun _ _ => persisted_chains_filed _⟩
  have hrecorded : r.stakers .current ⊆ r.book.records .current := Set.Subset.refl _
  obtain ⟨haccepts, hstakers⟩ := r.accepts hrecorded
    (c := ({ store := store } : State).settled fun _ => ∅) rfl
  exact ⟨_, hfresh.writeAll hproper haccepts, hproper.writeAll haccepts, hstakers⟩

end GenesisRecord

end State

/-! ## A genesis with one validator -/

/-- A validator of the primary network. -/
def soloTx : StakerTx where
  txId := .ofWord 1
  kind := .primaryValidator
  nodeId := .zero 20
  supernetId := .primaryNetwork
  publicKey := none
  weight := 2000
  startTime := 5
  endTime := 100000
  rewardOwner := .ofWord 7

/-- The validator alone, on a network that owns nothing else. -/
def Genesis.solo : Genesis := { timestamp := 5, validators := [soloTx] }

/-- The root that this genesis makes in an empty store. -/
def State.solo : State :=
  match State.fromGenesis {} .solo {} with
  | .ok s => s
  | .error _ => default

theorem State.fromGenesis_solo : State.fromGenesis {} .solo {} = .ok State.solo := by
  decide +kernel

/-- A delegator to the validator. -/
def soloDelegator : Staker where
  txId := .ofWord 2
  nodeId := .zero 20
  publicKey := none
  supernetId := .primaryNetwork
  weight := 100
  startTime := 5
  endTime := 200
  potentialReward := 0
  nextTime := 200
  priority := .primaryNetworkDelegatorCurrent

/-- The validator and its delegator as the records of their transactions. -/
def soloBook : Book where
  records _ := {currentStaker soloTx 1, soloDelegator}
  injOn _ := by
    rintro s (rfl | rfl) t (rfl | rfl) htx
    · rfl
    · exact absurd htx (by decide +kernel)
    · exact absurd htx (by decide +kernel)
    · rfl

theorem State.stakers_of_values {s : State} {phase : Phase} {held : List Staker}
    (h : (s.registries.get phase).stakers.values = held) :
    (Ledger.root s).view.stakers phase = .ok held := by
  change Except.ok (s.registries.get phase).all.walkAll = _
  rw [StakerSeq.walkAll_eq_toList, Registry.all, StakerSeq.toList_ofTree, h]

theorem State.stakers_solo (phase : Phase) :
    (Ledger.root State.solo).view.stakers phase =
      .ok (match phase with
        | .current => [currentStaker soloTx 1]
        | .pending => []) :=
  stakers_of_values (by cases phase <;> decide +kernel)

theorem State.recordedIn_of_mem {book : Book} (h : currentStaker soloTx 1 ∈ book.records .current) :
    State.solo.RecordedIn book := by
  intro phase held hread t ht
  rw [State.stakers_solo, Except.ok.injEq] at hread
  subst hread
  cases phase with
  | current => exact List.mem_singleton.mp ht ▸ h
  | pending => cases ht

theorem State.recordedIn_solo : State.solo.RecordedIn soloBook := recordedIn_of_mem (Or.inl rfl)

end StakingLedger
