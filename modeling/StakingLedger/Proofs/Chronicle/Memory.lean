import StakingLedger.Proofs.Chronicle.Calls
import StakingLedger.Proofs.Operation.Opening

/-! # Who has been current

A transaction is recorded once, so it makes one pending staker, and that is promoted
once. The stakers that were ever current are remembered here: they are told apart by
their transactions, nobody who waits is of such a transaction, and what is paid for
one is the reward of its staker after that has left.
-/

namespace StakingLedger

variable {configs : Set StakingConfig} {g : Genesis} {config : StakingConfig} {l : Ledger}
  {c c' : Contents} {writes : List Write} {s t : Staker} {tx : StakerTx} {id : EntityId}
  {served : Set Staker} {state : State}

/-! ## Stakers and their transactions -/

/-- The staker stakes as the transaction says. -/
structure Staker.Stems (s : Staker) (tx : StakerTx) : Prop where
  txId : s.txId = tx.txId
  nodeId : s.nodeId = tx.nodeId
  supernetId : s.supernetId = tx.supernetId
  weight : s.weight = tx.weight
  startTime : s.startTime = tx.startTime
  endTime : s.endTime = tx.endTime

theorem stems_pendingStaker (tx : StakerTx) : (pendingStaker tx).Stems tx :=
  ⟨rfl, rfl, rfl, rfl, rfl, rfl⟩

theorem stems_currentStaker (tx : StakerTx) (reward : UInt64) : (currentStaker tx reward).Stems tx :=
  ⟨rfl, rfl, rfl, rfl, rfl, rfl⟩

theorem Staker.Stems.promoted (h : s.Stems tx) (reward : UInt64) : (s.promoted reward).Stems tx :=
  ⟨h.txId, h.nodeId, h.supernetId, h.weight, h.startTime, h.endTime⟩

namespace Contents

/-- The transaction is recorded as this staking transaction. -/
def Enlists (c : Contents) (id : EntityId) (tx : StakerTx) : Prop :=
  ∃ stored status, c.tx id = .ok (some (stored, status)) ∧ stored.body = .addStaker tx

theorem Enlists.ne_none (h : c.Enlists id tx) : c.tx id ≠ .ok none := by
  obtain ⟨stored, status, hread, _⟩ := h
  rw [hread]
  exact fun heq => by cases heq

theorem Enlists.of_eq (h : c.Enlists id tx) (heq : c'.tx id = c.tx id) : c'.Enlists id tx := by
  obtain ⟨stored, status, hread, hbody⟩ := h
  exact ⟨stored, status, heq.trans hread, hbody⟩

/-- What is recorded stays so when a new transaction is. -/
theorem Enlists.record (h : c.Enlists id tx) {stored : StoredTx} {status : TxStatus}
    (hnone : c.tx stored.id = .ok none) : (c.write (.addTx stored status)).Enlists id tx := by
  apply h.of_eq
  apply Function.update_of_ne
  rintro rfl
  exact h.ne_none hnone

/-! ## What is remembered -/

/-- On a line that the contents come to, these are the stakers that were ever current. -/
structure Remembers (served : Set Staker) (c : Contents) : Prop where
  current : c.stakers .current ⊆ served
  injOn : served.InjOn Staker.txId
  apart : ∀ p ∈ c.stakers .pending, ∀ s ∈ served, s.txId ≠ p.txId
  waiting : ∀ p ∈ c.stakers .pending, ∃ tx, c.Enlists p.txId tx ∧ p.Stems tx
  enlisted : ∀ s ∈ served, ∃ tx, c.Enlists s.txId tx ∧ s.Stems tx
  /-- A transaction is not paid before a staker of it has left the current set. -/
  unpaid : ∀ id, (∀ s ∈ served, s.txId = id → s ∈ c.stakers .current) → c.rewardUtxos id = .ok []
  paid : ∀ s ∈ served, c.rewardUtxos s.txId = .ok [] ∨ ∃ tx utxo, c.Enlists s.txId tx ∧
    c.rewardUtxos s.txId = .ok [utxo] ∧ utxo.amount = s.potentialReward ∧
      utxo.owner = tx.rewardOwner

/-- Nothing recorded is lost, and every staker that arrives is of a recorded transaction that was
not served before. -/
structure Brings (served : Set Staker) (c c' : Contents) : Prop where
  enlists : ∀ {id tx}, c.Enlists id tx → c'.Enlists id tx
  arrives : ∀ phase, ∀ s ∈ c'.stakers phase, s ∈ c.stakers phase ∨
    ((∀ t ∈ served, t.txId ≠ s.txId) ∧ ∃ tx, c'.Enlists s.txId tx ∧ s.Stems tx)

namespace Remembers

theorem txId_ne (h : c.Remembers served) (hnone : c.tx id = .ok none) :
    ∀ s ∈ served, s.txId ≠ id := by
  rintro s hs rfl
  obtain ⟨tx, henlists, _⟩ := h.enlisted s hs
  exact henlists.ne_none hnone

/-- Whoever is current has been so before, or its transaction is new to the current set. -/
theorem served_or_new (h : c.Remembers served) (hbrings : Brings served c c')
    (hs : s ∈ c'.stakers .current) : s ∈ served ∨ ∀ t ∈ served, t.txId ≠ s.txId :=
  (hbrings.arrives .current s hs).imp (fun hs => h.current hs) (·.1)

/-- Where no reward is recorded, the memory takes in whoever has become current. -/
theorem evolve (h : c.Remembers served) (hbrings : Brings served c c')
    (hrewards : c'.rewardUtxos = c.rewardUtxos)
    (hinj : (c'.stakers .current).InjOn Staker.txId)
    (hapart : ∀ p ∈ c'.stakers .pending, ∀ s ∈ c'.stakers .current, s.txId ≠ p.txId) :
    c'.Remembers (c'.stakers .current ∪ served) where
  current := Set.subset_union_left
  injOn := by
    -- Whoever is current now either was served before or is of a transaction that nobody served.
    rintro s (hs | hs) t (ht | ht) heq
    · exact hinj hs ht heq
    · rcases h.served_or_new hbrings hs with hs | hs
      · exact h.injOn hs ht heq
      · exact absurd heq.symm (hs t ht)
    · rcases h.served_or_new hbrings ht with ht | ht
      · exact h.injOn hs ht heq
      · exact absurd heq (ht s hs)
    · exact h.injOn hs ht heq
  apart p hp s hs := by
    rcases hs with hs | hs
    · exact hapart p hp s hs
    · rcases hbrings.arrives .pending p hp with hp | ⟨hp, _⟩
      · exact h.apart p hp s hs
      · exact hp s hs
  waiting p hp := by
    rcases hbrings.arrives .pending p hp with hp | ⟨_, hp⟩
    · obtain ⟨tx, henlists, hstems⟩ := h.waiting p hp
      exact ⟨tx, hbrings.enlists henlists, hstems⟩
    · exact hp
  enlisted s hs := by
    have hserved : s ∈ served → ∃ tx, c'.Enlists s.txId tx ∧ s.Stems tx := fun hs => by
      obtain ⟨tx, henlists, hstems⟩ := h.enlisted s hs
      exact ⟨tx, hbrings.enlists henlists, hstems⟩
    rcases hs with hs | hs
    · rcases hbrings.arrives .current s hs with hs | ⟨_, hs⟩
      · exact hserved (h.current hs)
      · exact hs
    · exact hserved hs
  unpaid id hid := by
    rw [hrewards]
    apply h.unpaid
    intro s hs heq
    rcases hbrings.arrives .current s (hid s (Or.inr hs) heq) with hcurrent | ⟨hother, _⟩
    · exact hcurrent
    · exact absurd rfl (hother s hs)
  paid s hs := by
    rw [hrewards]
    by_cases hserved : s ∈ served
    · refine (h.paid s hserved).imp_right ?_
      rintro ⟨tx, utxo, henlists, hpaid⟩
      exact ⟨tx, utxo, hbrings.enlists henlists, hpaid⟩
    · -- Nothing was paid for a transaction that was not served.
      left
      apply h.unpaid
      intro t ht heq
      rcases h.served_or_new hbrings (hs.resolve_right hserved) with hs | hs
      · exact absurd hs hserved
      · exact absurd heq (hs t ht)

/-- The reward of a staker that has left is recorded. -/
theorem pay {utxo : Utxo} (h : c.Remembers served) (hs : s ∈ served)
    (hleft : s ∉ c.stakers .current) (hunpaid : c.rewardUtxos s.txId = .ok [])
    (henlists : c.Enlists s.txId tx) (hamount : utxo.amount = s.potentialReward)
    (howner : utxo.owner = tx.rewardOwner) :
    (c.write (.addRewardUtxo s.txId utxo)).Remembers served where
  current := h.current
  injOn := h.injOn
  apart := h.apart
  waiting := h.waiting
  enlisted := h.enlisted
  unpaid id hid := by
    have hne : id ≠ s.txId := fun heq => hleft (hid s hs heq.symm)
    exact (Function.update_of_ne hne _ _).trans (h.unpaid id hid)
  paid t ht := by
    by_cases heq : t.txId = s.txId
    · obtain rfl := h.injOn ht hs heq
      refine Or.inr ⟨tx, utxo, henlists, ?_, hamount, howner⟩
      refine (Function.update_self _ _ _).trans ?_
      rw [hunpaid]
      rfl
    · have hsame : (c.write (.addRewardUtxo s.txId utxo)).rewardUtxos t.txId =
          c.rewardUtxos t.txId := Function.update_of_ne heq _ _
      rw [hsame]
      exact h.paid t ht

/-- What is paid for a transaction is the reward of a staker that has left. -/
theorem rewarded (h : c.Remembers served) (id : EntityId) : c.rewardUtxos id = .ok [] ∨
    ∃ s ∈ served, s.txId = id ∧ s ∉ c.stakers .current ∧ ∃ tx utxo, c.Enlists id tx ∧
      c.rewardUtxos id = .ok [utxo] ∧ utxo.amount = s.potentialReward ∧
      utxo.owner = tx.rewardOwner := by
  by_cases hpending : ∀ s ∈ served, s.txId = id → s ∈ c.stakers .current
  · exact Or.inl (h.unpaid id hpending)
  push Not at hpending
  obtain ⟨s, hs, rfl, hleft⟩ := hpending
  exact (h.paid s hs).imp_right fun hpaid => ⟨s, hs, rfl, hleft, hpaid⟩

end Remembers

/-! ## What a call brings -/

/-- A recorded transaction may bring a staker of its own. -/
theorem Remembers.brings_record (h : c.Remembers served) {stored : StoredTx} (status : TxStatus)
    (hnone : c.tx stored.id = .ok none) (htx : c'.tx = (c.write (.addTx stored status)).tx)
    (harrives : ∀ phase, ∀ s ∈ c'.stakers phase, s ∈ c.stakers phase ∨
      (s.txId = stored.id ∧ ∃ tx, stored.body = .addStaker tx ∧ s.Stems tx)) :
    Brings served c c' where
  enlists henlists := (henlists.record hnone).of_eq (congrFun htx _)
  arrives phase s hs := by
    refine (harrives phase s hs).imp_right ?_
    rintro ⟨hid, tx, hbody, hstems⟩
    rw [hid]
    refine ⟨h.txId_ne hnone, tx, ⟨stored, status, ?_, hbody⟩, hstems⟩
    rw [htx]
    exact Function.update_self _ _ _

theorem Remembers.brings_enroll (h : c.Remembers served) (phase : Phase) (stored : StoredTx)
    (status : TxStatus) (hnone : c.tx stored.id = .ok none) (hbody : stored.body = .addStaker tx)
    (hid : s.txId = stored.id) (hstems : s.Stems tx) :
    Brings served c ((c.updateStakers phase (insert s)).write (.addTx stored status)) := by
  refine h.brings_record status hnone rfl fun phase' t ht => ?_
  rcases mem_stakers_insert.mp ht with ⟨_, rfl⟩ | ht
  · exact Or.inr ⟨hid, tx, hbody, hstems⟩
  · exact Or.inl ht

/-- Promotions bring stakers that waited. -/
theorem Remembers.brings_advance {time : UInt64} (h : c.Remembers served)
    (hadvances : c.Advances time c') (htx : c'.tx = c.tx) : Brings served c c' where
  enlists henlists := henlists.of_eq (congrFun htx _)
  arrives phase s hs := by
    cases phase with
    | pending => exact Or.inl ((hadvances.pending s).mp hs).1
    | current =>
        rcases hadvances.arrived s hs with ⟨hs, _⟩ | ⟨p, hp, _, reward, rfl⟩
        · exact Or.inl hs
        · obtain ⟨tx, henlists, hstems⟩ := h.waiting p hp
          exact Or.inr ⟨h.apart p hp, tx, henlists.of_eq (congrFun htx _), hstems.promoted reward⟩

theorem brings_of_subset (hstakers : ∀ phase, c'.stakers phase ⊆ c.stakers phase)
    (htx : c'.tx = c.tx) : Brings served c c' where
  enlists henlists := henlists.of_eq (congrFun htx _)
  arrives phase _ hs := Or.inl (hstakers phase hs)

end Contents

/-! ## Calls -/

namespace Ledger.Upholds

theorem enlists_of_stakingTx (h : l.Upholds c) (hstaking : l.stakingTx id = .ok tx) :
    c.Enlists id tx := by
  obtain ⟨recorded?, hread, hstaking⟩ := bind_eq_ok_iff.mp hstaking
  obtain ⟨⟨stored, status⟩, hfound, hbody⟩ := bind_eq_ok_iff.mp hstaking
  cases recorded? with
  | none => cases hfound
  | some recorded =>
      cases hfound
      rw [h.tx_eq] at hread
      dsimp only at hbody
      split at hbody
      next hstored =>
        cases hbody
        exact ⟨stored, status, hread, hstored⟩
      next => cases hbody

theorem brings_transaction (h : l.Upholds c) (hc : c.Remembers served) {stored : StoredTx}
    (hnew : l.tx stored.id = .ok none) (hwrites : stored.body.Writes l config stored.id writes) :
    Contents.Brings served c (c.writeAll (writes ++ [.addTx stored .committed])) := by
  rw [h.tx_eq] at hnew
  generalize hbody : stored.body = body at hwrites
  cases hwrites with
  | @addStaker stakerTx s hid hs =>
      obtain ⟨rfl, _⟩ := admits_of_admitStaker hs
      rw [List.singleton_append, c.writeAll_enroll]
      exact hc.brings_enroll .pending stored .committed hnew hbody hid (stems_pendingStaker stakerTx)
  | createSupernet | createChain | transformSupernet =>
      exact hc.brings_record .committed hnew rfl fun _ _ hs => Or.inl hs

/-- What a call brings. -/
theorem brings (h : l.Upholds c) (hc : c.Remembers served) (hissues : l.Issues configs writes) :
    Contents.Brings served c (c.writeAll writes) := by
  cases hissues with
  | transaction _ hnew hwrites => exact h.brings_transaction hc hnew hwrites
  | advance hverify hplan =>
      apply hc.brings_advance (h.advances hverify hplan)
      rw [c.writeAll_plan]
  | @claim s _ rewards _ _ hreward =>
      rw [c.writeAll_retire]
      apply Contents.brings_of_subset
      · intro phase t ht
        have hbefore : t ∈ (c.updateStakers .current (· \ {s})).stakers phase := by
          cases hreward <;> exact ht
        exact (Contents.mem_stakers_delete.mp hbefore).1
      · cases hreward <;> rfl

/-- A call records no reward, or else that of the staker it retires. -/
theorem pays (h : l.Upholds c) (hissues : l.Issues configs writes) :
    (c.writeAll writes).rewardUtxos = c.rewardUtxos ∨ ∃ s tx utxo,
      writes = [.delete .current s, .addUtxo utxo, .addRewardUtxo s.txId utxo] ∧
        s ∈ c.stakers .current ∧ c.Enlists s.txId tx ∧ utxo.amount = s.potentialReward ∧
        utxo.owner = tx.rewardOwner := by
  cases hissues with
  | @transaction stored _ _ _ _ hwrites =>
      left
      generalize stored.body = body at hwrites
      cases hwrites with
      | addStaker =>
          rw [List.singleton_append, c.writeAll_enroll]
          rfl
      | createSupernet | createChain | transformSupernet => rfl
  | advance _ hplan =>
      left
      rw [c.writeAll_plan]
  | @claim s tx rewards hclaimed hstaking hreward =>
      cases hreward with
      | nothing | forfeited =>
          left
          rw [c.writeAll_retire]
          rfl
      | paid hutxo =>
          obtain ⟨_, _, _, _, _, rfl⟩ := of_rewardOutput hutxo
          exact Or.inr ⟨s, tx, _, rfl, h.mem_of_claimedStaker hclaimed,
            h.enlists_of_stakingTx hstaking, rfl, rfl⟩

/-- Every call keeps what is remembered. -/
theorem remembers (h : l.Upholds c) (hc : c.Remembers served) (hissues : l.Issues configs writes) :
    (c.writeAll writes).Remembers ((c.writeAll writes).stakers .current ∪ served) := by
  have hafter := h.issues hissues
  have hbrings := h.brings hc hissues
  have hinj := hafter.txId_inj .current
  have hapart : ∀ p ∈ (c.writeAll writes).stakers .pending,
      ∀ s ∈ (c.writeAll writes).stakers .current, s.txId ≠ p.txId :=
    fun _ hp _ hs => hafter.txId_ne hp hs
  -- Only a claim that pays does more than bring stakers.
  rcases h.pays hissues with hrewards | ⟨s, tx, utxo, rfl, hs, henlists, hamount, howner⟩
  · exact hc.evolve hbrings hrewards hinj hapart
  · rw [c.writeAll_retire] at hbrings hinj hapart ⊢
    -- Up to the payment the call is one that records no reward.
    have hbrings' : Contents.Brings served c
        ((c.updateStakers .current (· \ {s})).write (.addUtxo utxo)) :=
      ⟨hbrings.enlists, hbrings.arrives⟩
    have hretired := hc.evolve hbrings' rfl hinj hapart
    have hserved := hc.current hs
    have hleft : s ∉ (c.updateStakers .current (· \ {s})).stakers .current :=
      fun hstays => (Contents.mem_stakers_delete.mp hstays).2 rfl rfl
    refine hretired.pay (Or.inr hserved) hleft ?_ (hbrings.enlists henlists) hamount howner
    apply hc.unpaid
    intro t ht heq
    rwa [hc.injOn ht hserved heq]

end Ledger.Upholds

/-! ## Genesis -/

theorem Contents.remembers_fresh : Contents.fresh.Remembers ∅ where
  current := Set.Subset.refl _
  injOn := Set.injOn_empty _
  apart _ hp := absurd hp (Set.notMem_empty _)
  waiting _ hp := absurd hp (Set.notMem_empty _)
  enlisted _ hs := absurd hs (Set.notMem_empty _)
  unpaid _ _ := rfl
  paid _ hs := absurd hs (Set.notMem_empty _)

/-- A placed validator is current from then on. -/
theorem Ledger.Upholds.remembers_place {p : Placement} (h : l.Upholds c) (hp : p.Fits c)
    (hc : c.Remembers (c.stakers .current)) :
    (c.writeAll p.writes).Remembers ((c.writeAll p.writes).stakers .current) := by
  have hafter := h.place hp
  rw [Placement.writes_eq hp.kind, c.writeAll_enroll] at hafter ⊢
  have hgrows : c.stakers .current ⊆ ((c.updateStakers .current (insert p.staker)).write
      (.addTx ⟨p.tx.txId, .addStaker p.tx⟩ .committed)).stakers .current := by
    intro s hs
    have hstays : s ∈ (c.updateStakers .current (insert p.staker)).stakers .current :=
      Contents.mem_stakers_insert.mpr (Or.inr hs)
    exact hstays
  have hstems : p.staker.Stems p.tx := stems_currentStaker p.tx p.reward
  have hbrings := hc.brings_enroll .current ⟨p.tx.txId, .addStaker p.tx⟩ .committed hp.unrecorded
    rfl rfl hstems
  have hevolved := hc.evolve hbrings rfl (hafter.txId_inj .current)
    fun _ hp _ hs => hafter.txId_ne hp hs
  rwa [Set.union_eq_left.mpr hgrows] at hevolved

theorem Ledger.Upholds.remembers_placeAll {placed : List Placement} (h : l.Upholds c)
    (hplaceable : c.Placeable placed) (hc : c.Remembers (c.stakers .current)) :
    (c.writeAll (placed.flatMap Placement.writes)).Remembers
      ((c.writeAll (placed.flatMap Placement.writes)).stakers .current) := by
  induction placed generalizing l c with
  | nil => exact hc
  | cons p rest ih =>
      have hfits := hplaceable.fits p List.mem_cons_self
      rw [List.flatMap_cons, Contents.writeAll_append]
      exact ih (h.place hfits) hplaceable.rest (h.remembers_place hfits hc)

theorem Contents.Remembers.plains (h : c.Remembers (c.stakers .current))
    (hplain : ∀ w ∈ writes, w.IsPlain) :
    (c.writeAll writes).Remembers ((c.writeAll writes).stakers .current) := by
  obtain ⟨hstakers, htx, hrewards⟩ := same_of_plains hplain c
  have hbrings : Brings (c.stakers .current) c (c.writeAll writes) :=
    brings_of_subset (fun phase => by rw [hstakers]) htx
  rw [← hstakers] at h hbrings
  have hevolved := h.evolve hbrings hrewards h.injOn (hstakers ▸ h.apart)
  rwa [Set.union_self] at hevolved

/-- A genesis has nothing to remember but its own stakers. -/
theorem State.GenesisRecord.remembers_contents (r : GenesisRecord {} g state) :
    r.contents.Remembers (r.contents.stakers .current) := by
  have hplaced := (Ledger.upholds_fresh.plains_root (plain_clock g)).remembers_placeAll r.placeable
    (Contents.remembers_fresh.plains (plain_clock g))
  rw [contents_eq]
  exact (hplaced.plains (plain_balances r.supply r.pool)).plains fun w hw =>
    (plain_of_genesisRecords (g := g) hw).1

end StakingLedger
