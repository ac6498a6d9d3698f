import StakingLedger.Proofs.Chronicle.Line
import StakingLedger.Proofs.Chronicle.Memory

/-! # A staking transaction pays at most once

On the line of a chronicle a transaction is served by one staker. Once that has left
the current set it does not come back, and no more is paid for the transaction than
the one reward of the claim that retired it. A reload forgets what was not committed,
and the line of the chronicle with it, so a staker may be back after a reload.
-/

namespace StakingLedger

variable {configs : Set StakingConfig} {g : Genesis} {config : StakingConfig}
  {kept past line : List Ledger} {l : Ledger} {c c' : Contents} {writes : List Write}
  {tx : StakerTx} {id : EntityId} {phase : Phase} {state : State}

/-! ## Lines -/

/-- The stakers that are current or were so on the line. -/
def Served (line : List Ledger) (c : Contents) : Set Staker :=
  c.stakers .current ∪ {s | ∃ m ∈ line, m.Has .current s}

/-- The ledger has a staker of the transaction. -/
def Ledger.Seats (l : Ledger) (phase : Phase) (id : EntityId) : Prop :=
  ∃ s, l.Has phase s ∧ s.txId = id

theorem Ledger.seats_iff_exists : l.Seats phase id ↔
    ∃ sequence, l.stakers phase = .ok sequence ∧ ∃ s ∈ sequence.toList, s.txId = id := by
  constructor
  · rintro ⟨s, ⟨sequence, hread, hs⟩, htx⟩
    exact ⟨sequence, hread, s, hs, htx⟩
  · rintro ⟨sequence, hread, s, hs, htx⟩
    exact ⟨s, ⟨sequence, hread, hs⟩, htx⟩

instance (l : Ledger) (phase : Phase) (id : EntityId) : Decidable (l.Seats phase id) :=
  decidable_of_iff _ Ledger.seats_iff_exists.symm

/-- On the line, the newest ledger first, the transaction has left the current set: a ledger has no
current staker of it, and an older one has. -/
def LeftCurrent (line : List Ledger) (id : EntityId) : Prop :=
  ∃ left older, left :: older <:+ line ∧ ¬ left.Seats .current id ∧
    ∃ m ∈ older, m.Seats .current id

theorem served_cons (h : l.Upholds c) :
    Served (l :: past) c' = c'.stakers .current ∪ Served past c := by
  ext s
  simp [Served, h.has_iff]

theorem Ledger.Upholds.seats_iff (h : l.Upholds c) :
    l.Seats phase id ↔ ∃ s ∈ c.stakers phase, s.txId = id := by
  simp only [Seats, h.has_iff]

theorem leftCurrent_cons : LeftCurrent (l :: past) id ↔
    (¬ l.Seats .current id ∧ ∃ m ∈ past, m.Seats .current id) ∨ LeftCurrent past id := by
  constructor
  · rintro ⟨left, older, hsuffix, hrest⟩
    rcases List.suffix_cons_iff.mp hsuffix with heq | hsuffix
    · cases heq
      exact Or.inl hrest
    · exact Or.inr ⟨left, older, hsuffix, hrest⟩
  · rintro (hrest | ⟨left, older, hsuffix, hrest⟩)
    · exact ⟨l, past, List.suffix_refl _, hrest⟩
    · exact ⟨left, older, hsuffix.trans (List.suffix_cons l past), hrest⟩

theorem LeftCurrent.exists_seated (h : LeftCurrent line id) : ∃ m ∈ line, m.Seats .current id := by
  obtain ⟨left, older, hsuffix, _, m, hm, hseats⟩ := h
  exact ⟨m, hsuffix.subset (List.mem_cons_of_mem _ hm), hseats⟩

theorem exists_served (h : ∃ m ∈ line, m.Seats .current id) : ∃ s ∈ Served line c, s.txId = id := by
  obtain ⟨m, hm, s, hs, htx⟩ := h
  exact ⟨s, Or.inr ⟨m, hm, hs⟩, htx⟩

/-- What a line leaves behind: its stakers are remembered, and nobody is there of a transaction that
has left. -/
structure Recalls (past : List Ledger) (c : Contents) : Prop where
  remembers : c.Remembers (Served past c)
  gone : ∀ id, LeftCurrent past id → ∀ phase, ∀ s ∈ c.stakers phase, s.txId ≠ id

/-- Whoever is there after a call has not left before. -/
theorem Recalls.gone_cons (hrecalls : Recalls past c) (h : l.Upholds c)
    (hbrings : Contents.Brings (Served past c) c c') (hleft : LeftCurrent (l :: past) id) :
    ∀ phase, ∀ s ∈ c'.stakers phase, s.txId ≠ id := by
  rintro phase s hs rfl
  obtain ⟨before, hserved, htx⟩ : ∃ before ∈ Served past c, before.txId = s.txId := by
    rcases leftCurrent_cons.mp hleft with ⟨_, hseated⟩ | hpast
    · exact exists_served hseated
    · exact exists_served hpast.exists_seated
  -- A staker that arrives is of a transaction that was not served, so this one was there before.
  rcases hbrings.arrives phase s hs with hs | ⟨hother, _⟩
  · rcases leftCurrent_cons.mp hleft with ⟨hnone, _⟩ | hpast
    · cases phase with
      | current => exact hnone (h.seats_iff.mpr ⟨s, hs, rfl⟩)
      | pending => exact hrecalls.remembers.apart s hs before hserved htx
    · exact hrecalls.gone _ hpast phase s hs rfl
  · exact hother before hserved htx

theorem Recalls.issues (hrecalls : Recalls past c) (h : l.Upholds c)
    (hissues : l.Issues configs writes) : Recalls (l :: past) (c.writeAll writes) where
  remembers := by
    rw [served_cons h]
    exact h.remembers hrecalls.remembers hissues
  gone _ hleft := hrecalls.gone_cons h (h.brings hrecalls.remembers hissues) hleft

theorem Recalls.same (hrecalls : Recalls past c) (h : l.Upholds c) : Recalls (l :: past) c where
  remembers := by
    rw [served_cons h, Set.union_eq_right.mpr hrecalls.remembers.current]
    exact hrecalls.remembers
  gone _ hleft := by
    apply hrecalls.gone_cons h _ hleft
    exact Contents.brings_of_subset (fun _ => Set.Subset.refl _) rfl

theorem State.GenesisRecord.recalls (r : GenesisRecord {} g state) : Recalls [] r.contents where
  remembers := by
    simpa [Served] using r.remembers_contents
  gone _ hleft := by
    obtain ⟨_, _, hsuffix, _⟩ := hleft
    cases List.suffix_nil.mp hsuffix

theorem Ledger.Chronicle.recalls (h : Chronicle configs g config kept past l) :
    ∃ c, l.Upholds c ∧ Recalls past c :=
  h.invariant Recalls (fun r => r.recalls) (fun h hrecalls hissues => hrecalls.issues h hissues)
    fun h hrecalls => hrecalls.same h

/-! ## Throughout a chronicle -/

namespace Ledger

/-- The transaction is recorded as this staking transaction. -/
def Enlists (l : Ledger) (id : EntityId) (tx : StakerTx) : Prop :=
  ∃ stored status, l.tx id = .ok (some (stored, status)) ∧ stored.body = .addStaker tx

/-- The output pays for the transaction, of which a staker has served on the line. -/
structure Pays (l : Ledger) (line : List Ledger) (id : EntityId) (utxo : Utxo) : Prop where
  left : LeftCurrent (l :: line) id
  owner : ∃ tx, l.Enlists id tx ∧ utxo.owner = tx.rewardOwner
  /-- The amount is what was promised to its staker. -/
  amount : ∀ m ∈ line, ∀ s, m.Has .current s → s.txId = id → utxo.amount = s.potentialReward

theorem Upholds.enlists_iff (h : l.Upholds c) : l.Enlists id tx ↔ c.Enlists id tx := by
  rw [Enlists, Contents.Enlists, h.tx_eq]

theorem Upholds.pays_of_recalls (h : l.Upholds c) (hrecalls : Recalls past c) (id : EntityId) :
    ∃ outputs, l.rewardUtxos id = .ok outputs ∧ outputs.length ≤ 1 ∧
      ∀ utxo ∈ outputs, l.Pays past id utxo := by
  rw [h.rewardUtxos_eq]
  rcases hrecalls.remembers.rewarded id with
    hnone | ⟨s, hs, rfl, hleft, tx, utxo, henlists, hpaid, hamount, howner⟩
  · exact ⟨[], hnone, Nat.zero_le _, fun _ hutxo => absurd hutxo List.not_mem_nil⟩
  refine ⟨[utxo], hpaid, le_refl _, fun _ hutxo => ?_⟩
  obtain rfl := List.mem_singleton.mp hutxo
  -- Stakers of one transaction that served on the line are one and the same.
  have hsame : ∀ t ∈ Served past c, t.txId = s.txId → t = s :=
    fun t ht => hrecalls.remembers.injOn ht hs
  refine ⟨leftCurrent_cons.mpr (Or.inl ⟨fun hseats => ?_, ?_⟩),
    ⟨tx, h.enlists_iff.mpr henlists, howner⟩, fun m hm t ht htx => ?_⟩
  · obtain ⟨t, ht, htx⟩ := h.seats_iff.mp hseats
    exact hleft (hsame t (Or.inl ht) htx ▸ ht)
  · obtain ⟨m, hm, hhas⟩ := hs.resolve_left hleft
    exact ⟨m, hm, s, hhas, rfl⟩
  · rw [hsame t (Or.inr ⟨m, hm, ht⟩) htx]
    exact hamount

/-- A staking transaction pays at most once. In every ledger of a chronicle its id is that of at most
one staker over both phases, which stakes as the recorded transaction says. Once it has left the
current set of the line, no staker of it is there again, and of its reward there is at most
one output. -/
theorem staking_pays_once (h : Chronicle configs g config kept past l) :
    (∃ current pending, l.stakers .current = .ok current ∧ l.stakers .pending = .ok pending ∧
        ((current.toList ++ pending.toList).map Staker.txId).Nodup) ∧
      (∀ phase s, l.Has phase s → ∃ tx, l.Enlists s.txId tx ∧ s.Stems tx) ∧
      (∀ id, LeftCurrent (l :: past) id → ∀ phase, ¬ l.Seats phase id) ∧
      ∀ id, ∃ outputs, l.rewardUtxos id = .ok outputs ∧ outputs.length ≤ 1 ∧
        ∀ utxo ∈ outputs, l.Pays past id utxo := by
  obtain ⟨c, hupholds, hrecalls⟩ := h.recalls
  refine ⟨hupholds.nodup_txIds, fun phase s hs => ?_, fun id hleft phase hseats => ?_,
    hupholds.pays_of_recalls hrecalls⟩
  · have hs := hupholds.has_iff.mp hs
    simp only [hupholds.enlists_iff]
    cases phase with
    | pending => exact hrecalls.remembers.waiting s hs
    | current => exact hrecalls.remembers.enlisted s (Or.inl hs)
  · obtain ⟨s, hs, htx⟩ := hupholds.seats_iff.mp hseats
    exact (hrecalls.same hupholds).gone id hleft phase s hs htx

/-- The first delegator of the sample is paid for, and does not come back. -/
theorem staking_pays_once_sample : ∃ kept past,
    Chronicle {.sample} .sample .sample kept past Ledger.sample ∧ ∃ utxo,
      Ledger.sample.rewardUtxos (.ofWord 6) = .ok [utxo] ∧
        Ledger.sample.Pays past (.ofWord 6) utxo ∧
        ∀ phase, ¬ Ledger.sample.Seats phase (.ofWord 6) := by
  have hpaid : ∃ outputs, Ledger.sample.rewardUtxos (.ofWord 6) = .ok outputs ∧
      outputs.length = 1 := by decide +kernel
  obtain ⟨outputs, hread, hlength⟩ := hpaid
  obtain ⟨utxo, rfl⟩ := List.length_eq_one_iff.mp hlength
  obtain ⟨kept, past, hchronicle⟩ := chronicle_sample
  obtain ⟨_, _, hgone, hrewarded⟩ := staking_pays_once hchronicle
  obtain ⟨outputs, hread', _, hpays⟩ := hrewarded (.ofWord 6)
  cases hread.symm.trans hread'
  have hutxo := hpays utxo List.mem_cons_self
  exact ⟨kept, past, hchronicle, utxo, hread, hutxo, hgone _ hutxo.left⟩

/-- A claim that is not committed is undone by a reload. The one validator of the sample genesis is
claimed at its end and leaves, and then it is current again. -/
theorem staker_returns_by_reload : ∃ kept past l loaded,
    Chronicle {.sample} .sample .sample kept past l ∧ LeftCurrent (l :: past) (.ofWord 1) ∧
      State.load l.store = .ok loaded ∧
      Chronicle {.sample} .sample .sample kept kept (root loaded) ∧
      (root loaded).Seats .current (.ofWord 1) := by
  have hends : ∃ opened, State.fromGenesis {} .sample .sample = .ok opened ∧
      (root opened).Seats .current (.ofWord 1) ∧
      ∃ due, (root opened).perform .sample (.advance 100000) = .ok due ∧
      ∃ claimed, due.perform .sample (.claim (.ofWord 1) true) = .ok claimed ∧
      ¬ claimed.Seats .current (.ofWord 1) ∧
      ∃ loaded, State.load claimed.store = .ok loaded ∧
        (root loaded).Seats .current (.ofWord 1) := by
    decide +kernel
  obtain ⟨opened, hopened, hbefore, due, hdue, claimed, hclaimed, hleft, loaded, hloaded, hback⟩ :=
    hends
  have hchronicle := ((Chronicle.genesis hopened).acted (acts_of_perform hdue)).acted
    (acts_of_perform hclaimed)
  refine ⟨_, _, claimed, loaded, hchronicle, ?_, hloaded, hchronicle.reloaded hloaded, hback⟩
  apply leftCurrent_cons.mpr
  exact Or.inl ⟨hleft, root opened, by simp, hbefore⟩

end Ledger

end StakingLedger
