import StakingLedger.Proofs.Ledger.Arising
import StakingLedger.Proofs.Ledger.Stack

/-! # Coherent staker sets

The stakers of a phase are coherent when the walk over all of them, the walks over
the delegators of the slots and the lookups of validators tell of one set. A root
that is read in this way keeps the set in its registry; a layer keeps how its set
differs from the one below. A write that keeps to the contract changes the set by
the one staker that it names, so what is read stays coherent.
-/

namespace StakingLedger

variable {book : Book} {records members : Set Staker} {phase : Phase} {l : Ledger} {s : Staker}
  {w : Write}

/-! ## From reads to registries -/

namespace View.Lists

variable {v : View}

theorem oneValidator (h : v.Lists phase members) : OneValidatorPerSlot members := by
  intro s hs t ht hsv htv hslot
  obtain ⟨found, _, hfound⟩ := h.validator s.slot
  have hsome := (hfound s).mpr ⟨hs, hsv, rfl⟩
  rw [(hfound t).mpr ⟨ht, htv, hslot.symm⟩] at hsome
  exact (Option.some.inj hsome).symm

theorem occupant_eq (h : v.Lists phase members) (slot : Slot) :
    v.validator phase slot = .ok (occupant members slot) := by
  obtain ⟨found, hread, hfound⟩ := h.validator slot
  rw [hread]
  refine congrArg Except.ok (Option.ext fun s => ?_)
  rw [hfound s, occupant_eq_some_iff h.oneValidator]

theorem of_occupant (hstakers : ∃ held, v.stakers phase = .ok held ∧
      Enumerates held Staker.key members)
    (hdelegators : ∀ slot, ∃ held, v.delegators phase slot = .ok held ∧
      Enumerates held Staker.key (delegatorsIn members slot))
    (hvalidator : ∀ slot, v.validator phase slot = .ok (occupant members slot))
    (hone : OneValidatorPerSlot members) : v.Lists phase members :=
  ⟨hstakers, hdelegators,
    fun slot => ⟨_, hvalidator slot, fun _ => occupant_eq_some_iff hone⟩⟩

theorem mem_of_read (h : v.Lists phase members) {held : List Staker}
    (hread : v.stakers phase = .ok held) : s ∈ held ↔ s ∈ members := by
  obtain ⟨held', hread', hheld⟩ := h.stakers
  rw [hread] at hread'
  cases hread'
  exact hheld.mem_iff s

end View.Lists

/-- A root that is read coherently keeps in its registry what is read. -/
theorem State.Filed.holds_of_lists {state : State} (h : state.Filed)
    (hlists : (Ledger.root state).view.Lists phase members) :
    (state.registries.get phase).Holds members where
  stakers := by
    obtain ⟨held, hread, hheld⟩ := hlists.stakers
    cases hread
    refine (h.registries phase).all.indexes.congr fun s => ?_
    rw [← hheld.mem_iff s, StakerSeq.walkAll_eq_toList, Registry.all, StakerSeq.toList_ofTree]
    rfl
  validator slot := Except.ok.inj (hlists.occupant_eq slot)
  delegators slot := by
    obtain ⟨held, hread, hheld⟩ := hlists.delegators slot
    cases hread
    refine ((h.registries phase).delegators slot).indexes.congr fun s => ?_
    rw [← show s ∈ _ ↔ s ∈ delegatorsIn members slot from hheld.mem_iff s,
      StakerSeq.walkAll_eq_toList, Registry.delegators, StakerSeq.toList_ofTree]
    rfl

/-! ## What a ledger keeps -/

/-- Stakers that stand in the records, no two validators of them in a slot. -/
structure Admissible (records members : Set Staker) : Prop where
  recorded : members ⊆ records
  slots : OneValidatorPerSlot members

namespace Ledger

/-- The ledger keeps these stakers of a phase: its root in the registry, each layer as a change of
the set below. -/
def Keeps (records : Set Staker) (phase : Phase) : Ledger → Set Staker → Prop
  | .root s, members => Admissible records members ∧ (s.registries.get phase).Holds members
  | .layer parent _ reachable c, members =>
    Admissible records members ∧ reachable = true ∧
      ∃ below, parent.Keeps records phase below ∧ (c.registries.get phase).Nets below members

namespace Keeps

theorem admissible (h : l.Keeps records phase members) : Admissible records members := by
  cases l <;> exact h.1

/-- What a ledger keeps is what is read of it. -/
theorem lists (hrecords : records.InjOn Staker.txId) (h : l.Keeps records phase members) :
    l.view.Lists phase members := by
  induction l generalizing members with
  | root s =>
      obtain ⟨hadmissible, hholds⟩ := h
      refine .of_occupant ⟨_, rfl, ?_⟩ (fun slot => ⟨_, rfl, ?_⟩)
        (fun slot => congrArg Except.ok (hholds.validator slot)) hadmissible.slots
      · rw [StakerSeq.walkAll_eq_toList]
        exact hholds.enumerates_all
      · rw [StakerSeq.walkAll_eq_toList]
        exact hholds.enumerates_delegators slot
  | layer parent id reachable c ih =>
      obtain ⟨hadmissible, rfl, below, hparent, hnets⟩ := h
      have hbelow := ih hparent
      have htx : (below ∪ members).InjOn Staker.txId := hrecords.mono
        (Set.union_subset hparent.admissible.recorded hadmissible.recorded)
      exact .of_occupant
        (hnets.reads_stakers id hadmissible.slots hbelow.oneValidator htx hbelow.stakers)
        (fun slot => hnets.reads_delegators id htx (hbelow.delegators slot))
        (fun slot => hnets.reads_validator id (hbelow.occupant_eq slot)) hadmissible.slots

/-! ## Writes -/

theorem spared (h : l.Keeps records phase members) (hspares : w.Spares phase) :
    (l.write w).Keeps records phase members := by
  cases l with
  | root s =>
      refine ⟨h.1, ?_⟩
      rw [State.registry_write_of_spares hspares]
      exact h.2
  | layer parent id reachable c =>
      obtain ⟨hadmissible, hreachable, below, hparent, hnets⟩ := h
      refine ⟨hadmissible, hreachable, below, hparent, ?_⟩
      rw [Changes.registry_write_of_spares hspares]
      exact hnets

/-- A write that changes the registry of the phase, in a root as in a layer. -/
theorem updateRegistry {members' : Set Staker} {f : Registry → Registry}
    {g : RegistryOverlay → RegistryOverlay} (h : l.Keeps records phase members)
    (hadmissible : Admissible records members')
    (hroot : ∀ s : State, s.write w = s.updateRegistry phase f)
    (hlayer : ∀ c : Changes, c.write w = c.updateRegistry phase g)
    (hholds : ∀ {r : Registry}, r.Holds members → (f r).Holds members')
    (hnets : ∀ {o : RegistryOverlay} {below : Set Staker}, Admissible records below →
      o.Nets below members → (g o).Nets below members') :
    (l.write w).Keeps records phase members' := by
  cases l with
  | root s =>
      refine ⟨hadmissible, ?_⟩
      rw [hroot, State.updateRegistry, ByPhase.get_update_self]
      exact hholds h.2
  | layer parent id reachable c =>
      obtain ⟨_, hreachable, below, hparent, hbelow⟩ := h
      refine ⟨hadmissible, hreachable, below, hparent, ?_⟩
      rw [hlayer, Changes.updateRegistry, ByPhase.get_update_self]
      exact hnets hparent.admissible hbelow

/-- A new staker joins those that are kept; a validator finds its slot free. -/
theorem put (hrecords : records.InjOn Staker.txId) (h : l.Keeps records phase members)
    (hs : s ∈ records) (hnew : s ∉ members)
    (hfree : s.isValidator = true → occupant members s.slot = none) :
    (l.write (.put phase s)).Keeps records phase (insert s members) := by
  obtain ⟨hmembers, hslots⟩ := h.admissible
  have hone : ∀ {held}, held ⊆ records → ∀ t ∈ held, t.txId = s.txId → t = s :=
    fun hsub t ht heq => hrecords (hsub ht) hs heq
  have hrecorded := Set.insert_subset hs hmembers
  unfold Write.put
  split
  next hv =>
    exact h.updateRegistry ⟨hrecorded, hslots.insert_validator (hfree hv)⟩ (fun _ => rfl)
      (fun _ => rfl) (fun hholds => hholds.putValidator hslots hv (hfree hv) (hone hmembers))
      fun hbelow hnets => hnets.putValidator hslots hbelow.slots hv (hfree hv) (hone hmembers)
  next hv =>
    have hd : s.isValidator = false := by simpa using hv
    exact h.updateRegistry ⟨hrecorded, hslots.insert_delegator hd⟩ (fun _ => rfl) (fun _ => rfl)
      (fun hholds => hholds.putDelegator hslots hd (hone hmembers))
      fun hbelow hnets => hnets.putDelegator hslots hd
        (hone (Set.union_subset hbelow.recorded hmembers)) hnew

/-- A staker that is kept leaves. -/
theorem delete (hrecords : records.InjOn Staker.txId) (h : l.Keeps records phase members)
    (hs : s ∈ members) :
    (l.write (.delete phase s)).Keeps records phase (members \ {s}) := by
  obtain ⟨hmembers, hslots⟩ := h.admissible
  have hone : ∀ {held}, held ⊆ records → ∀ t ∈ held, t.txId = s.txId → t = s :=
    fun hsub t ht heq => hrecords (hsub ht) (hmembers hs) heq
  have hless : members \ {s} ⊆ members := fun t ht => ht.1
  have hadmissible : Admissible records (members \ {s}) :=
    ⟨hless.trans hmembers, hslots.subset hless⟩
  unfold Write.delete
  split
  next hv =>
    exact h.updateRegistry hadmissible (fun _ => rfl) (fun _ => rfl)
      (fun hholds => hholds.deleteValidator hslots hv hs)
      fun hbelow hnets => hnets.deleteValidator hslots hbelow.slots hv hs
        (hone (Set.union_subset hbelow.recorded hmembers))
  next hv =>
    have hd : s.isValidator = false := by simpa using hv
    exact h.updateRegistry hadmissible (fun _ => rfl) (fun _ => rfl)
      (fun hholds => hholds.deleteDelegator hslots hd hs)
      fun hbelow hnets => hnets.deleteDelegator hslots hd
        (hone (Set.union_subset hbelow.recorded hmembers)) hs

/-- Whatever is written in keeping with the contract, the ledger keeps some stakers. -/
theorem write (h : l.Keeps (book.records phase) phase members) (hallowed : l.view.Allows book w) :
    ∃ members', (l.write w).Keeps (book.records phase) phase members' := by
  have hrecords := book.injOn phase
  have hlists := h.lists hrecords
  have hnew : ∀ {s : Staker}, (∃ held, l.view.stakers phase = .ok held ∧
      ∀ t ∈ held, t.txId ≠ s.txId) → s ∉ members := by
    rintro s ⟨held, hread, habsent⟩ hs
    exact habsent s ((hlists.mem_of_read hread).mpr hs) rfl
  rcases w.puts_or_deletes_or_spares phase with ⟨s, rfl | rfl⟩ | ⟨s, rfl | rfl⟩ | hspares
  · obtain ⟨hs, hv, habsent, hfree⟩ := hallowed
    rw [hlists.occupant_eq, Except.ok.injEq] at hfree
    rw [← show Write.put phase s = .putValidator phase s from if_pos hv]
    exact ⟨_, h.put hrecords hs (hnew habsent) fun _ => hfree⟩
  · obtain ⟨hs, hd, habsent⟩ := hallowed
    rw [← show Write.put phase s = .putDelegator phase s from if_neg (by rw [hd]; decide)]
    exact ⟨_, h.put hrecords hs (hnew habsent) fun hv => absurd hv (by rw [hd]; decide)⟩
  · obtain ⟨hv, held, hread, hs⟩ := hallowed
    rw [← show Write.delete phase s = .deleteValidator phase s from if_pos hv]
    exact ⟨_, h.delete hrecords ((hlists.mem_of_read hread).mp hs)⟩
  · obtain ⟨hd, held, hread, hs⟩ := hallowed
    rw [← show Write.delete phase s = .deleteDelegator phase s from
      if_neg (by rw [hd]; decide)]
    exact ⟨_, h.delete hrecords ((hlists.mem_of_read hread).mp hs)⟩
  · exact ⟨members, h.spared hspares⟩

end Keeps

/-! ## The ledgers with coherent staker sets -/

/-- A root whose reads tell of one set of recorded stakers in each phase, a layer that is opened on
such a ledger, and what writes in keeping with the contract make of them. -/
inductive Coherent (book : Book) : Ledger → Prop
  | root {s : State} {members : Phase → Set Staker} (h : Arises (root s))
    (hlists : ∀ phase, (Ledger.root s).view.Lists phase (members phase))
    (hrecorded : ∀ phase, members phase ⊆ book.records phase) : Coherent book (root s)
  | opened {l : Ledger} (id : EntityId) (h : Coherent book l) :
    Coherent book (layer l id true (.untouched l.timestamp l.feePool))
  | written {l : Ledger} {w : Write} (h : Coherent book l) (hallowed : l.view.Allows book w) :
    Coherent book (l.write w)

theorem Coherent.keeps (h : l.Coherent book) (phase : Phase) :
    ∃ members, l.Keeps (book.records phase) phase members := by
  induction h with
  | root harises hlists hrecorded =>
      have hfiled : State.Filed _ := harises.filed
      exact ⟨_, ⟨hrecorded phase, (hlists phase).oneValidator⟩,
        hfiled.holds_of_lists (hlists phase)⟩
  | opened id _ ih =>
      obtain ⟨members, hkeeps⟩ := ih
      refine ⟨members, hkeeps.admissible, rfl, members, hkeeps, ?_⟩
      cases phase <;> exact RegistryOverlay.Nets.refl members
  | written _ hallowed ih =>
      obtain ⟨members, hkeeps⟩ := ih
      exact hkeeps.write hallowed

end Ledger

end StakingLedger
