import StakingLedger.Proofs.State.History
import StakingLedger.Proofs.ValidatorSet.Undo

/-! # Validator sets of the past

At every moment of a history without uncommitted changes the validator set of
an earlier height is the one that could be read right after the commit of that
height, on the live root as on the one that its store loads as.
-/

namespace StakingLedger

open ValidatorMap

namespace State

variable {book : Book} {s s' : State} {commits : List State} {height : UInt64}
  {last c : Contents} {held : Nat → List Staker} {supernet : EntityId}

/-- The current stakers that can be read from the root are sound. -/
def SoundlyStaked (s : State) : Prop :=
  ∀ held, (Ledger.root s).view.stakers .current = .ok held → SoundStakers held

/-! ## One root -/

theorem validatorSetAt_eq_ok (h : s.Mirrors c) (hone : OneValidatorPerSlot (c.stakers .current))
    (hclean : s.hasUncommittedChanges = false) (hkeyed : s.store.Keyed)
    (hremembers : s.store.Remembers held) (hsound : ∀ k, SoundStakers (held k))
    (hheld : Enumerates (held s.height.toNat) Staker.key (c.stakers .current))
    (hle : height ≤ s.height) (supernet : EntityId) :
    ∃ entries, s.validatorSetAt supernet height = .ok entries ∧
      Lists (held height.toNat) supernet entries := by
  have hnat := UInt64.le_iff_toNat_le.mp hle
  have hbelow : ¬ s.height < height := fun hlt =>
    Nat.not_lt.mpr hnat (UInt64.lt_iff_toNat_lt.mp hlt)
  obtain ⟨current, hcurrent, hlists⟩ :=
    Ledger.validatorSet_eq_ok h.shows hone hheld (hsound _) supernet
  have hset := describes_ofEntries hlists
  unfold validatorSetAt
  simp only [hclean, Bool.false_eq_true, if_false, hbelow, hcurrent, bind_ok]
  split
  next htip =>
    subst htip
    exact ⟨_, rfl, hset.toEntries⟩
  next =>
    obtain ⟨weights, keys, hweights, hkeys, hback⟩ :=
      hremembers.describes_undone hkeyed hsound hnat hset "weight diff" "public key diff"
    exact ⟨keys.toEntries, bind_eq_ok_iff.mpr ⟨weights, hweights, bind_eq_ok_iff.mpr
      ⟨keys, hkeys, rfl⟩⟩, hback.toEntries⟩

/-! ## The series of a history -/

/-- The store remembers the current sets of the commits, the last of which is `last`. -/
structure Traced (commits : List State) (s : State) (last : Contents)
    (held : Nat → List Staker) : Prop where
  length : commits.length = s.height.toNat + 1
  past : ∀ k past, commits[k]? = some past → past.height.toNat = k ∧ ∃ c : Contents,
    past.Mirrors c ∧ OneValidatorPerSlot (c.stakers .current) ∧
      Enumerates (held k) Staker.key (c.stakers .current)
  remembers : s.store.Remembers held
  steady : ∀ k, s.height.toNat ≤ k → held k = held s.height.toNat
  latest : Enumerates (held s.height.toNat) Staker.key (last.stakers .current)

theorem traced_of_fromGenesis {g : Genesis} {config : StakingConfig}
    (h : fromGenesis {} g config = .ok s) (hkept : s.Kept book c c) :
    ∃ held, Traced [s] s c held := by
  obtain ⟨r⟩ := genesisRecord_of_fromGenesis h
  obtain ⟨history, hflushed⟩ := flushed_of_flush r.flushed
  have hheight : s.height = 0 := by rw [hflushed.result]
  have hempty : ∀ key, (({ store := {} } : State).writeAll
      (genesisWrites g r.placed r.supply r.pool)).store.get? key = none := by
    intro key
    rw [store_writeAll]
    rfl
  obtain ⟨first, _, hfirst⟩ := hkept.durable.toMirrors.shows.stakers .current
  have hfits : ∀ t ∈ first, Codec.fits t = true := fun t ht =>
    hkept.durable.encoded .current t ((hfirst.mem_iff t).mp ht)
  refine ⟨fun _ => first, ?_, fun k past hpast => ?_, hflushed.remembers_first hempty hfits,
    fun _ _ => rfl, hfirst⟩
  · rw [hheight]
    rfl
  · rw [List.getElem?_singleton] at hpast
    split at hpast
    next hk =>
      cases hpast
      exact ⟨by rw [hheight, hk]; rfl, c, hkept.durable.toMirrors, hkept.proper.slots .current,
        hfirst⟩
    next => cases hpast

theorem Traced.write (h : Traced commits s last held) (w : Write) :
    Traced commits (s.write w) last held := by
  have hheight : (s.write w).height = s.height := by cases w <;> rfl
  refine ⟨?_, h.past, ?_, ?_, ?_⟩
  · rw [hheight]
    exact h.length
  · rw [store_write]
    exact h.remembers
  · rw [hheight]
    exact h.steady
  · rw [hheight]
    exact h.latest

theorem Traced.commit (h : Traced commits s last held) (hkept : s.Kept book last c)
    (hcommit : s.commit height = .ok s') : ∃ held', Traced (commits ++ [s']) s' c held' := by
  obtain ⟨hflush, hnext⟩ := flush_of_commit hcommit
  obtain ⟨history, hflushed⟩ := flushed_of_flush hflush
  have hheight : s'.height.toNat = s.height.toNat + 1 := by
    rw [← hnext, hflushed.result]
  obtain ⟨after, _, hafter⟩ := hkept.durable.toMirrors.shows.stakers .current
  have hlater : ∀ k, s.height.toNat < k → continued held s.height.toNat after k = after :=
    fun k hk => continued_of_gt hk after
  -- The series goes on with the current set of the commit and stays at it.
  refine ⟨continued held s.height.toNat after, ?_, fun k past hpast => ?_, ?_, fun k hk => ?_, ?_⟩
  · rw [List.length_append, h.length, hheight]
    rfl
  · by_cases hk : k < commits.length
    · have hlow : k ≤ s.height.toNat := by
        have hlength := h.length
        omega
      rw [List.getElem?_append_left hk] at hpast
      rw [continued_of_le hlow]
      exact h.past k past hpast
    · rw [List.getElem?_append_right (Nat.le_of_not_lt hk), List.getElem?_singleton] at hpast
      split at hpast
      next hindex =>
        cases hpast
        have hlast : k = s.height.toNat + 1 := by
          have hlength := h.length
          omega
        rw [hlater k (by omega), hlast]
        exact ⟨hheight, c, (hkept.commit hcommit).durable.toMirrors, hkept.proper.slots .current,
          hafter⟩
      next => cases hpast
  · exact remembers_of_flushed hkept.durable hkept.proper hflushed h.remembers hnext h.steady
      h.latest hafter
  · rw [hlater k (by omega), hlater _ (by omega)]
  · rw [hlater _ (by omega)]
    exact hafter

/-- Throughout a history the store remembers the sets of all commits. -/
theorem History.traced (h : History book commits s) :
    ∃ last c held, s.Kept book last c ∧ Traced commits s last held := by
  induction h with
  | genesis h hbook =>
      obtain ⟨c, hkept⟩ := kept_of_fromGenesis h hbook
      obtain ⟨held, htraced⟩ := traced_of_fromGenesis h hkept
      exact ⟨c, c, held, hkept, htraced⟩
  | written _ hallowed hnext ih =>
      obtain ⟨last, c, held, hkept, htraced⟩ := ih
      exact ⟨last, _, held, hkept.write hallowed hnext, htraced.write _⟩
  | committed _ hcommit ih =>
      obtain ⟨last, c, held, hkept, htraced⟩ := ih
      obtain ⟨held', htraced'⟩ := htraced.commit hkept hcommit
      exact ⟨c, c, held', hkept.commit hcommit, htraced'⟩

theorem Traced.sound (h : Traced commits s last held)
    (hsound : ∀ past ∈ commits, past.SoundlyStaked) (k : Nat) : SoundStakers (held k) := by
  have hpast : ∀ k, k ≤ s.height.toNat → SoundStakers (held k) := by
    intro k hk
    have hlength := h.length
    obtain ⟨past, hpast⟩ : ∃ past, commits[k]? = some past :=
      ⟨_, List.getElem?_eq_getElem (by omega)⟩
    obtain ⟨_, c, hmirrors, _, hheld⟩ := h.past k past hpast
    obtain ⟨read, hread, hmembers⟩ := hmirrors.shows.stakers .current
    rw [hheld.unique hmembers]
    exact hsound past (List.mem_of_getElem? hpast) read hread
  by_cases hk : k ≤ s.height.toNat
  · exact hpast k hk
  · rw [h.steady k (by omega)]
    exact hpast _ (Nat.le_refl _)

/-! ## What the past was -/

/-- A root without uncommitted changes holds what it last committed. -/
theorem Kept.stakers_eq_of_clean (h : s.Kept book last c)
    (hclean : s.hasUncommittedChanges = false) : c.stakers .current = last.stakers .current := by
  have hempty : s.registries.current.diffs.isEmpty = true := by
    simp only [hasUncommittedChanges, Registry.hasChanges, Bool.or_eq_false_iff,
      Bool.not_eq_false'] at hclean
    exact hclean.1.2
  exact (h.durable.diffs .current).eq_of_isEmpty (h.durable.slots .current)
    (h.proper.slots .current) hempty

/-- While all committed sets are sound, the set at any height up to the last one is the set that
was there right after the commit of the height. -/
theorem validatorSetAt_eq_committed (h : History book commits s)
    (hsound : ∀ past ∈ commits, past.SoundlyStaked) (hclean : s.hasUncommittedChanges = false)
    (hle : height ≤ s.height) (supernet : EntityId) :
    ∃ past entries, commits[height.toNat]? = some past ∧ past.height = height ∧
      (Ledger.root past).validatorSet supernet = .ok entries ∧
      s.validatorSetAt supernet height = .ok entries ∧
      ∃ loaded, load s.store = .ok loaded ∧ loaded.validatorSetAt supernet height = .ok entries := by
  obtain ⟨last, c, held, hkept, htraced⟩ := h.traced
  have hnat := UInt64.le_iff_toNat_le.mp hle
  have hlength := htraced.length
  have hsounds := htraced.sound hsound
  have hsame := hkept.stakers_eq_of_clean hclean
  have hone : OneValidatorPerSlot (last.stakers .current) := hkept.durable.slots .current
  obtain ⟨past, hpast⟩ : ∃ past, commits[height.toNat]? = some past :=
    ⟨_, List.getElem?_eq_getElem (by omega)⟩
  obtain ⟨hheight, cpast, hmirrors, honePast, hheld⟩ := htraced.past _ past hpast
  obtain ⟨entries, hentries, hlists⟩ :=
    Ledger.validatorSet_eq_ok hmirrors.shows honePast hheld (hsounds _) supernet
  obtain ⟨live, hlive, hlistsLive⟩ := validatorSetAt_eq_ok hkept.durable.toMirrors
    (hkept.proper.slots .current) hclean hkept.durable.keyed htraced.remembers hsounds
    (hsame ▸ htraced.latest) hle supernet
  obtain ⟨loaded, hload, hstore, hloadedHeight, hloadedClean, hloadedMirrors⟩ := hkept.reloads
  obtain ⟨again, hagain, hlistsAgain⟩ := validatorSetAt_eq_ok hloadedMirrors hone hloadedClean
    (hstore ▸ hkept.durable.keyed) (hstore ▸ htraced.remembers) hsounds
    (hloadedHeight ▸ htraced.latest) (hloadedHeight ▸ hle) supernet
  refine ⟨past, entries, hpast, UInt64.toNat_inj.mp hheight, hentries, ?_, loaded, hload, ?_⟩
  · rw [hlive, hlistsLive.unique hlists]
  · rw [hagain, hlistsAgain.unique hlists]

/-- The set of the genesis, read at height one, where a delegator was put on its validator. -/
theorem validatorSetAt_solo : ∃ s, History soloBook [State.solo, s] s ∧
    (∀ past ∈ [State.solo, s], past.SoundlyStaked) ∧ s.hasUncommittedChanges = false ∧
    0 ≤ s.height ∧
    ∃ past entries, [State.solo, s][(0 : UInt64).toNat]? = some past ∧ past.height = 0 ∧
      (Ledger.root past).validatorSet .primaryNetwork = .ok entries ∧
      s.validatorSetAt .primaryNetwork 0 = .ok entries ∧
      ∃ loaded, load s.store = .ok loaded ∧
        loaded.validatorSetAt .primaryNetwork 0 = .ok entries := by
  have hcommits : ((State.solo.write (.putDelegator .current soloDelegator)).commit 1).map
      (fun s => (s.hasUncommittedChanges, s.registries.current.stakers.values)) =
        .ok (false, [soloDelegator, currentStaker soloTx 1]) := by
    decide +kernel
  obtain ⟨s, hcommit, hread⟩ := map_eq_ok_iff.mp hcommits
  obtain ⟨hclean, hstakers⟩ := Prod.mk.inj hread
  have hsound : ∀ past ∈ [State.solo, s], past.SoundlyStaked := by
    intro past hpast held hheld
    change Except.ok past.registries.current.all.walkAll = Except.ok held at hheld
    rw [StakerSeq.walkAll_eq_toList, Registry.all, StakerSeq.toList_ofTree] at hheld
    cases hheld
    rcases List.mem_cons.mp hpast with rfl | hpast
    · exact SoundStakers.of_total (by decide +kernel) (by decide +kernel) (by decide +kernel)
    · rw [List.mem_singleton.mp hpast, hstakers]
      exact SoundStakers.of_total (by decide +kernel) (by decide +kernel) (by decide +kernel)
  exact ⟨s, .committed history_solo hcommit, hsound, hclean, UInt64.zero_le,
    validatorSetAt_eq_committed (.committed history_solo hcommit) hsound hclean UInt64.zero_le _⟩

end State

end StakingLedger
