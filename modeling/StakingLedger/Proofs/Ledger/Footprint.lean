import StakingLedger.Proofs.Ledger.Arising
import StakingLedger.Proofs.Ledger.StakerReplay

/-! # The footprints of writes

Each write of a record or a balance changes one answer of the ledger, whatever the
ledger holds, and a staker that is put into a phase changes what is read of that phase
only. Nothing is asked of the caller here, save that a new chain is new.
-/

namespace StakingLedger

open OrderedMap

/-- The view with what another view tells of the stakers of a phase. -/
def View.withStakersOf (v other : View) (phase : Phase) : View :=
  { v with
    validator := Function.update v.validator phase (other.validator phase)
    delegators := Function.update v.delegators phase (other.delegators phase)
    stakers := Function.update v.stakers phase (other.stakers phase) }

namespace Ledger

variable (l : Ledger)

/-! ## Balances and records -/

/-- A balance that is set is the answer for its network and for no other. -/
theorem balances_write (supernet : EntityId) (amount : UInt64) :
    (l.write (.setSupply supernet amount)).supply =
        Function.update l.supply supernet (.ok amount) ∧
      (l.write (.setRewardPool supernet amount)).rewardPool =
        Function.update l.rewardPool supernet (.ok amount) := by
  constructor <;> refine Function.eq_update_iff.mpr ⟨?_, fun id hid => ?_⟩ <;> cases l <;>
    simp [supply, rewardPool, write, State.write, State.supply, State.rewardPool, orNotFound,
      Changes.write, get?_insert_ne, *]

theorem view_setSupply (supernet : EntityId) (amount : UInt64) :
    (l.write (.setSupply supernet amount)).view =
      { l.view with supply := Function.update l.view.supply supernet (.ok amount) } := by
  have hread := (l.balances_write supernet amount).1
  cases l <;> exact View.ext rfl rfl hread rfl rfl rfl rfl rfl rfl rfl rfl rfl rfl

theorem view_setRewardPool (supernet : EntityId) (amount : UInt64) :
    (l.write (.setRewardPool supernet amount)).view =
      { l.view with rewardPool := Function.update l.view.rewardPool supernet (.ok amount) } := by
  have hread := (l.balances_write supernet amount).2
  cases l <;> exact View.ext rfl rfl rfl hread rfl rfl rfl rfl rfl rfl rfl rfl rfl

theorem view_addUtxo (utxo : Utxo) :
    (l.write (.addUtxo utxo)).view =
      { l.view with utxo := Function.update l.view.utxo utxo.id (.ok (some utxo)) } := by
  have hread : (l.write (.addUtxo utxo)).utxo =
      Function.update l.utxo utxo.id (.ok (some utxo)) := by
    refine Function.eq_update_iff.mpr ⟨?_, fun k hk => ?_⟩ <;> cases l <;>
      simp [Ledger.utxo, write, State.write, State.edit, State.utxo, State.stored, Changes.write,
        Changes.edit, RecordEdits.setUtxo, get?_insert_self, get?_insert_ne, *]
  cases l <;> exact View.ext rfl rfl rfl rfl rfl rfl rfl hread rfl rfl rfl rfl rfl

/-- A reward output comes after those that were recorded so far. -/
theorem view_addRewardUtxo (stakerTx : EntityId) (utxo : Utxo) :
    (l.write (.addRewardUtxo stakerTx utxo)).view =
      { l.view with
        rewardUtxos := Function.update l.view.rewardUtxos stakerTx
          ((l.view.rewardUtxos stakerTx).map (· ++ [utxo])) } := by
  have hread : (l.write (.addRewardUtxo stakerTx utxo)).rewardUtxos =
      Function.update l.rewardUtxos stakerTx ((l.rewardUtxos stakerTx).map (· ++ [utxo])) := by
    funext id
    cases l with
    | root s =>
        have hread : ∀ id, s.rewardUtxos id =
            (s.persisted.rewardUtxos id).map (· ++ s.unflushed.edits.heldRewards id) := fun _ => rfl
        exact (RecordEdits.rewards_addRewardUtxo hread stakerTx utxo id).symm
    | layer parent parentId reachable c =>
        have hread : ∀ id, (layer parent parentId reachable c).rewardUtxos id =
            (throughParent parentId reachable (parent.rewardUtxos id)).map
              (· ++ c.edits.heldRewards id) := fun _ => rfl
        exact (RecordEdits.rewards_addRewardUtxo hread stakerTx utxo id).symm
  cases l <;> exact View.ext rfl rfl rfl rfl rfl rfl rfl rfl hread rfl rfl rfl rfl

theorem view_addSupernet (supernet : SupernetRecord) :
    (l.write (.addSupernet supernet)).view =
      { l.view with
        supernet := Function.update l.view.supernet supernet.id (.ok (some supernet)) } := by
  have hread : (l.write (.addSupernet supernet)).supernet =
      Function.update l.supernet supernet.id (.ok (some supernet)) := by
    refine Function.eq_update_iff.mpr ⟨?_, fun k hk => ?_⟩ <;> cases l <;>
      simp [Ledger.supernet, write, State.write, State.edit, State.supernet, State.stored,
        Changes.write, Changes.edit, RecordEdits.addSupernet, get?_insert_self, get?_insert_ne, *]
  cases l <;> exact View.ext rfl rfl rfl rfl rfl rfl rfl rfl rfl hread rfl rfl rfl

theorem view_addTransformation (t : SupernetTransformation) :
    (l.write (.addTransformation t)).view =
      { l.view with
        transformation :=
          Function.update l.view.transformation t.supernetId (.ok (some t)) } := by
  have hread : (l.write (.addTransformation t)).transformation =
      Function.update l.transformation t.supernetId (.ok (some t)) := by
    refine Function.eq_update_iff.mpr ⟨?_, fun k hk => ?_⟩ <;> cases l <;>
      simp [transformation, write, State.write, State.edit, State.transformation, State.stored,
        Changes.write, Changes.edit, RecordEdits.addTransformation, get?_insert_self,
        get?_insert_ne, *]
  cases l <;> exact View.ext rfl rfl rfl rfl rfl rfl rfl rfl rfl rfl hread rfl rfl

theorem view_addTx (tx : StoredTx) (status : TxStatus) :
    (l.write (.addTx tx status)).view =
      { l.view with tx := Function.update l.view.tx tx.id (.ok (some (tx, status))) } := by
  have hread : (l.write (.addTx tx status)).tx =
      Function.update l.tx tx.id (.ok (some (tx, status))) := by
    refine Function.eq_update_iff.mpr ⟨?_, fun k hk => ?_⟩ <;> cases l <;>
      simp [Ledger.tx, write, State.write, State.edit, State.tx, State.stored, Changes.write,
        Changes.edit, RecordEdits.addTx, get?_insert_self, get?_insert_ne, *]
  cases l <;> exact View.ext rfl rfl rfl rfl rfl rfl rfl rfl rfl rfl rfl rfl hread

/-- A staker that is put changes nothing outside of its phase. -/
theorem view_put (phase : Phase) (s : Staker) :
    (l.write (.put phase s)).view = l.view.withStakersOf (l.write (.put phase s)).view phase := by
  unfold Write.put
  cases l <;> cases phase <;> split <;>
    (apply View.ext <;> first | rfl | (funext phase; cases phase <;> rfl))

end Ledger

/-! ## Chains -/

theorem State.chains_eq (s : State) (supernet : EntityId) :
    s.chains supernet = (s.persisted.chains supernet).map fun stored =>
      (stored.insertMany (s.unflushed.edits.heldChains supernet).entries).values := by
  unfold State.chains State.persisted
  dsimp only
  cases (s.storedAll (KeySpace.chain.idKey supernet) "chain" : Answer (List ChainRecord)) <;> rfl

namespace State.Filed

variable {s : State} {supernet : EntityId} {stored : OrderedMap EntityId ChainRecord}

/-- The stored chains of a supernet and those that wait for a commit stand under their own
identifiers. -/
theorem chains_keyed (h : s.Filed) (hread : s.persisted.chains supernet = .ok stored)
    (id : EntityId) (chain : ChainRecord)
    (hget : (stored.insertMany (s.unflushed.edits.heldChains supernet).entries).get? id =
      some chain) : chain.id = id := by
  rw [get?_insertMany_entries, Option.or_eq_some_iff] at hget
  rcases hget with hheld | ⟨_, hstored⟩
  · exact (h.edits.chains supernet id chain hheld).1
  · exact s.persisted_chains_filed hread id chain hstored

theorem chains_addChain (h : s.Filed) {chain : ChainRecord} {held : List ChainRecord}
    (hread : s.chains chain.supernetId = .ok held) (hnew : ∀ c ∈ held, c.id ≠ chain.id) :
    (s.write (.addChain chain)).chains =
      Function.update s.chains chain.supernetId (.ok (Ledger.insertChain chain held)) := by
  have hwritten : ∀ supernet, (s.write (.addChain chain)).chains supernet =
      (s.persisted.chains supernet).map fun stored =>
        (stored.insertMany ((s.unflushed.edits.addChain chain).heldChains supernet).entries).values :=
    fun supernet => State.chains_eq _ supernet
  rw [s.chains_eq] at hread
  obtain ⟨stored, hstored, rfl⟩ := map_eq_ok_iff.mp hread
  refine Function.eq_update_iff.mpr ⟨?_, fun supernet hne => ?_⟩
  · have hnone : (stored.insertMany
        (s.unflushed.edits.heldChains chain.supernetId).entries).get? chain.id = none := by
      refine Option.eq_none_iff_forall_ne_some.mpr fun found hfound => ?_
      exact hnew found (mem_values_iff.mpr ⟨_, hfound⟩) (h.chains_keyed hstored _ _ hfound)
    rw [hwritten, hstored, RecordEdits.heldChains_addChain, if_pos rfl]
    refine congrArg Except.ok ?_
    dsimp only
    rw [insertMany_insert, Ledger.values_insert_chain (h.chains_keyed hstored) hnone]
  · rw [hwritten, s.chains_eq, RecordEdits.heldChains_addChain, if_neg hne]

end State.Filed

namespace Ledger

variable {l : Ledger} {supernet : EntityId} {held : List ChainRecord} {chain : ChainRecord}

/-- The chains of a supernet are answered in the order of their identifiers. -/
theorem Filed.chains_ordered (h : l.Filed) (hread : l.chains supernet = .ok held) :
    Ordered held := by
  induction l generalizing held with
  | root s =>
      change s.chains supernet = _ at hread
      rw [s.chains_eq] at hread
      obtain ⟨stored, hstored, rfl⟩ := map_eq_ok_iff.mp hread
      exact (indexes_chains (State.Filed.chains_keyed h hstored)).enumerates.sorted.imp
        fun hlt => by rw [hlt]; rfl
  | layer parent id reachable c ih =>
      obtain ⟨below, hbelow, hheld⟩ := bind_eq_ok_iff.mp hread
      cases reachable with
      | false => cases hbelow
      | true =>
          split at hheld
          · cases hheld
            exact ih h.1 hbelow
          · cases hheld
            exact ordered_foldl_insertChain _ List.Pairwise.nil

/-- What a layer answers about chains: those below and its own, one put in its place after the
other. -/
theorem Filed.chains_layer {parent : Ledger} {id : EntityId} {reachable : Bool} {c : Changes}
    (h : parent.Filed) (supernet : EntityId) :
    (layer parent id reachable c).chains supernet =
      (throughParent id reachable (parent.chains supernet)).map fun below =>
        (c.edits.heldChains supernet).values.foldl (fun sorted x => insertChain x sorted)
          below := by
  cases hbelow : throughParent id reachable (parent.chains supernet) with
  | error e =>
      rw [chains, hbelow]
      rfl
  | ok below =>
      have hordered : Ordered below := by
        cases reachable with
        | false => cases hbelow
        | true => exact h.chains_ordered hbelow
      have hsame := foldl_insertChain_of_ordered below [] hordered
      rw [chains, hbelow, RecordEdits.heldChains]
      cases c.edits.chains.get? supernet with
      | none => rfl
      | some own =>
          change Except.ok ((below ++ own.values).foldl _ []) = Except.ok (own.values.foldl _ below)
          rw [List.foldl_append, hsame, List.nil_append]

theorem Filed.chains_addChain (h : l.Filed) (hread : l.chains chain.supernetId = .ok held)
    (hnew : ∀ c ∈ held, c.id ≠ chain.id) :
    (l.write (.addChain chain)).chains =
      Function.update l.chains chain.supernetId (.ok (insertChain chain held)) := by
  cases l with
  | root s => exact State.Filed.chains_addChain h hread hnew
  | layer parent id reachable c =>
      have hwritten : ∀ supernet,
          ((layer parent id reachable c).write (.addChain chain)).chains supernet =
            (throughParent id reachable (parent.chains supernet)).map fun below =>
              ((c.edits.addChain chain).heldChains supernet).values.foldl
                (fun sorted x => insertChain x sorted) below :=
        fun supernet => h.1.chains_layer supernet
      rw [h.1.chains_layer] at hread
      obtain ⟨below, hbelow, rfl⟩ := map_eq_ok_iff.mp hread
      refine Function.eq_update_iff.mpr ⟨?_, fun supernet hne => ?_⟩
      · have hkeyed := fun id found hget => (h.2.edits.chains chain.supernetId id found hget).1
        have hown : ∀ x ∈ (c.edits.heldChains chain.supernetId).values, x.id ≠ chain.id :=
          fun x hx => hnew x ((foldl_insertChain_perm _ _).mem_iff.mpr (List.mem_append_left _ hx))
        have hnone : (c.edits.heldChains chain.supernetId).get? chain.id = none := by
          refine Option.eq_none_iff_forall_ne_some.mpr fun found hfound => ?_
          exact hown found (mem_values_iff.mpr ⟨_, hfound⟩) (hkeyed _ _ hfound)
        rw [hwritten, hbelow, RecordEdits.heldChains_addChain, if_pos rfl]
        refine congrArg Except.ok ?_
        dsimp only
        rw [values_insert_chain hkeyed hnone, foldl_insertChain_insertChain _ _ hown]
      · rw [hwritten, h.1.chains_layer, RecordEdits.heldChains_addChain, if_neg hne]

/-- A chain that is new to its supernet is put in its place among the others. -/
theorem Filed.view_addChain (h : l.Filed) (hread : l.chains chain.supernetId = .ok held)
    (hnew : ∀ c ∈ held, c.id ≠ chain.id) :
    (l.write (.addChain chain)).view =
      { l.view with
        chains := Function.update l.view.chains chain.supernetId
          (.ok (insertChain chain held)) } := by
  have hchains := h.chains_addChain hread hnew
  cases l <;> exact View.ext rfl rfl rfl rfl rfl rfl rfl rfl rfl rfl rfl hchains rfl

end Ledger

end StakingLedger
