import StakingLedger.Proofs.Ledger.Contents

/-! # What held back record writes mean

Record writes that wait, in the root for the next commit or in a layer for its
fold, stand between the records below and the records that are read. Each
further write changes what is read as it should and leaves the records below.
-/

namespace StakingLedger

/-- A value that is held back, or else the answer below. -/
def overlaid {α : Type} (held : Option α) (below : Answer α) : Answer α :=
  match held with
  | some a => .ok a
  | none => below

@[simp] theorem overlaid_some {α : Type} (a : α) (below : Answer α) :
    overlaid (some a) below = .ok a :=
  rfl

@[simp] theorem overlaid_none {α : Type} (below : Answer α) : overlaid none below = below := rfl

section KeyedAnswers

variable {α β γ : Type} [Ord α] [DecidableEq α] [Std.TransOrd α] [Std.LawfulEqOrd α]

/-- Setting one key of a map over some answers updates what is read under that key only. -/
theorem overlaid_map_insert {m : OrderedMap α β} {f : β → γ} {below above : α → Answer γ}
    (h : ∀ k, above k = overlaid ((m.get? k).map f) (below k)) (k : α) (v : β) (k' : α) :
    Function.update above k (.ok (f v)) k' =
      overlaid (((m.insert k v).get? k').map f) (below k') := by
  by_cases hk : k' = k
  · subst hk
    rw [Function.update_self, OrderedMap.get?_insert_self]
    rfl
  · rw [Function.update_of_ne hk, OrderedMap.get?_insert_ne _ _ hk, h]

theorem overlaid_insert {m : OrderedMap α β} {below above : α → Answer β}
    (h : ∀ k, above k = overlaid (m.get? k) (below k)) (k : α) (v : β) (k' : α) :
    Function.update above k (.ok v) k' = overlaid ((m.insert k v).get? k') (below k') := by
  have hmap : ∀ k, above k = overlaid ((m.get? k).map id) (below k) := by simpa using h
  simpa using overlaid_map_insert hmap k v k'

end KeyedAnswers

namespace RecordEdits

/-- The chains of a supernet that are held back. -/
def heldChains (e : RecordEdits) (supernet : EntityId) : OrderedMap EntityId ChainRecord :=
  (e.chains.get? supernet).getD .empty

/-- The reward outputs of a staking transaction that are held back. -/
def heldRewards (e : RecordEdits) (stakerTx : EntityId) : List Utxo :=
  (e.rewardUtxos.get? stakerTx).getD []

/-- The edits lead from the records below to the ones that are read. -/
structure Carries (e : RecordEdits) (below above : Records) : Prop where
  utxo : ∀ id, above.utxo id = overlaid (e.utxos.get? id) (below.utxo id)
  rewardUtxos : ∀ stakerTx,
    above.rewardUtxos stakerTx = (below.rewardUtxos stakerTx).map (· ++ e.heldRewards stakerTx)
  supernet : ∀ id, above.supernet id = overlaid ((e.supernets.get? id).map some) (below.supernet id)
  transformation : ∀ id,
    above.transformation id = overlaid ((e.transformations.get? id).map some) (below.transformation id)
  chains : ∀ supernet,
    above.chains supernet =
      (below.chains supernet).map (·.insertMany (e.heldChains supernet).entries)
  tx : ∀ id, above.tx id = overlaid ((e.txs.get? id).map some) (below.tx id)

/-- Every record is held under its own identifier. -/
structure Filed (e : RecordEdits) : Prop where
  utxos : ∀ id utxo, e.utxos.get? id = some (some utxo) → utxo.id = id
  supernets : ∀ id supernet, e.supernets.get? id = some supernet → supernet.id = id
  transformations : ∀ id t, e.transformations.get? id = some t → t.supernetId = id
  chains : ∀ supernet id chain, (e.heldChains supernet).get? id = some chain →
    chain.id = id ∧ chain.supernetId = supernet
  txs : ∀ id tx, e.txs.get? id = some tx → tx.1.id = id

variable {e : RecordEdits} {below above : Records}

theorem heldChains_addChain (e : RecordEdits) (chain : ChainRecord) (supernet : EntityId) :
    (e.addChain chain).heldChains supernet =
      if supernet = chain.supernetId then (e.heldChains supernet).insert chain.id chain
      else e.heldChains supernet := by
  unfold heldChains addChain
  split
  next heq =>
    subst heq
    rw [OrderedMap.get?_insert_self, Option.getD_some]
  next hne => rw [OrderedMap.get?_insert_ne _ _ hne]

/-- One more chain is new below, if it was not registered there either. -/
theorem get?_eq_none_of_addChain {e : RecordEdits} {chain : ChainRecord} {supernet id : EntityId}
    {held : OrderedMap EntityId ChainRecord}
    (h : (e.heldChains supernet).contains id = true → held.get? id = none)
    (hnew : supernet = chain.supernetId → held.get? chain.id = none)
    (hcontains : ((e.addChain chain).heldChains supernet).contains id = true) :
    held.get? id = none := by
  rw [heldChains_addChain] at hcontains
  split at hcontains
  next heq =>
    by_cases hid : id = chain.id
    · rw [hid]
      exact hnew heq
    · rw [OrderedMap.contains, OrderedMap.get?_insert_ne _ _ hid] at hcontains
      exact h hcontains
  next => exact h hcontains

theorem heldRewards_addRewardUtxo (e : RecordEdits) (stakerTx : EntityId) (utxo : Utxo)
    (stakerTx' : EntityId) :
    (e.addRewardUtxo stakerTx utxo).heldRewards stakerTx' =
      if stakerTx' = stakerTx then e.heldRewards stakerTx' ++ [utxo]
      else e.heldRewards stakerTx' := by
  unfold heldRewards addRewardUtxo
  split
  next heq =>
    subst heq
    rw [OrderedMap.get?_insert_self, Option.getD_some]
  next hne => rw [OrderedMap.get?_insert_ne _ _ hne]

/-- A reward output that is held back comes after those that were read so far. -/
theorem rewards_addRewardUtxo {e : RecordEdits} {below above : EntityId → Answer (List Utxo)}
    (h : ∀ id, above id = (below id).map (· ++ e.heldRewards id)) (stakerTx : EntityId)
    (utxo : Utxo) (id : EntityId) :
    Function.update above stakerTx ((above stakerTx).map (· ++ [utxo])) id =
      (below id).map (· ++ (e.addRewardUtxo stakerTx utxo).heldRewards id) := by
  rw [heldRewards_addRewardUtxo]
  by_cases heq : id = stakerTx
  · subst heq
    rw [if_pos rfl, Function.update_self, h]
    cases below id <;> simp [Except.map]
  · rw [if_neg heq, Function.update_of_ne heq, h]

namespace Carries

theorem refl (below : Records) : Carries {} below below where
  utxo _ := rfl
  rewardUtxos stakerTx := by
    cases hbelow : below.rewardUtxos stakerTx with
    | error e => rfl
    | ok paid => simp [heldRewards, Except.map]
  supernet _ := rfl
  transformation _ := rfl
  chains supernet := by
    cases hbelow : below.chains supernet with
    | error e => rfl
    | ok held => rfl
  tx _ := rfl

theorem setUtxo (h : e.Carries below above) (id : UtxoId) (utxo : Option Utxo) :
    (e.setUtxo id utxo).Carries below
      { above with utxo := Function.update above.utxo id (.ok utxo) } where
  __ := h
  utxo := overlaid_insert h.utxo id utxo

theorem addRewardUtxo (h : e.Carries below above) (stakerTx : EntityId) (utxo : Utxo) :
    (e.addRewardUtxo stakerTx utxo).Carries below
      { above with
        rewardUtxos := Function.update above.rewardUtxos stakerTx
          ((above.rewardUtxos stakerTx).map (· ++ [utxo])) } where
  __ := h
  rewardUtxos := rewards_addRewardUtxo h.rewardUtxos stakerTx utxo

theorem addSupernet (h : e.Carries below above) (supernet : SupernetRecord) :
    (e.addSupernet supernet).Carries below
      { above with
        supernet := Function.update above.supernet supernet.id (.ok (some supernet)) } where
  __ := h
  supernet := overlaid_map_insert h.supernet supernet.id supernet

theorem addTransformation (h : e.Carries below above) (t : SupernetTransformation) :
    (e.addTransformation t).Carries below
      { above with
        transformation := Function.update above.transformation t.supernetId (.ok (some t)) } where
  __ := h
  transformation := overlaid_map_insert h.transformation t.supernetId t

theorem addChain (h : e.Carries below above) (chain : ChainRecord) :
    (e.addChain chain).Carries below
      { above with
        chains := Function.update above.chains chain.supernetId
          ((above.chains chain.supernetId).map (·.insert chain.id chain)) } where
  __ := h
  chains supernet := by
    rw [heldChains_addChain]
    dsimp only
    by_cases heq : supernet = chain.supernetId
    · subst heq
      rw [if_pos rfl, Function.update_self, h.chains]
      cases below.chains chain.supernetId with
      | error e => rfl
      | ok held => exact congrArg Except.ok (held.insertMany_insert _ chain.id chain).symm
    · rw [if_neg heq, Function.update_of_ne heq, h.chains]

theorem addTx (h : e.Carries below above) (tx : StoredTx) (status : TxStatus) :
    (e.addTx tx status).Carries below
      { above with tx := Function.update above.tx tx.id (.ok (some (tx, status))) } where
  __ := h
  tx := overlaid_map_insert h.tx tx.id (tx, status)

end Carries

namespace Filed

theorem empty : Filed {} where
  utxos _ _ h := by cases h
  supernets _ _ h := by cases h
  transformations _ _ h := by cases h
  chains _ _ _ h := by cases h
  txs _ _ h := by cases h

/-- Storing a value that belongs under a key keeps every value where it belongs. -/
theorem of_insert {α β : Type} [Ord α] [Std.TransOrd α] [Std.LawfulEqOrd α] [DecidableEq α]
    {m : OrderedMap α β} (belongs : α → β → Prop) (h : ∀ k v, m.get? k = some v → belongs k v)
    {k : α} {v : β} (hv : belongs k v) (k' : α) (v' : β)
    (hget : (m.insert k v).get? k' = some v') : belongs k' v' := by
  by_cases hk : k' = k
  · subst hk
    rw [OrderedMap.get?_insert_self, Option.some.injEq] at hget
    exact hget ▸ hv
  · rw [OrderedMap.get?_insert_ne _ _ hk] at hget
    exact h k' v' hget

theorem addUtxo (h : e.Filed) (utxo : Utxo) : (e.setUtxo utxo.id (some utxo)).Filed where
  __ := h
  utxos id found hget := of_insert
    (fun id held => ∀ found, held = some found → found.id = id)
    (fun id held hget found hfound => h.utxos id found (hfound ▸ hget))
    (by rintro found ⟨⟩; rfl) id (some found) hget found rfl

theorem deleteUtxo (h : e.Filed) (id : UtxoId) : (e.setUtxo id none).Filed where
  __ := h
  utxos id' found hget := of_insert
    (fun id held => ∀ found, held = some found → found.id = id)
    (fun id held hget found hfound => h.utxos id found (hfound ▸ hget))
    (by rintro found ⟨⟩) id' (some found) hget found rfl

theorem addRewardUtxo (h : e.Filed) (stakerTx : EntityId) (utxo : Utxo) :
    (e.addRewardUtxo stakerTx utxo).Filed :=
  { h with }

theorem addSupernet (h : e.Filed) (supernet : SupernetRecord) :
    (e.addSupernet supernet).Filed where
  __ := h
  supernets := of_insert _ h.supernets rfl

theorem addTransformation (h : e.Filed) (t : SupernetTransformation) :
    (e.addTransformation t).Filed where
  __ := h
  transformations := of_insert _ h.transformations rfl

theorem addChain (h : e.Filed) (chain : ChainRecord) : (e.addChain chain).Filed where
  __ := h
  chains supernet := by
    rw [heldChains_addChain]
    split
    next heq => exact of_insert _ (h.chains supernet) ⟨rfl, heq.symm⟩
    next => exact h.chains supernet

theorem addTx (h : e.Filed) (tx : StoredTx) (status : TxStatus) : (e.addTx tx status).Filed where
  __ := h
  txs := of_insert _ h.txs rfl

end Filed

/-! ## The writes of records -/

/-- Holds back the write of a record; the other writes leave the records alone. -/
def record (e : RecordEdits) : Write → RecordEdits
  | .addUtxo utxo => e.setUtxo utxo.id (some utxo)
  | .deleteUtxo id => e.setUtxo id none
  | .addRewardUtxo stakerTx utxo => e.addRewardUtxo stakerTx utxo
  | .addSupernet supernet => e.addSupernet supernet
  | .addTransformation t => e.addTransformation t
  | .addChain chain => e.addChain chain
  | .addTx tx status => e.addTx tx status
  | _ => e

variable {c : Contents}

theorem Carries.record (h : e.Carries below c.toRecords) (w : Write) :
    (e.record w).Carries below (c.write w).toRecords := by
  cases w with
  | addUtxo utxo => exact h.setUtxo utxo.id (some utxo)
  | deleteUtxo id => exact h.setUtxo id none
  | addRewardUtxo stakerTx utxo => exact h.addRewardUtxo stakerTx utxo
  | addSupernet supernet => exact h.addSupernet supernet
  | addTransformation t => exact h.addTransformation t
  | addChain chain => exact h.addChain chain
  | addTx tx status => exact h.addTx tx status
  | _ => exact h

theorem Filed.record (h : e.Filed) (w : Write) : (e.record w).Filed := by
  cases w with
  | addUtxo utxo => exact h.addUtxo utxo
  | deleteUtxo id => exact h.deleteUtxo id
  | addRewardUtxo stakerTx utxo => exact h.addRewardUtxo stakerTx utxo
  | addSupernet supernet => exact h.addSupernet supernet
  | addTransformation t => exact h.addTransformation t
  | addChain chain => exact h.addChain chain
  | addTx tx status => exact h.addTx tx status
  | _ => exact h

end RecordEdits

end StakingLedger
