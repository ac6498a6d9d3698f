import StakingLedger.Ledger.Basic
import StakingLedger.Proofs.OrderedMap.Index

/-! # The chains of a layer in order

A layer shows the chains of a supernet as those below together with its own,
put in the order of their identifiers. Where the layer's chains are new to the
supernet this is the same list that one map of all of them gives.
-/

namespace StakingLedger.Ledger

theorem insertChain_perm (chain : ChainRecord) (chains : List ChainRecord) :
    (insertChain chain chains).Perm (chain :: chains) := by
  induction chains with
  | nil => exact List.Perm.refl _
  | cons c rest ih =>
      unfold insertChain
      split
      · exact (ih.cons c).trans (List.Perm.swap chain c rest)
      · exact List.Perm.refl _

/-- The order of the chains that a ledger answers; some may be of the same identifier. -/
def Ordered (chains : List ChainRecord) : Prop :=
  chains.Pairwise fun a b => (compare a.id b.id).isLE = true

theorem ordered_insertChain {chains : List ChainRecord} (h : Ordered chains)
    (chain : ChainRecord) : Ordered (insertChain chain chains) := by
  induction chains with
  | nil => exact List.pairwise_singleton _ _
  | cons c rest ih =>
      obtain ⟨hhead, htail⟩ := List.pairwise_cons.mp h
      unfold insertChain
      split
      next hle =>
        refine List.pairwise_cons.mpr ⟨fun d hd => ?_, ih htail⟩
        rcases List.mem_cons.mp ((insertChain_perm chain rest).mem_iff.mp hd) with rfl | hd
        · exact hle
        · exact hhead d hd
      next hgt =>
        have hle : (compare chain.id c.id).isLE = true := by
          rw [Bool.not_eq_true, Ordering.isLE_eq_false] at hgt
          rw [Std.OrientedCmp.lt_of_gt hgt]
          rfl
        refine List.pairwise_cons.mpr ⟨fun d hd => ?_, h⟩
        rcases List.mem_cons.mp hd with rfl | hd
        · exact hle
        · exact Std.TransCmp.isLE_trans hle (hhead d hd)

/-- Chains that are told apart stand in strict order once they stand in order. -/
theorem sorted_insertChain {chain : ChainRecord} {chains : List ChainRecord}
    (h : chains.Pairwise fun a b => compare a.id b.id = .lt)
    (hnew : ∀ c ∈ chains, c.id ≠ chain.id) :
    (insertChain chain chains).Pairwise fun a b => compare a.id b.id = .lt := by
  have hordered := ordered_insertChain (h.imp fun hlt => by rw [hlt]; rfl) chain
  have hdistinct : (chain :: chains).Pairwise fun a b => a.id ≠ b.id :=
    List.pairwise_cons.mpr ⟨fun c hc => (hnew c hc).symm, h.imp OrderedMap.ne_of_compare_lt⟩
  have happart := ((insertChain_perm chain chains).pairwise_iff fun hne => Ne.symm hne).mpr hdistinct
  refine hordered.imp₂ (fun a b hle hne => ?_) happart
  cases hcmp : compare a.id b.id with
  | lt => rfl
  | eq => exact absurd (Std.LawfulEqCmp.eq_of_compare hcmp) hne
  | gt => rw [hcmp] at hle; cases hle

theorem foldl_insertChain_perm (chains sorted : List ChainRecord) :
    (chains.foldl (fun sorted x => insertChain x sorted) sorted).Perm (chains ++ sorted) := by
  induction chains generalizing sorted with
  | nil => exact List.Perm.refl _
  | cons c rest ih =>
      exact (ih _).trans
        ((List.Perm.append_left rest (insertChain_perm c sorted)).trans List.perm_middle)

/-- Sorting chains one by one, after some that are sorted already. -/
theorem sorted_foldl_insertChain (chains sorted : List ChainRecord)
    (h : sorted.Pairwise fun a b => compare a.id b.id = .lt)
    (hapart : ∀ c ∈ chains, ∀ d ∈ sorted, d.id ≠ c.id)
    (hdistinct : chains.Pairwise fun a b => a.id ≠ b.id) :
    (chains.foldl (fun sorted x => insertChain x sorted) sorted).Pairwise
      fun a b => compare a.id b.id = .lt := by
  induction chains generalizing sorted with
  | nil => exact h
  | cons c rest ih =>
      obtain ⟨hhead, htail⟩ := List.pairwise_cons.mp hdistinct
      have hsorted := sorted_insertChain h (hapart c List.mem_cons_self)
      refine ih (insertChain c sorted) hsorted (fun x hx d hd => ?_) htail
      rcases List.mem_cons.mp ((insertChain_perm c sorted).mem_iff.mp hd) with rfl | hd
      · exact hhead x hx
      · exact hapart x (List.mem_cons_of_mem _ hx) d hd

/-- A map of chains by their own identifier indexes them. -/
theorem indexes_chains {m : OrderedMap EntityId ChainRecord}
    (h : ∀ id chain, m.get? id = some chain → chain.id = id) :
    m.Indexes ChainRecord.id {chain | m.get? chain.id = some chain} := by
  intro id chain
  constructor
  · intro hget
    have hid := h id chain hget
    exact ⟨by rw [Set.mem_ofPred_eq, hid]; exact hget, hid⟩
  · rintro ⟨hget, rfl⟩
    exact hget

/-- The sorted list of the chains below and of new ones is that of one map of all. -/
theorem foldl_insertChain_eq_values {below held : OrderedMap EntityId ChainRecord}
    (hbelow : ∀ id chain, below.get? id = some chain → chain.id = id)
    (hheld : ∀ id chain, held.get? id = some chain → chain.id = id)
    (hnew : ∀ id, held.contains id = true → below.get? id = none) :
    (below.values ++ held.values).foldl (fun sorted x => insertChain x sorted) [] =
      (below.insertMany held.entries).values := by
  have hget := OrderedMap.get?_insertMany_entries below held
  have hall : ∀ id chain, (below.insertMany held.entries).get? id = some chain →
      chain.id = id := by
    intro id chain hfound
    rw [hget, Option.or_eq_some_iff] at hfound
    rcases hfound with hfound | ⟨_, hfound⟩
    · exact hheld id chain hfound
    · exact hbelow id chain hfound
  have hleft := (indexes_chains hbelow).enumerates
  have hright := (indexes_chains hheld).enumerates
  have hapart : ∀ c ∈ below.values, ∀ d ∈ held.values, c.id ≠ d.id := by
    intro c hc d hd heq
    have hfound := (hleft.mem_iff c).mp hc
    rw [Set.mem_ofPred_eq, heq] at hfound
    have hcontains : held.contains d.id = true :=
      OrderedMap.contains_eq_true_iff.mpr ⟨d, (hright.mem_iff d).mp hd⟩
    rw [hnew d.id hcontains] at hfound
    cases hfound
  have hdistinct : (below.values ++ held.values).Pairwise fun a b => a.id ≠ b.id :=
    List.pairwise_append.mpr ⟨hleft.keys_distinct, hright.keys_distinct, hapart⟩
  have hperm := foldl_insertChain_perm (below.values ++ held.values) []
  have hsorted := sorted_foldl_insertChain _ [] List.Pairwise.nil
    (fun _ _ _ hd => absurd hd List.not_mem_nil) hdistinct
  refine (Enumerates.mk hsorted fun chain => ?_ : Enumerates _ ChainRecord.id _).unique
    (indexes_chains hall).enumerates
  rw [hperm.mem_iff, List.append_nil, List.mem_append, hleft.mem_iff, hright.mem_iff]
  simp only [Set.mem_ofPred_eq, hget, Option.or_eq_some_iff]
  constructor
  · rintro (hfound | hfound)
    · refine Or.inr ⟨?_, hfound⟩
      cases hheldHas : held.get? chain.id with
      | none => rfl
      | some other =>
          rw [hnew _ (OrderedMap.contains_eq_true_iff.mpr ⟨other, hheldHas⟩)] at hfound
          cases hfound
    · exact Or.inl hfound
  · rintro (hfound | ⟨_, hfound⟩)
    · exact Or.inr hfound
    · exact Or.inl hfound

/-! ## One more chain -/

theorem ordered_foldl_insertChain (chains : List ChainRecord) {sorted : List ChainRecord}
    (h : Ordered sorted) : Ordered (chains.foldl (fun sorted x => insertChain x sorted) sorted) := by
  induction chains generalizing sorted with
  | nil => exact h
  | cons c rest ih => exact ih (ordered_insertChain h c)

/-- A chain that comes after all others is put last. -/
theorem insertChain_eq_append {chain : ChainRecord} {chains : List ChainRecord}
    (h : ∀ c ∈ chains, (compare c.id chain.id).isLE = true) :
    insertChain chain chains = chains ++ [chain] := by
  induction chains with
  | nil => rfl
  | cons c rest ih =>
      rw [insertChain, if_pos (h c List.mem_cons_self),
        ih fun d hd => h d (List.mem_cons_of_mem _ hd)]
      rfl

/-- Sorting chains that are in order leaves them as they are. -/
theorem foldl_insertChain_of_ordered (chains sorted : List ChainRecord)
    (h : Ordered (sorted ++ chains)) :
    chains.foldl (fun sorted x => insertChain x sorted) sorted = sorted ++ chains := by
  induction chains generalizing sorted with
  | nil => exact (List.append_nil sorted).symm
  | cons c rest ih =>
      have hfront := (List.pairwise_append.mp h).2.2
      rw [List.foldl_cons, insertChain_eq_append fun d hd => hfront d hd c List.mem_cons_self,
        ih _ (by rwa [List.append_assoc]), List.append_assoc]
      rfl

theorem insertChain_comm_of_lt {a b : ChainRecord} (hab : compare a.id b.id = .lt)
    (chains : List ChainRecord) :
    insertChain a (insertChain b chains) = insertChain b (insertChain a chains) := by
  have hba : compare b.id a.id = .gt := Std.OrientedCmp.gt_of_lt hab
  induction chains with
  | nil => simp [insertChain, hab, hba]
  | cons c rest ih =>
      by_cases hca : (compare c.id a.id).isLE = true
      · have hcb : (compare c.id b.id).isLE = true :=
          Std.TransCmp.isLE_trans hca (by rw [hab]; rfl)
        simp [insertChain, hca, hcb, ih]
      · by_cases hcb : (compare c.id b.id).isLE = true <;>
          simp [insertChain, hca, hcb, hab, hba]

/-- Two chains of different identifiers are put in their places in either order. -/
theorem insertChain_comm {a b : ChainRecord} (hne : a.id ≠ b.id) (chains : List ChainRecord) :
    insertChain a (insertChain b chains) = insertChain b (insertChain a chains) := by
  cases hcmp : compare a.id b.id with
  | lt => exact insertChain_comm_of_lt hcmp chains
  | eq => exact absurd (Std.LawfulEqCmp.eq_of_compare hcmp) hne
  | gt => exact (insertChain_comm_of_lt (Std.OrientedCmp.lt_of_gt hcmp) chains).symm

/-- A chain of a new identifier may be put among those that are sorted before the others are. -/
theorem foldl_insertChain_of_new {chain : ChainRecord} (chains sorted : List ChainRecord)
    (hnew : ∀ c ∈ chains, c.id ≠ chain.id) :
    chains.foldl (fun sorted x => insertChain x sorted) (insertChain chain sorted) =
      insertChain chain (chains.foldl (fun sorted x => insertChain x sorted) sorted) := by
  induction chains generalizing sorted with
  | nil => rfl
  | cons c rest ih =>
      rw [List.foldl_cons, List.foldl_cons, insertChain_comm (hnew c List.mem_cons_self),
        ih _ fun d hd => hnew d (List.mem_cons_of_mem _ hd)]

/-- A chain of a new identifier may be put in its place before the others are or after. -/
theorem foldl_insertChain_insertChain {chain : ChainRecord} (chains sorted : List ChainRecord)
    (hnew : ∀ c ∈ chains, c.id ≠ chain.id) :
    (insertChain chain chains).foldl (fun sorted x => insertChain x sorted) sorted =
      insertChain chain (chains.foldl (fun sorted x => insertChain x sorted) sorted) := by
  induction chains generalizing sorted with
  | nil => rfl
  | cons c rest ih =>
      by_cases hle : (compare c.id chain.id).isLE = true
      · rw [insertChain, if_pos hle]
        exact ih _ fun d hd => hnew d (List.mem_cons_of_mem _ hd)
      · rw [insertChain, if_neg hle]
        exact foldl_insertChain_of_new (c :: rest) sorted hnew

/-- The chains of a map with another one under an identifier that is free. -/
theorem values_insert_chain {m : OrderedMap EntityId ChainRecord} {chain : ChainRecord}
    (h : ∀ id chain, m.get? id = some chain → chain.id = id) (hnone : m.get? chain.id = none) :
    (m.insert chain.id chain).values = insertChain chain m.values := by
  have hleft := (indexes_chains h).enumerates
  have hnew : ∀ c ∈ m.values, c.id ≠ chain.id := by
    intro c hc heq
    have hget : m.get? c.id = some c := (hleft.mem_iff c).mp hc
    rw [heq, hnone] at hget
    cases hget
  have hinsert : (m.insert chain.id chain).Indexes ChainRecord.id
      (insert chain {c | m.get? c.id = some c}) :=
    (indexes_chains h).insert fun c hc heq => absurd heq (hnew c ((hleft.mem_iff c).mpr hc))
  refine hinsert.enumerates.unique ⟨sorted_insertChain hleft.sorted hnew, fun c => ?_⟩
  rw [(insertChain_perm chain m.values).mem_iff, List.mem_cons, hleft.mem_iff]
  rfl

end StakingLedger.Ledger
