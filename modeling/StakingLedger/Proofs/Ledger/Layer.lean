import StakingLedger.Proofs.Ledger.ChainOrder
import StakingLedger.Proofs.Ledger.Edits
import StakingLedger.Proofs.Ledger.View
import StakingLedger.Proofs.Registry.Layering

/-! # What a layer contains

The changes of a layer lead from the contents of its parent to its own. A
stack of layers contains what its changes make, one after the other, of the
contents of the root, and its view shows just that. What the root has to
satisfy is a parameter here.
-/

namespace StakingLedger

namespace ByPhase

variable {α : Type}

@[simp] theorem get_update_self (values : ByPhase α) (phase : Phase) (f : α → α) :
    (values.update phase f).get phase = f (values.get phase) := by
  cases phase <;> rfl

theorem get_update_ne (values : ByPhase α) {phase phase' : Phase} (f : α → α)
    (h : phase' ≠ phase) : (values.update phase f).get phase' = values.get phase' := by
  cases phase <;> cases phase' <;> first | rfl | exact absurd rfl h

/-- Changing the value of one phase together with the stakers of that phase. -/
theorem forall_update (holds : Phase → α → Set Staker → Prop) {values : ByPhase α}
    {c : Contents} (h : ∀ phase, holds phase (values.get phase) (c.stakers phase))
    {phase : Phase} {f : α → α} {g : Set Staker → Set Staker}
    (hphase : holds phase (f (values.get phase)) (g (c.stakers phase))) (phase' : Phase) :
    holds phase' ((values.update phase f).get phase')
      ((c.updateStakers phase g).stakers phase') := by
  by_cases heq : phase' = phase
  · subst heq
    rw [get_update_self, Contents.updateStakers_self]
    exact hphase
  · rw [get_update_ne _ _ heq, Contents.updateStakers_ne _ _ heq]
    exact h phase'

end ByPhase

/-! ## One layer -/

theorem Changes.edits_write (ch : Changes) (w : Write) :
    (ch.write w).edits = ch.edits.record w := by
  cases w <;> rfl

/-- The changes lead from the contents below to the contents above. -/
structure Changes.Carries (ch : Changes) (below above : Contents) : Prop where
  timestamp : above.timestamp = ch.timestamp
  feePool : above.feePool = ch.feePool
  supply : ∀ supernet,
    above.supply supernet = overlaid (ch.supplies.get? supernet) (below.supply supernet)
  rewardPool : ∀ supernet,
    above.rewardPool supernet = overlaid (ch.rewardPools.get? supernet) (below.rewardPool supernet)
  registries : ∀ phase,
    (ch.registries.get phase).Nets (below.stakers phase) (above.stakers phase)
  edits : ch.edits.Carries below.toRecords above.toRecords
  filed : ch.edits.Filed
  newChains : ∀ supernet held, below.chains supernet = .ok held →
    ∀ id, (ch.edits.heldChains supernet).contains id = true → held.get? id = none

namespace Changes.Carries

variable {ch : Changes} {book : Book} {below above : Contents} {w : Write}

theorem untouched (below : Contents) :
    (Changes.untouched below.timestamp below.feePool).Carries below below where
  timestamp := rfl
  feePool := rfl
  supply _ := rfl
  rewardPool _ := rfl
  registries phase := by
    cases phase <;> exact RegistryOverlay.Nets.refl _
  edits := RecordEdits.Carries.refl _
  filed := RecordEdits.Filed.empty
  newChains _ _ _ _ h := by cases h

theorem one_record (habove : above.Proper book) (hbelow : below.Proper book) {phase : Phase}
    {s : Staker} (hs : s ∈ book.records phase) :
    ∀ t ∈ below.stakers phase ∪ above.stakers phase, t.txId = s.txId → t = s := by
  rintro t (ht | ht)
  · exact hbelow.one_record hs t ht
  · exact habove.one_record hs t ht

theorem addChain (h : ch.Carries below above) {chain : ChainRecord}
    (hnew : above.RegistersNewChain (.addChain chain)) :
    (ch.write (.addChain chain)).Carries below (above.write (.addChain chain)) where
  __ := h
  edits := h.edits.addChain chain
  filed := h.filed.addChain chain
  newChains supernet held hheld id := by
    refine RecordEdits.get?_eq_none_of_addChain (h.newChains supernet held hheld id) ?_
    rintro rfl
    have habove := h.edits.chains chain.supernetId
    rw [hheld] at habove
    have hfree := hnew _ habove
    rw [OrderedMap.get?_insertMany, Option.or_eq_none_iff] at hfree
    exact hfree.2

theorem updateRegistry (h : ch.Carries below above) {phase : Phase}
    {f : RegistryOverlay → RegistryOverlay} {g : Set Staker → Set Staker}
    (hnets : (f (ch.registries.get phase)).Nets (below.stakers phase) (g (above.stakers phase))) :
    (ch.updateRegistry phase f).Carries below (above.updateStakers phase g) where
  __ := h
  registries := ByPhase.forall_update
    (fun phase o members => RegistryOverlay.Nets o (below.stakers phase) members)
    h.registries hnets

/-- A write that keeps to the contract does to the contents above what it says. -/
theorem write (h : ch.Carries below above) (habove : above.Proper book)
    (hbelow : below.Proper book) (hallowed : above.Allows book w)
    (hnew : above.RegistersNewChain w) : (ch.write w).Carries below (above.write w) := by
  have hedits : (ch.write w).edits.Carries below.toRecords (above.write w).toRecords := by
    rw [ch.edits_write]
    exact h.edits.record w
  have hfiled : (ch.write w).edits.Filed := by
    rw [ch.edits_write]
    exact h.filed.record w
  cases w with
  | setTimestamp time => exact { h with timestamp := rfl }
  | setFeePool amount => exact { h with feePool := rfl }
  | setSupply supernet amount =>
      exact { h with supply := overlaid_insert h.supply supernet amount }
  | setRewardPool supernet amount =>
      exact { h with rewardPool := overlaid_insert h.rewardPool supernet amount }
  | putValidator phase s =>
      obtain ⟨hs, hv, _, hfree⟩ := hallowed
      exact h.updateRegistry (g := insert s) <|
        (h.registries phase).putValidator (habove.slots phase) (hbelow.slots phase) hv hfree
          (habove.one_record hs)
  | deleteValidator phase s =>
      obtain ⟨hv, hs⟩ := hallowed
      exact h.updateRegistry (g := (· \ {s})) <|
        (h.registries phase).deleteValidator (habove.slots phase) (hbelow.slots phase) hv hs
          (one_record habove hbelow (habove.recorded phase hs))
  | putDelegator phase s =>
      obtain ⟨hs, hd, habsent⟩ := hallowed
      exact h.updateRegistry (g := insert s) <|
        (h.registries phase).putDelegator (habove.slots phase) hd
          (one_record habove hbelow hs) fun hmem => habsent s hmem rfl
  | deleteDelegator phase s =>
      obtain ⟨hd, hs⟩ := hallowed
      exact h.updateRegistry (g := (· \ {s})) <|
        (h.registries phase).deleteDelegator (habove.slots phase) hd
          (one_record habove hbelow (habove.recorded phase hs)) hs
  | addChain chain => exact h.addChain hnew
  | _ => exact { h with edits := hedits, filed := hfiled }

end Changes.Carries

end StakingLedger
