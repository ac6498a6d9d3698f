import StakingLedger.Ledger.Write
import StakingLedger.Proofs.OrderedMap.Lookup
import StakingLedger.Proofs.Registry.Slots

/-! # The contents of a ledger

The contents are what a ledger tells when it is asked, with each registry as a
plain set of stakers. A write changes them in the obvious way. The contract of
the staker writes is stated here once; it says nothing about the other writes.
-/

namespace StakingLedger

/-- The staker records that may ever stand in each registry: a transaction denotes one of them. -/
structure Book where
  records : Phase → Set Staker
  injOn : ∀ phase, (records phase).InjOn Staker.txId

/-- The answers about everything but time, balances and stakers. -/
@[ext]
structure Records where
  utxo : UtxoId → Answer (Option Utxo)
  rewardUtxos : EntityId → Answer (List Utxo)
  supernet : EntityId → Answer (Option SupernetRecord)
  transformation : EntityId → Answer (Option SupernetTransformation)
  chains : EntityId → Answer (OrderedMap EntityId ChainRecord)
  tx : EntityId → Answer (Option (StoredTx × TxStatus))

/-- The answers of a ledger to every question. -/
@[ext]
structure Contents extends Records where
  timestamp : UInt64
  feePool : UInt64
  supply : EntityId → Answer UInt64
  rewardPool : EntityId → Answer UInt64
  stakers : Phase → Set Staker

/-- The write registers neither a chain nor a transaction. -/
def Write.RegistersNothing : Write → Prop
  | .addChain _ | .addTx _ _ => False
  | _ => True

/-- The write concerns a record. -/
def Write.IsRecord : Write → Prop
  | .addUtxo _ | .deleteUtxo _ | .addRewardUtxo _ _ | .addSupernet _ | .addTransformation _
  | .addChain _ | .addTx _ _ => True
  | _ => False

namespace Contents

/-- Changes the stakers of a phase. -/
def updateStakers (c : Contents) (phase : Phase) (f : Set Staker → Set Staker) : Contents :=
  { c with stakers := Function.update c.stakers phase (f (c.stakers phase)) }

def write (c : Contents) : Write → Contents
  | .setTimestamp time => { c with timestamp := time }
  | .setFeePool amount => { c with feePool := amount }
  | .setSupply supernet amount =>
    { c with supply := Function.update c.supply supernet (.ok amount) }
  | .setRewardPool supernet amount =>
    { c with rewardPool := Function.update c.rewardPool supernet (.ok amount) }
  | .putValidator phase s | .putDelegator phase s => c.updateStakers phase (insert s)
  | .deleteValidator phase s | .deleteDelegator phase s => c.updateStakers phase (· \ {s})
  | .addUtxo utxo => { c with utxo := Function.update c.utxo utxo.id (.ok (some utxo)) }
  | .deleteUtxo id => { c with utxo := Function.update c.utxo id (.ok none) }
  | .addRewardUtxo stakerTx utxo =>
    { c with
      rewardUtxos := Function.update c.rewardUtxos stakerTx
        ((c.rewardUtxos stakerTx).map (· ++ [utxo])) }
  | .addSupernet supernet =>
    { c with supernet := Function.update c.supernet supernet.id (.ok (some supernet)) }
  | .addTransformation t =>
    { c with transformation := Function.update c.transformation t.supernetId (.ok (some t)) }
  | .addChain chain =>
    { c with
      chains := Function.update c.chains chain.supernetId
        ((c.chains chain.supernetId).map (·.insert chain.id chain)) }
  | .addTx tx status => { c with tx := Function.update c.tx tx.id (.ok (some (tx, status))) }

/-- Applies writes in turn. -/
def writeAll (c : Contents) (writes : List Write) : Contents := writes.foldl write c

/-! ## The contract -/

/-- What a caller owes to the staker sets: validators and delegators go to their own operations,
a put staker is absent and finds its slot free, a deleted one is present. -/
def Allows (book : Book) (c : Contents) : Write → Prop
  | .putValidator phase s =>
    s ∈ book.records phase ∧ s.isValidator = true ∧ (∀ t ∈ c.stakers phase, t.txId ≠ s.txId) ∧
      occupant (c.stakers phase) s.slot = none
  | .putDelegator phase s =>
    s ∈ book.records phase ∧ s.isValidator = false ∧ ∀ t ∈ c.stakers phase, t.txId ≠ s.txId
  | .deleteValidator phase s => s.isValidator = true ∧ s ∈ c.stakers phase
  | .deleteDelegator phase s => s.isValidator = false ∧ s ∈ c.stakers phase
  | _ => True

/-- An added chain is new to its supernet. -/
def RegistersNewChain (c : Contents) : Write → Prop
  | .addChain chain => ∀ held, c.chains chain.supernetId = .ok held → held.get? chain.id = none
  | _ => True

/-- Every write of a series finds what it asks for when its turn comes. -/
def Accepts (asks : Contents → Write → Prop) (c : Contents) : List Write → Prop
  | [] => True
  | w :: rest => asks c w ∧ (c.write w).Accepts asks rest

/-- What the contract keeps: one validator in a slot, one record for a transaction. -/
structure Proper (book : Book) (c : Contents) : Prop where
  recorded : ∀ phase, c.stakers phase ⊆ book.records phase
  slots : ∀ phase, OneValidatorPerSlot (c.stakers phase)
  chains : ∀ supernet held, c.chains supernet = .ok held →
    ∀ id chain, held.get? id = some chain → chain.id = id

variable {book : Book} {c : Contents} {w : Write} {phase : Phase} {s : Staker}
  {asks : Contents → Write → Prop}

theorem registersNewChain_of_registersNothing (h : w.RegistersNothing) (c : Contents) :
    c.RegistersNewChain w := by
  cases w with
  | addChain => exact h.elim
  | _ => trivial

theorem registersNothing_of_not_isRecord (h : ¬ w.IsRecord) : w.RegistersNothing := by
  cases w <;> first | exact h trivial | trivial

theorem not_isRecord_delete (phase : Phase) (s : Staker) : ¬ (Write.delete phase s).IsRecord := by
  unfold Write.delete
  split <;> exact id

theorem registersNothing_delete (phase : Phase) (s : Staker) :
    (Write.delete phase s).RegistersNothing :=
  registersNothing_of_not_isRecord (not_isRecord_delete phase s)

theorem toRecords_write (h : ¬ w.IsRecord) (c : Contents) :
    (c.write w).toRecords = c.toRecords := by
  cases w <;> first | exact absurd trivial h | rfl

theorem writeAll_append (c : Contents) (first second : List Write) :
    c.writeAll (first ++ second) = (c.writeAll first).writeAll second :=
  List.foldl_append

theorem accepts_append {first second : List Write} :
    c.Accepts asks (first ++ second) ↔
      c.Accepts asks first ∧ (c.writeAll first).Accepts asks second := by
  induction first generalizing c with
  | nil => simp [Accepts, writeAll]
  | cons w rest ih =>
      simp only [List.cons_append, Accepts, ih, writeAll, List.foldl_cons, and_assoc]

theorem accepts_of_forall {writes : List Write} (h : ∀ w ∈ writes, ∀ c, asks c w) :
    c.Accepts asks writes := by
  induction writes generalizing c with
  | nil => trivial
  | cons w rest ih =>
      exact ⟨h w List.mem_cons_self c, ih fun w' hw' => h w' (List.mem_cons_of_mem _ hw')⟩

/-- A part of the contents that no write of a series concerns. -/
theorem get_writeAll {σ : Type} (get : Contents → σ) {writes : List Write}
    (h : ∀ w ∈ writes, ∀ c : Contents, get (c.write w) = get c) :
    get (c.writeAll writes) = get c := by
  induction writes generalizing c with
  | nil => rfl
  | cons w rest ih =>
      exact (ih fun w' hw' => h w' (List.mem_cons_of_mem _ hw')).trans (h w List.mem_cons_self c)

@[simp] theorem updateStakers_self (c : Contents) (phase : Phase)
    (f : Set Staker → Set Staker) :
    (c.updateStakers phase f).stakers phase = f (c.stakers phase) :=
  Function.update_self _ _ _

theorem updateStakers_ne (c : Contents) {phase phase' : Phase} (f : Set Staker → Set Staker)
    (h : phase' ≠ phase) : (c.updateStakers phase f).stakers phase' = c.stakers phase' :=
  Function.update_of_ne h _ _

namespace Proper

theorem one_record (h : c.Proper book) (hs : s ∈ book.records phase) :
    ∀ t ∈ c.stakers phase, t.txId = s.txId → t = s :=
  fun _ ht htx => book.injOn phase (h.recorded phase ht) hs htx

theorem mono {book' : Book} (h : c.Proper book)
    (hsub : ∀ phase, book.records phase ⊆ book'.records phase) : c.Proper book' where
  recorded phase := (h.recorded phase).trans (hsub phase)
  slots := h.slots
  chains := h.chains

theorem updateStakers (h : c.Proper book) {f : Set Staker → Set Staker}
    (hrecorded : f (c.stakers phase) ⊆ book.records phase)
    (hslots : OneValidatorPerSlot (f (c.stakers phase))) :
    (c.updateStakers phase f).Proper book where
  recorded phase' := by
    by_cases heq : phase' = phase
    · subst heq
      rwa [updateStakers_self]
    · rw [updateStakers_ne _ _ heq]
      exact h.recorded phase'
  slots phase' := by
    by_cases heq : phase' = phase
    · subst heq
      rwa [updateStakers_self]
    · rw [updateStakers_ne _ _ heq]
      exact h.slots phase'
  chains := h.chains

theorem addChain (h : c.Proper book) (chain : ChainRecord) :
    (c.write (.addChain chain)).Proper book where
  recorded := h.recorded
  slots := h.slots
  chains supernet held hheld id found hget := by
    simp only [write] at hheld
    by_cases hsupernet : supernet = chain.supernetId
    · subst hsupernet
      rw [Function.update_self] at hheld
      cases hbelow : c.chains chain.supernetId with
      | error e => rw [hbelow] at hheld; cases hheld
      | ok below =>
          rw [hbelow] at hheld
          cases hheld
          by_cases hid : id = chain.id
          · rw [hid, OrderedMap.get?_insert_self, Option.some.injEq] at hget
            rw [← hget, hid]
          · rw [OrderedMap.get?_insert_ne _ _ hid] at hget
            exact h.chains _ _ hbelow id found hget
    · rw [Function.update_of_ne hsupernet] at hheld
      exact h.chains supernet held hheld id found hget

theorem write (h : c.Proper book) (hallowed : c.Allows book w) : (c.write w).Proper book := by
  cases w with
  | putValidator phase s =>
      obtain ⟨hs, _, _, hfree⟩ := hallowed
      exact h.updateStakers (Set.insert_subset hs (h.recorded phase))
        ((h.slots phase).insert_validator hfree)
  | putDelegator phase s =>
      obtain ⟨hs, hd, _⟩ := hallowed
      exact h.updateStakers (Set.insert_subset hs (h.recorded phase))
        ((h.slots phase).insert_delegator hd)
  | deleteValidator phase s =>
      have hsub : c.stakers phase \ {s} ⊆ c.stakers phase := fun t ht => ht.1
      exact h.updateStakers (f := (· \ {s})) (hsub.trans (h.recorded phase))
        ((h.slots phase).subset hsub)
  | deleteDelegator phase s =>
      have hsub : c.stakers phase \ {s} ⊆ c.stakers phase := fun t ht => ht.1
      exact h.updateStakers (f := (· \ {s})) (hsub.trans (h.recorded phase))
        ((h.slots phase).subset hsub)
  | addChain chain => exact h.addChain chain
  | _ => exact ⟨h.recorded, h.slots, h.chains⟩

theorem writeAll {writes : List Write} (h : c.Proper book)
    (hallowed : c.Accepts (Allows book) writes) : (c.writeAll writes).Proper book := by
  induction writes generalizing c with
  | nil => exact h
  | cons w rest ih => exact ih (h.write hallowed.1) hallowed.2

end Proper

end Contents

end StakingLedger
