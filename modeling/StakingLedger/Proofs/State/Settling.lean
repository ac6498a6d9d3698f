import StakingLedger.Proofs.Ledger.LayerRefinement
import StakingLedger.Proofs.State.History

/-! # Settling what was written

The changes of a layer settle in the ledger below when the layer is folded, and
those of the root in its store when they are committed. Both may happen beneath
layers that stay open. What the ledger on top contains does not change.
-/

namespace StakingLedger

theorem Numbered.of_append {first second : List Utxo} (h : Numbered (first ++ second)) :
    Numbered first := by
  intro i utxo hget
  refine h i utxo ?_
  rw [List.getElem?_append_left (List.getElem?_eq_some_iff.mp hget).1]
  exact hget

namespace Contents

variable {c : Contents} {writes : List Write}

/-- The reward outputs of every transaction can be read and are numbered. -/
def NumbersOutputs (c : Contents) : Prop :=
  ∀ stakerTx, ∃ paid, c.rewardUtxos stakerTx = .ok paid ∧ Numbered paid

/-- A write takes no reward output away. -/
theorem rewardUtxos_write (c : Contents) (w : Write) (stakerTx : EntityId) :
    ∃ more, (c.write w).rewardUtxos stakerTx = (c.rewardUtxos stakerTx).map (· ++ more) := by
  have hsame : ∃ more : List Utxo,
      c.rewardUtxos stakerTx = (c.rewardUtxos stakerTx).map (· ++ more) := by
    refine ⟨[], ?_⟩
    cases c.rewardUtxos stakerTx <;> simp [Except.map]
  cases w with
  | addRewardUtxo stakerTx' utxo =>
      by_cases heq : stakerTx = stakerTx'
      · subst heq
        exact ⟨[utxo], Function.update_self _ _ _⟩
      · obtain ⟨more, hmore⟩ := hsame
        exact ⟨more, (Function.update_of_ne heq _ _).trans hmore⟩
  | _ => exact hsame

theorem rewardUtxos_writeAll (c : Contents) (writes : List Write) (stakerTx : EntityId) :
    ∃ more, (c.writeAll writes).rewardUtxos stakerTx =
      (c.rewardUtxos stakerTx).map (· ++ more) := by
  induction writes generalizing c with
  | nil =>
      refine ⟨[], ?_⟩
      change c.rewardUtxos stakerTx = _
      cases c.rewardUtxos stakerTx <;> simp [Except.map]
  | cons w rest ih =>
      obtain ⟨first, hfirst⟩ := c.rewardUtxos_write w stakerTx
      obtain ⟨later, hlater⟩ := ih (c.write w)
      refine ⟨first ++ later, hlater.trans ?_⟩
      rw [hfirst]
      cases c.rewardUtxos stakerTx <;> simp [Except.map]

/-- A series that ends with numbered outputs numbered every output it recorded. -/
theorem accepts_nextOutput (h : (c.writeAll writes).NumbersOutputs) :
    c.Accepts NextOutput writes := by
  induction writes generalizing c with
  | nil => trivial
  | cons w rest ih =>
      refine ⟨?_, ih h⟩
      cases w with
      | addRewardUtxo stakerTx utxo =>
          obtain ⟨final, hfinal, hnumbered⟩ := h stakerTx
          obtain ⟨more, hmore⟩ :=
            (c.write (.addRewardUtxo stakerTx utxo)).rewardUtxos_writeAll rest stakerTx
          have hread : (c.write (.addRewardUtxo stakerTx utxo)).rewardUtxos stakerTx =
              (c.rewardUtxos stakerTx).map (· ++ [utxo]) := Function.update_self _ _ _
          obtain ⟨later, hlater, rfl⟩ := map_eq_ok_iff.mp (hmore.symm.trans hfinal)
          obtain ⟨paid, hpaid, rfl⟩ := map_eq_ok_iff.mp (hread.symm.trans hlater)
          exact ⟨paid, hpaid, hnumbered.of_append _ _ List.getElem?_concat_length⟩
      | _ => trivial

end Contents

theorem Changes.Carries.numbersOutputs {ch : Changes} {below above : Contents}
    (h : ch.Carries below above) (hnumbered : above.NumbersOutputs) : below.NumbersOutputs := by
  intro stakerTx
  obtain ⟨paid, hpaid, hpaidNumbered⟩ := hnumbered stakerTx
  rw [h.edits.rewardUtxos] at hpaid
  obtain ⟨lower, hlower, rfl⟩ := map_eq_ok_iff.mp hpaid
  exact ⟨lower, hlower, hpaidNumbered.of_append⟩

namespace Ledger

/-- The ledger contains `c` over a durable root. -/
def Sustains (book : Book) (l : Ledger) (c : Contents) : Prop :=
  l.Contains book (fun s c => ∃ flushed, s.Durable book flushed c) c

/-- One step towards the store, somewhere in a stack of layers. -/
inductive Settles : Ledger → Ledger → Prop
  | folded {parent : Ledger} {id : EntityId} {reachable : Bool} {changes : Changes} :
    Settles (.layer parent id reachable changes) (parent.fold changes)
  | committed {s s' : State} {height : UInt64} (hcommit : s.commit height = .ok s') :
    Settles (.root s) (.root s')
  | beneath {parent parent' : Ledger} {id : EntityId} {reachable : Bool} {changes : Changes}
    (h : Settles parent parent') :
    Settles (.layer parent id reachable changes) (.layer parent' id reachable changes)

namespace Sustains

variable {book book' : Book} {l l' : Ledger} {c : Contents} {w : Write}

theorem shows (h : l.Sustains book c) : l.view.Shows c :=
  Contains.shows (State.durable_grounding book) h

theorem write (h : l.Sustains book c) (hallowed : c.Allows book w) (hnew : c.RegistersNewChain w)
    (hnext : c.NextOutput w) : (l.write w).Sustains book (c.write w) :=
  Contains.write (State.durable_grounding book) h hallowed hnew hnext

/-- More records may be told apart than stand in a ledger. -/
theorem mono (h : l.Sustains book c) (hsub : ∀ phase, book.records phase ⊆ book'.records phase) :
    l.Sustains book' c := by
  induction l generalizing c with
  | root s =>
      obtain ⟨habove, flushed, hdurable⟩ := h
      exact ⟨habove.mono hsub, flushed,
        hdurable.of_recorded fun phase => (hdurable.recorded phase).trans (hsub phase)⟩
  | layer parent id reachable changes ih =>
      obtain ⟨habove, hreachable, below, hparent, hchanges⟩ := h
      exact ⟨habove.mono hsub, hreachable, below, ih hparent, hchanges⟩

/-- Settling changes nothing in the ledger on top. -/
theorem settled (h : l.Sustains book c) (hnumbered : c.NumbersOutputs) (hsettles : Settles l l') :
    l'.Sustains book c := by
  induction hsettles generalizing c with
  | folded =>
      refine Contains.fold (State.durable_grounding book) h fun below hparent hchanges => ?_
      refine Contents.accepts_nextOutput ?_
      rwa [(hchanges.replay hparent.proper h.proper).1]
  | committed hcommit =>
      obtain ⟨hproper, flushed, hdurable⟩ := h
      obtain ⟨history, hflushed⟩ := State.flushed_of_flush (State.flush_of_commit hcommit).1
      exact ⟨hproper, _, hdurable.of_flushed hproper hflushed⟩
  | beneath _ ih =>
      obtain ⟨hproper, hreachable, below, hparent, hchanges⟩ := h
      exact ⟨hproper, hreachable, below, ih hparent (hchanges.numbersOutputs hnumbered), hchanges⟩

end Sustains

end Ledger

end StakingLedger
