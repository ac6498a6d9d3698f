import StakingLedger.Proofs.Registry.Replacement
import StakingLedger.Proofs.State.Anchoring

/-! # Replacing a validator

A validator that is put into a slot that another holds takes its place. Where the other one was
put on the same level, on the root since the last flush or on the same layer, it is gone
everywhere: from the slot, from the walk over the whole set, from what the layer folds down and
from what a commit stores. Where the other one comes from below, only the slot forgets it.
-/

namespace StakingLedger

variable {book : Book} {c : Contents} {phase : Phase} {slot : Slot} {s old : Staker}

namespace Ledger

variable {l : Ledger} {w : Write}

/-- The record of a slot on the top level: what the root has changed since its last flush, or what
the layer has changed. -/
def slotRecord (l : Ledger) (phase : Phase) (slot : Slot) : SlotDiff :=
  match l with
  | root s => (s.registries.get phase).diffs.recorded slot
  | layer _ _ _ changes => (changes.registries.get phase).diffs.recorded slot

/-- The validator of the slot was put on the top level itself. -/
def PutHere (l : Ledger) (phase : Phase) (slot : Slot) : Prop :=
  (l.slotRecord phase slot).status = .added

instance (l : Ledger) (phase : Phase) (slot : Slot) : Decidable (l.PutHere phase slot) :=
  inferInstanceAs (Decidable (_ = _))

/-- The contract of the writes, where a validator may also be put in the place of one that was put
on the same level. -/
def AllowsReplacing (book : Book) (l : Ledger) : Write → Prop
  | .putValidator phase s =>
    s ∈ book.records phase ∧ s.isValidator = true ∧
      (∃ held, l.view.stakers phase = .ok held ∧ ∀ t ∈ held, t.txId ≠ s.txId) ∧
      (l.view.validator phase s.slot = .ok none ∨ l.PutHere phase s.slot)
  | w => l.view.Allows book w

/-- The levels of a stack from the top down to the root. -/
def levels : Ledger → List Ledger
  | root s => [root s]
  | layer parent id reachable changes => layer parent id reachable changes :: parent.levels

end Ledger

/-! ## A replacement is a deletion and a put -/

/-- A change of one phase may be made in two steps. -/
theorem ByPhase.update_in_steps {α : Type} {values : ByPhase α} {phase : Phase} {f g f' : α → α}
    (h : f (values.get phase) = f' (g (values.get phase))) :
    values.update phase f = (values.update phase g).update phase f' := by
  cases phase
  · exact congrArg (fun a => (⟨a, values.pending⟩ : ByPhase α)) h
  · exact congrArg (fun a => (⟨values.current, a⟩ : ByPhase α)) h

/-- On the root a validator that was put since the last flush is replaced in two steps. -/
theorem State.Mirrors.write_putValidator_over {root : State} (hmirrors : root.Mirrors c)
    (hheld : occupant (c.stakers phase) s.slot = some old)
    (hadded : ((root.registries.get phase).diffs.recorded s.slot).status = .added) :
    root.write (.putValidator phase s) =
      (root.write (.deleteValidator phase old)).write (.putValidator phase s) := by
  have hvalidator : (root.registries.get phase).validator? s.slot = some old :=
    ((hmirrors.registries phase).validator s.slot).trans hheld
  have hsteps : root.registries.update phase (·.putValidator s) =
      (root.registries.update phase (·.deleteValidator old)).update phase (·.putValidator s) :=
    ByPhase.update_in_steps
      (Registry.putValidator_eq_delete_put (spec_of_occupant hheld).2.2 hadded hvalidator)
  exact congrArg (fun registries => { root with registries := registries }) hsteps

/-- On a layer a validator that the layer put is replaced in two steps. -/
theorem Changes.Carries.write_putValidator_over {ch : Changes} {below above : Contents}
    (hcarries : ch.Carries below above) (hheld : occupant (above.stakers phase) s.slot = some old)
    (hadded : ((ch.registries.get phase).diffs.recorded s.slot).status = .added) :
    ch.write (.putValidator phase s) =
      (ch.write (.deleteValidator phase old)).write (.putValidator phase s) := by
  obtain ⟨hold, hv, hslot⟩ := spec_of_occupant hheld
  have hnets := hcarries.registries phase
  have hvalidator : ((ch.registries.get phase).diffs.recorded s.slot).validator = some old :=
    (((hnets.diffs.nets s.slot).added hadded).1).trans hheld
  have hincoming : old ∈ (ch.registries.get phase).diffs.incoming (below.stakers phase)
      (above.stakers phase) := ⟨hold, by rw [if_pos hv, hslot]; exact hadded⟩
  have hsteps : ch.registries.update phase (·.putValidator s) =
      (ch.registries.update phase (·.deleteValidator old)).update phase (·.putValidator s) :=
    ByPhase.update_in_steps (RegistryOverlay.putValidator_eq_delete_put hslot hadded hvalidator
      (hnets.added.contains_iff.mpr ⟨old, hincoming, rfl⟩))
  exact congrArg (fun registries => { ch with registries := registries }) hsteps

namespace Ledger

variable {l : Ledger} {w : Write} {reading : State → Contents → Prop}

theorem write_putValidator_over (hreading : ∀ s c, reading s c → s.Mirrors c)
    (h : l.Contains book reading c) (hheld : occupant (c.stakers phase) s.slot = some old)
    (hput : l.PutHere phase s.slot) :
    l.write (.putValidator phase s) =
      (l.write (.deleteValidator phase old)).write (.putValidator phase s) := by
  cases l with
  | root root => exact congrArg Ledger.root ((hreading _ _ h.2).write_putValidator_over hheld hput)
  | layer parent id reachable ch =>
      obtain ⟨_, _, below, _, hch⟩ := h
      exact congrArg (Ledger.layer parent id reachable) (hch.write_putValidator_over hheld hput)

/-! ## Writes that may replace -/

/-- A write that keeps to the contract, where the chains of a layer have to be new and those of the
root need not. -/
theorem Contains.write_allowed {asks : Contents → Write → Prop}
    (hroot : Grounding book asks reading) (h : l.Contains book reading c)
    (hallowed : c.Allows book w) (hnew : l.depth ≠ 0 → c.RegistersNewChain w) (hasked : asks c w) :
    (l.write w).Contains book reading (c.write w) := by
  cases l with
  | root s => exact ⟨h.1.write hallowed, hroot.write s c w h.2 h.1 hallowed hasked⟩
  | layer parent id reachable ch =>
      exact h.write hroot hallowed (hnew (Nat.succ_ne_zero _)) hasked

/-- A validator that is put where another was put on the same level leaves contents without the
other one. -/
theorem Contains.putValidator_over (hroot : Grounding book (fun _ _ => True) reading)
    (hreading : ∀ s c, reading s c → s.Mirrors c) (h : l.Contains book reading c)
    (hheld : occupant (c.stakers phase) s.slot = some old) (hput : l.PutHere phase s.slot)
    (hs : s ∈ book.records phase) (hv : s.isValidator = true)
    (habsent : ∀ t ∈ c.stakers phase, t.txId ≠ s.txId) :
    ∃ c', (l.write (.putValidator phase s)).Contains book reading c' := by
  obtain ⟨hold, holdv, hslot⟩ := spec_of_occupant hheld
  have hdeleted := h.write_allowed hroot (w := .deleteValidator phase old) ⟨holdv, hold⟩
    (fun _ => trivial) trivial
  have hrest : (c.write (.deleteValidator phase old)).stakers phase = c.stakers phase \ {old} :=
    Contents.updateStakers_self c phase (· \ {old})
  have hallowed : (c.write (.deleteValidator phase old)).Allows book (.putValidator phase s) := by
    refine ⟨hs, hv, fun t ht => ?_, ?_⟩
    · rw [hrest] at ht
      exact habsent t ht.1
    · rw [hrest, occupant_diff_validator (h.proper.slots phase) hold holdv, if_pos hslot.symm]
  rw [write_putValidator_over hreading h hheld hput]
  exact ⟨_, hdeleted.write_allowed hroot hallowed (fun _ => trivial) trivial⟩

/-- Such a write leaves a ledger with contents. -/
theorem Contains.write_replacing (hroot : Grounding book (fun _ _ => True) reading)
    (hreading : ∀ s c, reading s c → s.Mirrors c) (h : l.Contains book reading c)
    (hallowed : l.AllowsReplacing book w) (hnew : l.depth ≠ 0 → l.view.RegistersNewChain w) :
    ∃ c', (l.write w).Contains book reading c' := by
  have hview := h.shows hroot
  have hplain : l.view.Allows book w → ∃ c', (l.write w).Contains book reading c' := fun hallowed =>
    ⟨_, h.write_allowed hroot (hview.allows hallowed)
      (fun hlayer => hview.registersNewChain h.proper (hnew hlayer)) trivial⟩
  cases w with
  | putValidator phase s =>
      obtain ⟨hs, hv, hfresh, hplace⟩ := hallowed
      cases hheld : occupant (c.stakers phase) s.slot with
      | none =>
          have hfree : l.view.validator phase s.slot = .ok none := by
            rw [hview.validator, hheld]
          exact hplain ⟨hs, hv, hfresh, hfree⟩
      | some old =>
          have hput : l.PutHere phase s.slot := hplace.resolve_left fun hfree => by
            rw [hview.validator, hheld] at hfree
            cases hfree
          obtain ⟨held, hread, habsent⟩ := hfresh
          exact h.putValidator_over hroot hreading hheld hput hs hv fun t ht =>
            habsent t ((hview.mem_of_read hread t).mpr ht)
  | _ => exact hplain hallowed

/-! ## Every level of a stack -/

/-- The ledgers that there can be: a root made by a genesis or loaded, and layers opened on top,
written to and folded from the top; a root on its own may be committed. -/
inductive Grown (book : Book) : Ledger → Prop
  | genesis {g : Genesis} {config : StakingConfig} {s : State}
    (h : State.fromGenesis {} g config = .ok s) (hbook : s.RecordedIn book) : Grown book (.root s)
  /-- The store of a loaded root hides no staker record. -/
  | loaded {store : Store} {s : State} (h : State.load store = .ok s) (hshown : s.HidesNoRecord)
    (hbook : s.RecordedIn book) : Grown book (.root s)
  | opened {l l' : Ledger} {versions : Versions} {block : EntityId} (h : Grown book l)
    (hparent : versions.resolve? block = some l) (hopen : versions.openLayer block = .ok l') :
    Grown book l'
  | written {l : Ledger} {w : Write} (h : Grown book l) (hallowed : l.AllowsReplacing book w)
    (hnew : l.depth ≠ 0 → l.view.RegistersNewChain w) : Grown book (l.write w)
  | folded {parent : Ledger} {id : EntityId} {reachable : Bool} {changes : Changes}
    (h : Grown book (.layer parent id reachable changes)) : Grown book (parent.fold changes)
  | committed {s s' : State} {height : UInt64} (h : Grown book (.root s))
    (hcommit : s.commit height = .ok s') : Grown book (.root s')

theorem Grown.contains (h : Grown book l) : ∃ c, l.Contains book (State.Anchored book) c := by
  have hroot := State.anchored_grounding book
  have hreading : ∀ s c, State.Anchored book s c → s.Mirrors c := fun _ _ h => h.mirrors
  -- Reward outputs need not be numbered here, so the roots are anchored and not durable.
  induction h with
  | genesis h hbook =>
      obtain ⟨c, hc, hproper⟩ := State.anchored_of_fromGenesis h hbook
      exact ⟨c, hproper, hc⟩
  | loaded h hshown hbook =>
      obtain ⟨c, hc, hproper⟩ := State.anchored_of_load h hshown hbook
      exact ⟨c, hproper, hc⟩
  | opened _ hparent hopen ih =>
      obtain ⟨c, hl⟩ := ih
      rw [Versions.openLayer, hparent] at hopen
      cases hopen
      exact ⟨c, hl.opened hroot _⟩
  | written _ hallowed hnew ih =>
      obtain ⟨c, hl⟩ := ih
      exact hl.write_replacing hroot hreading hallowed hnew
  | folded _ ih =>
      obtain ⟨c, hl⟩ := ih
      exact ⟨c, hl.fold hroot fun below _ _ => accepts_nothing below _⟩
  | committed _ hcommit ih =>
      obtain ⟨c, hproper, hc⟩ := ih
      obtain ⟨hrestored, hfits⟩ := hc.restored_of_flush hproper (State.flush_of_commit hcommit).1
      obtain ⟨hafter, hproper'⟩ := hrestored.anchored hproper.recorded hproper.slots hfits
      exact ⟨_, hproper', hafter⟩

/-- The walk over a phase meets just the validators that the slots have. -/
def SlotsAgree (l : Ledger) : Prop :=
  ∀ phase, ∃ held, l.view.stakers phase = .ok held ∧
    ∀ slot, ∃ found, l.view.validator phase slot = .ok found ∧
      ∀ s, found = some s ↔ s ∈ held ∧ s.isValidator = true ∧ s.slot = slot

theorem Contains.slotsAgree {asks : Contents → Write → Prop} (hroot : Grounding book asks reading)
    (h : l.Contains book reading c) : ∀ level ∈ l.levels, level.SlotsAgree := by
  have hself : ∀ {l : Ledger} {c : Contents}, l.Contains book reading c → l.SlotsAgree := by
    intro l c h phase
    have hview := h.shows hroot
    obtain ⟨held, hread, hheld⟩ := hview.stakers phase
    refine ⟨held, hread, fun slot => ⟨_, hview.validator phase slot, fun s => ?_⟩⟩
    rw [occupant_eq_some_iff (h.proper.slots phase), hheld.mem_iff]
  induction l generalizing c with
  | root s =>
      intro level hlevel
      rw [List.mem_singleton.mp hlevel]
      exact hself h
  | layer parent id reachable ch ih =>
      have htop := hself h
      obtain ⟨_, _, below, hparent, _⟩ := h
      intro level hlevel
      rcases List.mem_cons.mp hlevel with rfl | hlevel
      · exact htop
      · exact ih hparent level hlevel

/-- The two ledgers read the same validators, delegators and whole sets. -/
def SameStakers (l l' : Ledger) : Prop :=
  l.view.validator = l'.view.validator ∧ l.view.delegators = l'.view.delegators ∧
    l.view.stakers = l'.view.stakers

/-- A validator that takes the place of one of its own level takes it everywhere: on every level of
a stack the walk meets just the validators that the slots have, folding the stack down to the root
changes nothing of it, and a commit leaves a root of the same stakers, which its store loads as. -/
theorem replaced_everywhere (h : Grown book l) :
    (∀ level ∈ l.levels, level.SlotsAgree) ∧ (root l.collapse).SameStakers l ∧
      ∀ {height : UInt64} {s' : State}, l.collapse.commit height = .ok s' →
        (root s').SameStakers l ∧ State.load s'.store = .ok s' := by
  have hroot := State.anchored_grounding book
  obtain ⟨c, hl⟩ := h.contains
  have hview := hl.shows hroot
  have hcollapsed := hl.collapsed hroot
  refine ⟨hl.slotsAgree hroot, (hcollapsed.shows hroot).same_stakers hview rfl,
    fun {height s'} hcommit => ?_⟩
  obtain ⟨hproper, hanchored⟩ := hcollapsed
  obtain ⟨hrestored, _⟩ := hanchored.restored_of_flush hproper (State.flush_of_commit hcommit).1
  exact ⟨hrestored.based.toMirrors.shows.same_stakers hview rfl, hrestored.loads⟩

end Ledger

/-! ## Replacements on a genesis with one validator -/

/-- A validator like the one of the genesis, of another transaction and perhaps another supernet. -/
def rival (tx supernet : UInt64) : Staker :=
  { currentStaker soloTx 1 with txId := .ofWord tx, supernetId := .ofWord supernet }

/-- The validator of the genesis and two for one slot of another supernet. -/
def rivalBook : Book where
  records _ := {currentStaker soloTx 1, rival 3 9, rival 4 9}
  injOn _ := by
    rintro s (rfl | rfl | rfl) t (rfl | rfl | rfl) htx <;>
      first | rfl | exact absurd htx (by decide +kernel)

namespace Ledger

/-- A layer puts a validator into a free slot, and then another one over it. -/
theorem replaced_everywhere_solo : ∃ l : Ledger,
    l.view.stakers .current = .ok [currentStaker soloTx 1, rival 4 9] ∧
      (∀ level ∈ l.levels, level.SlotsAgree) ∧ (root l.collapse).SameStakers l ∧
      ∃ s', l.collapse.commit 1 = .ok s' ∧ (root s').SameStakers l ∧
        State.load s'.store = .ok s' := by
  have hbook : State.solo.RecordedIn rivalBook := State.recordedIn_of_mem (Or.inl rfl)
  have hopened : Grown rivalBook overSolo :=
    @Grown.opened _ _ _ (.insert {} (.ofWord 1) (.root State.solo)) (.ofWord 1)
      (.genesis State.fromGenesis_solo hbook) rfl rfl
  have hfirst : Grown rivalBook (overSolo.write (.putValidator .current (rival 3 9))) := by
    refine hopened.written (w := .putValidator .current (rival 3 9))
      ⟨Or.inr (Or.inl rfl), by decide +kernel, ⟨[currentStaker soloTx 1], by decide +kernel, ?_⟩,
        Or.inl (by decide +kernel)⟩ fun _ => trivial
    decide +kernel
  have hsecond : Grown rivalBook ((overSolo.write (.putValidator .current (rival 3 9))).write
      (.putValidator .current (rival 4 9))) := by
    refine hfirst.written (w := .putValidator .current (rival 4 9))
      ⟨Or.inr (Or.inr rfl), by decide +kernel,
        ⟨[currentStaker soloTx 1, rival 3 9], by decide +kernel, ?_⟩,
        Or.inr (by decide +kernel)⟩ fun _ => trivial
    decide +kernel
  obtain ⟨hlevels, hcollapsed, hcommits⟩ := replaced_everywhere hsecond
  have hok : (((overSolo.write (.putValidator .current (rival 3 9))).write
      (.putValidator .current (rival 4 9))).collapse.commit 1).isOk = true := by decide +kernel
  obtain ⟨s', hcommit⟩ := exists_eq_ok_of_isOk hok
  exact ⟨_, by decide +kernel, hlevels, hcollapsed, s', hcommit, hcommits hcommit⟩

/-- A layer puts a validator over the one of the root. Its walk meets both, folding it down drops
the old one in memory only, and the committed store loads with the old one alone. -/
theorem replaced_below_stays :
    ¬ (overSolo.write (.putValidator .current (rival 0 0))).SlotsAgree ∧
      ∃ s' loaded,
        (overSolo.write (.putValidator .current (rival 0 0))).collapse.commit 1 = .ok s' ∧
        (root s').view.stakers .current = .ok [rival 0 0] ∧ State.load s'.store = .ok loaded ∧
        (root loaded).view.stakers .current = .ok [currentStaker soloTx 1] := by
  constructor
  · intro hagree
    obtain ⟨held, hread, hslots⟩ := hagree .current
    obtain ⟨found, hfound, hmem⟩ := hslots (currentStaker soloTx 1).slot
    have hboth : (overSolo.write (.putValidator .current (rival 0 0))).view.stakers .current =
        .ok [rival 0 0, currentStaker soloTx 1] := by decide +kernel
    have hslot : (overSolo.write (.putValidator .current (rival 0 0))).view.validator .current
        (currentStaker soloTx 1).slot = .ok (some (rival 0 0)) := by decide +kernel
    cases hboth.symm.trans hread
    cases hslot.symm.trans hfound
    have hsame := (hmem (currentStaker soloTx 1)).mpr ⟨by decide +kernel, rfl, rfl⟩
    exact absurd (Option.some.inj hsame) (by decide +kernel)
  · have hrun : (do
        let s' ← (overSolo.write (.putValidator .current (rival 0 0))).collapse.commit 1
        let loaded ← State.load s'.store
        let before ← (root s').view.stakers .current
        let after ← (root loaded).view.stakers .current
        return (before, after)) = .ok ([rival 0 0], [currentStaker soloTx 1]) := by decide +kernel
    obtain ⟨s', hcommit, hrun⟩ := bind_eq_ok_iff.mp hrun
    obtain ⟨loaded, hload, hrun⟩ := bind_eq_ok_iff.mp hrun
    obtain ⟨before, hbefore, hrun⟩ := bind_eq_ok_iff.mp hrun
    obtain ⟨after, hafter, hrun⟩ := bind_eq_ok_iff.mp hrun
    cases hrun
    exact ⟨s', loaded, hcommit, hbefore, hload, hafter⟩

end Ledger

end StakingLedger
