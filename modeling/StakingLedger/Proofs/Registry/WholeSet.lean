import Mathlib.Data.Set.Card
import StakingLedger.Proofs.Ledger.Layer
import StakingLedger.State.Basic

/-! # The whole sets under any writes

The slots of a registry say what they should only while its callers keep to the
contract. Of the whole set less can be said, but always: a deletion takes out no
one else, and a put brings in no one else, even where it drives a validator out of
a slot. So after any writes whoever was deleted is gone, and whoever is new was put.
-/

namespace StakingLedger

namespace OrderedMap.Indexes

variable {α β : Type} [Ord α] [Std.LawfulEqOrd α] {m : OrderedMap α β} {key : β → α}
  {members : Set β}

/-- Erasing a key takes out the member of that key, if there is one. -/
theorem eraseKey (h : m.Indexes key members) (k : α) :
    (m.erase k).Indexes key {b | b ∈ members ∧ key b ≠ k} := by
  intro k' b
  by_cases hk : k' = k
  · subst hk
    rw [get?_erase_self]
    constructor
    · intro hnone; cases hnone
    · intro hb
      exact absurd hb.2 hb.1.2
  · rw [get?_erase_ne _ hk, h k' b]
    constructor
    · intro hb
      exact ⟨⟨hb.1, fun heq => hk (hb.2.symm.trans heq)⟩, hb.2⟩
    · intro hb
      exact ⟨hb.1.1, hb.2⟩

theorem finite (h : m.Indexes key members) : members.Finite := by
  refine m.values.finite_toSet.subset ?_
  intro b hb
  exact h.mem_values.mpr hb

theorem size_eq_ncard (h : m.Indexes key members) : m.size = members.ncard := by
  classical
  have hmembers : (m.values.toFinset : Set β) = members := by
    ext b
    rw [List.coe_toFinset]
    exact h.mem_values
  rw [← hmembers, Set.ncard_coe_finset, List.toFinset_card_of_nodup h.enumerates.nodup]
  exact (List.length_map Prod.snd).symm

end OrderedMap.Indexes

/-- The flat index lists these stakers, each under its own key. -/
def Registry.Lists (r : Registry) (members : Set Staker) : Prop :=
  r.stakers.Indexes Staker.key members

/-! ## What a write does to a phase -/

namespace Write

/-- The write puts the staker into the phase. -/
def Puts (w : Write) (phase : Phase) (s : Staker) : Prop :=
  w = .putValidator phase s ∨ w = .putDelegator phase s

/-- The write deletes the staker from the phase. -/
def Deletes (w : Write) (phase : Phase) (s : Staker) : Prop :=
  w = .deleteValidator phase s ∨ w = .deleteDelegator phase s

/-- The write leaves the stakers of the phase alone. -/
def Spares (w : Write) (phase : Phase) : Prop :=
  ∀ s, ¬ w.Puts phase s ∧ ¬ w.Deletes phase s

/-- The write does not concern stakers. -/
def LeavesStakers : Write → Prop
  | .putValidator _ _ | .deleteValidator _ _ | .putDelegator _ _ | .deleteDelegator _ _ => False
  | _ => True

theorem LeavesStakers.spares {w : Write} (h : w.LeavesStakers) (phase : Phase) :
    w.Spares phase := by
  intro s
  constructor
  · intro hputs
    rcases hputs with rfl | rfl <;> exact h
  · intro hdeletes
    rcases hdeletes with rfl | rfl <;> exact h

theorem puts_or_deletes_or_spares (w : Write) (phase : Phase) :
    (∃ s, w.Puts phase s) ∨ (∃ s, w.Deletes phase s) ∨ w.Spares phase := by
  by_cases hputs : ∃ s, w.Puts phase s
  · exact Or.inl hputs
  by_cases hdeletes : ∃ s, w.Deletes phase s
  · exact Or.inr (Or.inl hdeletes)
  · exact Or.inr (Or.inr fun s => ⟨fun h => hputs ⟨s, h⟩, fun h => hdeletes ⟨s, h⟩⟩)

theorem deletes_delete (phase : Phase) (s : Staker) : (delete phase s).Deletes phase s := by
  unfold delete
  split
  · exact Or.inl rfl
  · exact Or.inr rfl

variable {w : Write} {phase : Phase} {s t : Staker}

theorem Puts.unique (h : w.Puts phase s) (h' : w.Puts phase t) : t = s := by
  rcases h with rfl | rfl <;> rcases h' with h' | h' <;> cases h' <;> rfl

theorem Deletes.unique (h : w.Deletes phase s) (h' : w.Deletes phase t) : t = s := by
  rcases h with rfl | rfl <;> rcases h' with h' | h' <;> cases h' <;> rfl

theorem Puts.not_deletes (h : w.Puts phase s) : ¬ w.Deletes phase t := by
  rcases h with rfl | rfl <;> rintro (h' | h') <;> cases h'

variable {phase' : Phase}

/-- A write touches at most one phase. -/
theorem phase_eq (h : w.Puts phase s ∨ w.Deletes phase s)
    (h' : w.Puts phase' t ∨ w.Deletes phase' t) : phase' = phase := by
  rcases h with (rfl | rfl) | (rfl | rfl) <;> rcases h' with (h' | h') | (h' | h') <;> cases h' <;>
    rfl

theorem not_puts_delete (phase : Phase) (s : Staker) : ¬ (delete phase s).Puts phase' t := by
  intro hputs
  obtain rfl := phase_eq (Or.inl hputs) (Or.inr (deletes_delete phase s))
  exact hputs.not_deletes (deletes_delete phase s)

theorem eq_of_deletes_delete (h : (delete phase s).Deletes phase' t) :
    phase' = phase ∧ t = s := by
  have hdelete := deletes_delete phase s
  obtain rfl := phase_eq (Or.inr hdelete) (Or.inr h)
  exact ⟨rfl, hdelete.unique h⟩

theorem Spares.ne_phase (h : w.Spares phase)
    (hw : w.Puts phase' s ∨ w.Deletes phase' s) : phase ≠ phase' := by
  rintro rfl
  rcases hw with hw | hw
  · exact (h s).1 hw
  · exact (h s).2 hw

end Write

/-! ## The root -/

section Root

variable {r : Registry} {s : State} {w : Write} {phase : Phase} {members arrived : Set Staker}
  {x : Staker} {writes : List Write}

theorem State.registry_write_of_spares (h : w.Spares phase) (s : State) :
    (s.write w).registries.get phase = s.registries.get phase := by
  cases w with
  | putValidator phase' x => exact ByPhase.get_update_ne _ _ (h.ne_phase (Or.inl (Or.inl rfl)))
  | deleteValidator phase' x => exact ByPhase.get_update_ne _ _ (h.ne_phase (Or.inr (Or.inl rfl)))
  | putDelegator phase' x => exact ByPhase.get_update_ne _ _ (h.ne_phase (Or.inl (Or.inr rfl)))
  | deleteDelegator phase' x => exact ByPhase.get_update_ne _ _ (h.ne_phase (Or.inr (Or.inr rfl)))
  | _ => rfl

theorem Changes.registry_write_of_spares (h : w.Spares phase) (c : Changes) :
    (c.write w).registries.get phase = c.registries.get phase := by
  cases w with
  | putValidator phase' x => exact ByPhase.get_update_ne _ _ (h.ne_phase (Or.inl (Or.inl rfl)))
  | deleteValidator phase' x => exact ByPhase.get_update_ne _ _ (h.ne_phase (Or.inr (Or.inl rfl)))
  | putDelegator phase' x => exact ByPhase.get_update_ne _ _ (h.ne_phase (Or.inl (Or.inr rfl)))
  | deleteDelegator phase' x => exact ByPhase.get_update_ne _ _ (h.ne_phase (Or.inr (Or.inr rfl)))
  | _ => rfl

/-- A validator that finds its slot taken drives out who is there, so the set may also shrink. -/
theorem Registry.Lists.putValidator (h : r.Lists members)
    (hnew : ∀ y ∈ members, y.txId = x.txId → y = x) :
    ∃ members', members' ⊆ insert x members ∧ (r.putValidator x).Lists members' := by
  unfold Registry.Lists Registry.putValidator
  dsimp only
  split
  next replaced _ =>
    refine ⟨_, ?_, (h.eraseKey replaced.key).insert (b := x) fun y hy heq =>
      hnew y hy.1 (Staker.txId_of_key_eq heq)⟩
    exact Set.insert_subset_insert fun y hy => hy.1
  next => exact ⟨_, subset_rfl, h.insert fun y hy heq => hnew y hy (Staker.txId_of_key_eq heq)⟩

theorem Registry.Lists.putDelegator (h : r.Lists members)
    (hnew : ∀ y ∈ members, y.txId = x.txId → y = x) :
    (r.putDelegator x).Lists (insert x members) :=
  h.insert fun y hy heq => hnew y hy (Staker.txId_of_key_eq heq)

theorem State.lists_put (h : (s.registries.get phase).Lists members) (hputs : w.Puts phase x)
    (hnew : ∀ y ∈ members, y.txId = x.txId → y = x) :
    ∃ members', members' ⊆ insert x members ∧
      ((s.write w).registries.get phase).Lists members' := by
  rcases hputs with rfl | rfl
  · obtain ⟨members', hsub, hlists⟩ := h.putValidator hnew
    refine ⟨members', hsub, ?_⟩
    change ((s.registries.update phase _).get phase).Lists members'
    rwa [ByPhase.get_update_self]
  · refine ⟨_, subset_rfl, ?_⟩
    change ((s.registries.update phase _).get phase).Lists _
    rw [ByPhase.get_update_self]
    exact h.putDelegator hnew

theorem State.lists_delete (h : (s.registries.get phase).Lists members)
    (hdeletes : w.Deletes phase x) :
    ((s.write w).registries.get phase).Lists {y | y ∈ members ∧ y.key ≠ x.key} := by
  rcases hdeletes with rfl | rfl
  all_goals
    change ((s.registries.update phase _).get phase).Lists _
    rw [ByPhase.get_update_self]
    exact h.eraseKey x.key

/-- Two sets that tell transactions apart and share none tell them apart together. -/
theorem injOn_txId_union (hmembers : members.InjOn Staker.txId) (harrived : arrived.InjOn Staker.txId)
    (happart : ∀ x ∈ members, ∀ y ∈ arrived, y.txId ≠ x.txId) :
    (members ∪ arrived).InjOn Staker.txId := by
  rintro x (hx | hx) y (hy | hy) heq
  · exact hmembers hx hy heq
  · exact absurd heq.symm (happart x hx y hy)
  · exact absurd heq (happart y hy x hx)
  · exact harrived hx hy heq

/-- After some writes whoever was deleted is gone, unless it was put, and whoever is new was put. -/
theorem State.lists_writeAll (h : (s.registries.get phase).Lists members)
    (hputs : ∀ w ∈ writes, ∀ x, w.Puts phase x → x ∈ arrived)
    (happart : (members ∪ arrived).InjOn Staker.txId) :
    ∃ members', ((s.writeAll writes).registries.get phase).Lists members' ∧
      members' ⊆ {y | y ∈ members ∧ ∀ w ∈ writes, ¬ w.Deletes phase y} ∪ arrived := by
  induction writes generalizing s members with
  | nil => exact ⟨members, h, fun y hy => Or.inl ⟨hy, fun _ hw => absurd hw List.not_mem_nil⟩⟩
  | cons w rest ih =>
      have hrest := fun w' hw' => hputs w' (List.mem_cons_of_mem _ hw')
      -- One write leaves a set between the old one and what was put, without whom it deleted.
      obtain ⟨between, hlists, hsub, hgone⟩ : ∃ between,
          ((s.write w).registries.get phase).Lists between ∧ between ⊆ members ∪ arrived ∧
            ∀ y ∈ between, y ∈ members → ¬ w.Deletes phase y := by
        rcases w.puts_or_deletes_or_spares phase with ⟨x, hx⟩ | ⟨x, hx⟩ | hspares
        · have hmem : x ∈ arrived := hputs w List.mem_cons_self x hx
          obtain ⟨between, hsub, hlists⟩ := State.lists_put h hx fun y hy heq =>
            happart (Or.inl hy) (Or.inr hmem) heq
          refine ⟨between, hlists, fun y hy => ?_, fun y _ _ => hx.not_deletes⟩
          rcases hsub hy with rfl | hy
          · exact Or.inr hmem
          · exact Or.inl hy
        · refine ⟨_, State.lists_delete h hx, fun y hy => Or.inl hy.1, fun y hy _ hdeleted => ?_⟩
          rw [hx.unique hdeleted] at hy
          exact hy.2 rfl
        · refine ⟨members, ?_, Set.subset_union_left, fun y _ _ => (hspares y).2⟩
          rw [State.registry_write_of_spares hspares]
          exact h
      have happart' : (between ∪ arrived).InjOn Staker.txId :=
        happart.mono (Set.union_subset hsub Set.subset_union_right)
      obtain ⟨members', hlists', hsub'⟩ := ih hlists hrest happart'
      refine ⟨members', hlists', fun y hy => ?_⟩
      rcases hsub' hy with ⟨hbetween, hkept⟩ | harrived
      · rcases hsub hbetween with hmember | harrived
        · refine Or.inl ⟨hmember, fun w' hw' => ?_⟩
          rcases List.mem_cons.mp hw' with rfl | hw'
          · exact hgone y hbetween hmember
          · exact hkept w' hw'
        · exact Or.inr harrived
      · exact Or.inr harrived

end Root

end StakingLedger
