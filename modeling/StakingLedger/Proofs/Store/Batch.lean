import StakingLedger.Proofs.OrderedMap.Lookup
import StakingLedger.Proofs.Store.KeyLayout
import StakingLedger.Store.Basic

/-! # What a batch leaves in a store

After a batch a key has its last put value; without one it has what it had,
unless it was deleted. A batch is made of parts that write to one space each, so
only the part of its own space counts for a key.
-/

namespace StakingLedger

open OrderedMap

namespace Store

theorem get?_eraseAll (m : OrderedMap Bytes Bytes) (keys : List Bytes) (key : Bytes) :
    (keys.foldl (fun entries k => entries.erase k) m).get? key =
      if key ∈ keys then none else m.get? key := by
  induction keys generalizing m with
  | nil => simp
  | cons k rest ih =>
      rw [List.foldl_cons, ih]
      by_cases hk : key = k
      · subst hk
        simp [get?_erase_self]
      · simp [hk, get?_erase_ne _ hk]

theorem get?_write (store : Store) (batch : WriteBatch) (key : Bytes) :
    (store.write batch).get? key =
      (lastValue? batch.puts key).or (if key ∈ batch.deletes then none else store.get? key) := by
  rw [get?, write, get?_insertMany, get?_eraseAll]
  rfl

/-- Every key belongs to a space. -/
def Keyed (store : Store) : Prop :=
  ∀ key value, store.get? key = some value → ∃ space : KeySpace, space.Names key

theorem keyed_empty : ({} : Store).Keyed := by
  intro key value h
  cases h

theorem Keyed.write {store : Store} {batch : WriteBatch} (h : store.Keyed)
    (hputs : ∀ e ∈ batch.puts, ∃ space : KeySpace, space.Names e.1) :
    (store.write batch).Keyed := by
  intro key value hget
  rw [get?_write, Option.or_eq_some_iff] at hget
  rcases hget with hput | ⟨_, hkept⟩
  · exact hputs (key, value) (mem_of_lastValue?_eq_some hput)
  · split at hkept
    · cases hkept
    · exact h key value hkept

/-- Whatever begins like a key of the space is the key of an identified record. -/
def IdKeyed (store : Store) (space : KeySpace) : Prop :=
  ∀ key value, store.get? key = some value → space.bytes <+: key → ∃ id, key = space.idKey id

theorem Keyed.idKeyed {store : Store} {space : KeySpace} (h : store.Keyed)
    (hwidth : space.width = 32) : store.IdKeyed space := by
  intro key value hget hlead
  obtain ⟨space', hnames⟩ := h key value hget
  cases hnames.of_lead hlead
  exact hnames.exists_id hwidth

theorem Keyed.listed {store : Store} (h : store.Keyed) (space : KeySpace)
    (hlisted : space.isListed = true) : store.IdKeyed space :=
  h.idKeyed (KeySpace.width_of_isListed hlisted)

theorem IdKeyed.write {store : Store} {space : KeySpace} {batch : WriteBatch}
    (h : store.IdKeyed space) (hwidth : space.width = 32)
    (hputs : ∀ e ∈ batch.puts, ∃ space : KeySpace, space.Names e.1) :
    (store.write batch).IdKeyed space := by
  intro key value hget hlead
  rw [get?_write, Option.or_eq_some_iff] at hget
  rcases hget with hput | ⟨_, hkept⟩
  · obtain ⟨space', hnames⟩ := hputs (key, value) (mem_of_lastValue?_eq_some hput)
    cases hnames.of_lead hlead
    exact hnames.exists_id hwidth
  · split at hkept
    · cases hkept
    · exact h key value hkept hlead

end Store

namespace KeySpace

variable {space space' : KeySpace} {entries : List (Bytes × Bytes)} {key : Bytes}

/-- The entries all belong to the space. -/
def NamesAll (space : KeySpace) (entries : List (Bytes × Bytes)) : Prop :=
  ∀ e ∈ entries, space.Names e.1

theorem NamesAll.lastValue?_eq_none (h : space.NamesAll entries) (hkey : space'.Names key)
    (hne : space ≠ space') : lastValue? entries key = none :=
  lastValue?_eq_none_iff.mpr fun _ hmem => hne ((h _ hmem).unique hkey)

/-- Of parts that write to one space each, a key is written by that of its own. -/
theorem lastValue?_flatMap {spaces : List KeySpace} {part : KeySpace → List (Bytes × Bytes)}
    (hnodup : spaces.Nodup) (hparts : ∀ s ∈ spaces, s.NamesAll (part s)) (hkey : space.Names key) :
    lastValue? (spaces.flatMap part) key =
      if space ∈ spaces then lastValue? (part space) key else none := by
  induction spaces with
  | nil => rfl
  | cons s rest ih =>
      obtain ⟨hnotMem, hrest⟩ := List.nodup_cons.mp hnodup
      rw [List.flatMap_cons, lastValue?_append,
        ih hrest fun s' hs' => hparts s' (List.mem_cons_of_mem _ hs')]
      by_cases heq : space = s
      · subst heq
        rw [if_neg hnotMem, if_pos List.mem_cons_self, Option.none_or]
      · have hnone := (hparts s List.mem_cons_self).lastValue?_eq_none hkey (Ne.symm heq)
        simp [hnone, heq]

end KeySpace

end StakingLedger
