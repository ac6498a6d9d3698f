import StakingLedger.Proofs.OrderedMap.Lookup

/-! # Maps as indexes of sets

A map indexes a set when it holds exactly the members of the set, each under
its own key. Walking such a map enumerates the set in key order, and there is
only one such enumeration.
-/

namespace StakingLedger

variable {α β : Type} [Ord α]

/-- The list runs through the set in strictly increasing order of keys. -/
structure Enumerates (l : List β) (key : β → α) (members : Set β) : Prop where
  sorted : l.Pairwise fun a b => compare (key a) (key b) = .lt
  mem_iff : ∀ b, b ∈ l ↔ b ∈ members

namespace Enumerates

variable {l l' : List β} {key : β → α} {members : Set β}

theorem filter (h : Enumerates l key members) (p : β → Bool) :
    Enumerates (l.filter p) key {b | b ∈ members ∧ p b = true} :=
  ⟨h.sorted.filter p, fun b => by simp [h.mem_iff]⟩

theorem congr {members' : Set β} (h : Enumerates l key members)
    (heq : ∀ b, b ∈ members ↔ b ∈ members') : Enumerates l key members' :=
  ⟨h.sorted, fun b => (h.mem_iff b).trans (heq b)⟩

variable [Std.LawfulEqOrd α]

theorem keys_distinct (h : Enumerates l key members) : l.Pairwise fun a b => key a ≠ key b :=
  h.sorted.imp OrderedMap.ne_of_compare_lt

theorem nodup (h : Enumerates l key members) : l.Nodup :=
  h.keys_distinct.imp fun hne heq => hne (congrArg key heq)

theorem unique [Std.TransOrd α] (h : Enumerates l key members)
    (h' : Enumerates l' key members) : l = l' := by
  have hperm : l.Perm l' := (List.perm_ext_iff_of_nodup h.nodup h'.nodup).mpr fun b => by
    rw [h.mem_iff, h'.mem_iff]
  refine List.Perm.eq_of_pairwise ?_ h.sorted h'.sorted hperm
  intro a b _ _ hlt hgt
  exact absurd hgt (OrderedMap.not_compare_lt_and_gt hlt)

end Enumerates

namespace OrderedMap

/-- The map holds exactly the members of a set, each under its own key. -/
def Indexes (m : OrderedMap α β) (key : β → α) (members : Set β) : Prop :=
  ∀ k b, m.get? k = some b ↔ b ∈ members ∧ key b = k

namespace Indexes

variable {m : OrderedMap α β} {key : β → α} {members : Set β}

theorem congr {members' : Set β} (h : m.Indexes key members)
    (heq : ∀ b, b ∈ members ↔ b ∈ members') : m.Indexes key members' :=
  fun k b => by rw [h k b, heq]

theorem get?_key (h : m.Indexes key members) {b : β} (hb : b ∈ members) :
    m.get? (key b) = some b :=
  (h _ _).mpr ⟨hb, rfl⟩

theorem injOn (h : m.Indexes key members) : members.InjOn key := by
  intro a ha b hb hkey
  have hget := h.get?_key ha
  rw [hkey, h.get?_key hb] at hget
  exact (Option.some.inj hget).symm

theorem contains_iff (h : m.Indexes key members) {k : α} :
    m.contains k = true ↔ ∃ b ∈ members, key b = k := by
  rw [contains_eq_true_iff]
  exact exists_congr fun b => h k b

theorem empty : (OrderedMap.empty : OrderedMap α β).Indexes key ∅ :=
  fun k b => by simp

variable [Std.LawfulEqOrd α]

theorem isEmpty_iff (h : m.Indexes key members) :
    m.isEmpty = true ↔ ∀ b, b ∉ members := by
  rw [isEmpty_iff_forall]
  constructor
  · intro hnone b hb
    have hget := h.get?_key hb
    rw [hnone] at hget
    cases hget
  · intro hnone k
    cases hget : m.get? k with
    | none => rfl
    | some b => exact absurd ((h k b).mp hget).1 (hnone b)

theorem mem_values (h : m.Indexes key members) {b : β} : b ∈ m.values ↔ b ∈ members := by
  rw [mem_values_iff]
  constructor
  · rintro ⟨k, hget⟩
    exact ((h k b).mp hget).1
  · exact fun hb => ⟨key b, h.get?_key hb⟩

theorem enumerates (h : m.Indexes key members) : Enumerates m.values key members := by
  refine ⟨List.pairwise_map.mpr ?_, fun b => h.mem_values⟩
  refine m.sorted.imp_of_mem fun {a b} ha hb hlt => ?_
  have hkey : ∀ e ∈ m.entries, key e.2 = e.1 := fun e he =>
    ((h e.1 e.2).mp (get?_eq_some_iff.mpr he)).2
  rwa [hkey a ha, hkey b hb]

theorem erase (h : m.Indexes key members) {b : β} (hb : b ∈ members) :
    (m.erase (key b)).Indexes key (members \ {b}) := by
  intro k c
  by_cases hk : k = key b
  · subst hk
    rw [get?_erase_self]
    constructor
    · intro hnone; cases hnone
    · rintro ⟨⟨hc, hne⟩, hkey⟩
      exact absurd (h.injOn hc hb hkey) hne
  · rw [get?_erase_ne _ hk, h k c]
    constructor
    · rintro ⟨hc, hkey⟩
      exact ⟨⟨hc, fun heq => hk (by rw [← hkey, heq])⟩, hkey⟩
    · rintro ⟨⟨hc, _⟩, hkey⟩
      exact ⟨hc, hkey⟩

variable [Std.TransOrd α]

/-- Two maps that index the same members are the same. -/
theorem unique {m' : OrderedMap α β} (h : m.Indexes key members) (h' : m'.Indexes key members) :
    m = m' :=
  ext_get? fun k => Option.ext fun b => (h k b).trans (h' k b).symm

/-- What is put takes the place of the member with its key, if there is one. -/
theorem put (h : m.Indexes key members) (b : β) :
    (m.insert (key b) b).Indexes key (Insert.insert b {c | c ∈ members ∧ key c ≠ key b}) := by
  intro k c
  by_cases hk : k = key b
  · subst hk
    rw [get?_insert_self, Option.some.injEq, Set.mem_insert_iff]
    constructor
    · rintro rfl
      exact ⟨Or.inl rfl, rfl⟩
    · rintro ⟨rfl | hc, hkey⟩
      · rfl
      · exact absurd hkey hc.2
  · rw [get?_insert_ne _ _ hk, h k c, Set.mem_insert_iff]
    constructor
    · rintro ⟨hc, rfl⟩
      exact ⟨Or.inr ⟨hc, hk⟩, rfl⟩
    · rintro ⟨rfl | hc, hkey⟩
      · exact absurd hkey.symm hk
      · exact ⟨hc.1, hkey⟩

theorem insert (h : m.Indexes key members) {b : β}
    (hfresh : ∀ c ∈ members, key c = key b → c = b) :
    (m.insert (key b) b).Indexes key (Insert.insert b members) := by
  refine (h.put b).congr fun c => ?_
  rw [Set.mem_insert_iff, Set.mem_insert_iff]
  constructor
  · exact fun hc => hc.imp_right And.left
  · rintro (rfl | hc)
    · exact Or.inl rfl
    · by_cases hkey : key c = key b
      · exact Or.inl (hfresh c hc hkey)
      · exact Or.inr ⟨hc, hkey⟩

end Indexes

/-- A list of the members makes an index of them, in whatever order it has them. -/
theorem indexes_ofList [DecidableEq α] [Std.LawfulEqOrd α] [Std.TransOrd α] {l : List β}
    {key : β → α} {members : Set β} (hmem : ∀ b, b ∈ l ↔ b ∈ members)
    (hinj : members.InjOn key) :
    (ofList (l.map fun b => (key b, b))).Indexes key members := by
  intro k b
  rw [ofList, get?_insertMany, get?_empty, Option.or_none]
  constructor
  · intro hlast
    obtain ⟨c, hc, heq⟩ := List.mem_map.mp (mem_of_lastValue?_eq_some hlast)
    obtain ⟨hkey, rfl⟩ := Prod.mk.inj heq
    exact ⟨(hmem c).mp hc, hkey⟩
  · rintro ⟨hb, rfl⟩
    refine lastValue?_eq_some_of_mem (List.mem_map.mpr ⟨b, (hmem b).mpr hb, rfl⟩) fun c hc => ?_
    obtain ⟨c', hc', heq⟩ := List.mem_map.mp hc
    obtain ⟨hkey, rfl⟩ := Prod.mk.inj heq
    exact hinj ((hmem c').mp hc') hb hkey

end OrderedMap

end StakingLedger
