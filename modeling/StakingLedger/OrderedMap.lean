/-! # Ordered maps

A finite map is kept as the list of its entries in increasing key order, so a
walk over it needs no sorting and two maps with the same look-ups are the same
value. Keys are compared through `compare`; the laws of an order on the key
type are asked for only where an operation has to keep the entries sorted.
-/

namespace StakingLedger

/-- A finite map whose entries are listed in strictly increasing key order. -/
structure OrderedMap (α β : Type) [Ord α] where
  /-- The entries, in key order. -/
  entries : List (α × β)
  /-- Every entry's key is below the keys after it. -/
  sorted : entries.Pairwise (fun a b => compare a.1 b.1 = .lt)

namespace OrderedMap

variable {α β : Type} [Ord α]

instance [DecidableEq α] [DecidableEq β] : DecidableEq (OrderedMap α β) := fun m n =>
  if h : m.entries = n.entries then
    .isTrue (by cases m; cases n; cases h; rfl)
  else
    .isFalse (fun e => h (congrArg entries e))

theorem ext_entries {m n : OrderedMap α β} (h : m.entries = n.entries) : m = n := by
  cases m; cases n; cases h; rfl

/-- The map without entries. -/
def empty : OrderedMap α β := ⟨[], .nil⟩

instance : EmptyCollection (OrderedMap α β) := ⟨empty⟩

instance : Inhabited (OrderedMap α β) := ⟨empty⟩

def isEmpty (m : OrderedMap α β) : Bool := m.entries.isEmpty

def size (m : OrderedMap α β) : Nat := m.entries.length

def keys (m : OrderedMap α β) : List α := m.entries.map Prod.fst

def values (m : OrderedMap α β) : List β := m.entries.map Prod.snd

/-- The value stored under `k`. -/
def get? (m : OrderedMap α β) (k : α) : Option β :=
  (m.entries.find? (fun e => compare k e.1 == .eq)).map Prod.snd

def contains (m : OrderedMap α β) (k : α) : Bool := (m.get? k).isSome

/-- Keeps the entries that `p` holds of. -/
def filter (m : OrderedMap α β) (p : α × β → Bool) : OrderedMap α β :=
  ⟨m.entries.filter p, m.sorted.filter p⟩

/-- Drops the entry of `k`, if there is one. -/
def erase (m : OrderedMap α β) (k : α) : OrderedMap α β :=
  m.filter (fun e => compare k e.1 != .eq)

/-- Splits off the entry of the least key. -/
def popFirst? (m : OrderedMap α β) : Option ((α × β) × OrderedMap α β) :=
  match h : m.entries with
  | [] => none
  | e :: rest => some (e, ⟨rest, (List.pairwise_cons.mp (h ▸ m.sorted)).2⟩)

theorem size_of_popFirst? {m n : OrderedMap α β} {e : α × β} (h : m.popFirst? = some (e, n)) :
    m.size = n.size + 1 := by
  unfold popFirst? at h
  split at h
  · cases h
  next hentries =>
    cases h
    simp [size, hentries]

/-- Puts an entry in its place in a sorted list, over the entry of the same key if there is one. -/
def insertEntry (k : α) (v : β) : List (α × β) → List (α × β)
  | [] => [(k, v)]
  | e :: rest =>
    match compare k e.1 with
    | .lt => (k, v) :: e :: rest
    | .eq => (k, v) :: rest
    | .gt => e :: insertEntry k v rest

theorem mem_insertEntry {k : α} {v : β} {l : List (α × β)} {x : α × β}
    (h : x ∈ insertEntry k v l) : x = (k, v) ∨ x ∈ l := by
  induction l with
  | nil => simpa [insertEntry] using h
  | cons e rest ih =>
    simp only [insertEntry] at h
    split at h
    · simpa using h
    · rcases List.mem_cons.mp h with h | h
      · exact .inl h
      · exact .inr (List.mem_cons_of_mem _ h)
    · rcases List.mem_cons.mp h with h | h
      · exact .inr (h ▸ List.mem_cons_self)
      · rcases ih h with h | h
        · exact .inl h
        · exact .inr (List.mem_cons_of_mem _ h)

theorem length_insertEntry_le (k : α) (v : β) (l : List (α × β)) :
    (insertEntry k v l).length ≤ l.length + 1 := by
  induction l with
  | nil => simp [insertEntry]
  | cons e rest ih =>
    simp only [insertEntry]
    split <;> simp only [List.length_cons] <;> omega

section Ordered

variable [Std.TransOrd α] [Std.LawfulEqOrd α]

theorem sorted_insertEntry (k : α) (v : β) {l : List (α × β)}
    (h : l.Pairwise (fun a b => compare a.1 b.1 = .lt)) :
    (insertEntry k v l).Pairwise (fun a b => compare a.1 b.1 = .lt) := by
  induction l with
  | nil => simp [insertEntry]
  | cons e rest ih =>
    obtain ⟨hhead, htail⟩ := List.pairwise_cons.mp h
    simp only [insertEntry]
    split
    next hlt =>
      refine List.pairwise_cons.mpr ⟨fun x hx => ?_, h⟩
      rcases List.mem_cons.mp hx with rfl | hx
      · exact hlt
      · exact Std.TransCmp.lt_trans hlt (hhead x hx)
    next heq =>
      have hkey : k = e.1 := Std.LawfulEqCmp.eq_of_compare heq
      exact List.pairwise_cons.mpr ⟨fun x hx => hkey ▸ hhead x hx, htail⟩
    next hgt =>
      refine List.pairwise_cons.mpr ⟨fun x hx => ?_, ih htail⟩
      rcases mem_insertEntry hx with rfl | hx
      · exact Std.OrientedCmp.lt_of_gt hgt
      · exact hhead x hx

/-- Stores `v` under `k`, over what was there. -/
def insert (m : OrderedMap α β) (k : α) (v : β) : OrderedMap α β :=
  ⟨insertEntry k v m.entries, sorted_insertEntry k v m.sorted⟩

/-- Stores every pair in turn, so a later pair wins over an earlier one of the same key. -/
def insertMany (m : OrderedMap α β) (pairs : List (α × β)) : OrderedMap α β :=
  pairs.foldl (fun m e => m.insert e.1 e.2) m

/-- The map of the given pairs; of two with the same key the later one counts. -/
def ofList (pairs : List (α × β)) : OrderedMap α β := empty.insertMany pairs

/-- Replaces what stands under `k` by `f` of it; `none` stands for no entry. -/
def alter (m : OrderedMap α β) (k : α) (f : Option β → Option β) : OrderedMap α β :=
  match f (m.get? k) with
  | some v => m.insert k v
  | none => m.erase k

theorem size_insert_le (m : OrderedMap α β) (k : α) (v : β) :
    (m.insert k v).size ≤ m.size + 1 :=
  length_insertEntry_le k v m.entries

end Ordered

/-! ## Look-ups -/

@[simp] theorem get?_empty (k : α) : (empty : OrderedMap α β).get? k = none := rfl

theorem compare_ne_of_compare [Std.LawfulEqOrd α] {k k' l : α} (h : compare k l ≠ .eq)
    (h' : compare k' l = .eq) : compare k' k ≠ .eq := by
  intro hk
  have hkey : k' = k := Std.LawfulEqCmp.eq_of_compare hk
  exact h (hkey ▸ h')

theorem get?_erase [Std.LawfulEqOrd α] (m : OrderedMap α β) (k k' : α) :
    (m.erase k).get? k' = if compare k' k = .eq then none else m.get? k' := by
  unfold get? erase filter
  simp only
  induction m.entries with
  | nil => simp
  | cons e rest ih =>
    by_cases hk : compare k e.1 = .eq
    · have hkey : k = e.1 := Std.LawfulEqCmp.eq_of_compare hk
      by_cases h : compare k' k = .eq
      · simpa [hk, h] using ih
      · have h' : ¬ compare k' e.1 = .eq := hkey ▸ h
        simpa [hk, h, h'] using ih
    · by_cases h' : compare k' e.1 = .eq
      · have hne := compare_ne_of_compare hk h'
        simp [hk, h', hne]
      · simpa [hk, h'] using ih

variable [Std.TransOrd α] [Std.LawfulEqOrd α]

theorem get?_insert (m : OrderedMap α β) (k k' : α) (v : β) :
    (m.insert k v).get? k' = if compare k' k = .eq then some v else m.get? k' := by
  unfold get? insert
  simp only
  induction m.entries with
  | nil => by_cases h : compare k' k = .eq <;> simp [insertEntry, h]
  | cons e rest ih =>
    simp only [insertEntry]
    split
    next => by_cases h : compare k' k = .eq <;> simp [h]
    next heq =>
      have hkey : k = e.1 := Std.LawfulEqCmp.eq_of_compare heq
      by_cases h : compare k' k = .eq
      · simp [h]
      · have h' : ¬ compare k' e.1 = .eq := hkey ▸ h
        simp [h, h']
    next hgt =>
      by_cases h' : compare k' e.1 = .eq
      · have hne := compare_ne_of_compare (k := k) (by simp [hgt]) h'
        simp [h', hne]
      · have hb : (compare k' e.1 == .eq) = false := by simpa using h'
        simpa [List.find?_cons, hb] using ih

@[simp] theorem get?_insert_self (m : OrderedMap α β) (k : α) (v : β) :
    (m.insert k v).get? k = some v := by
  have hself : compare k k = .eq := Std.ReflCmp.compare_self
  rw [get?_insert, if_pos hself]

end OrderedMap

end StakingLedger
