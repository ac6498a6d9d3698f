import StakingLedger.Proofs.Answer
import StakingLedger.Proofs.Bytes.Order
import StakingLedger.Store.Key

/-! # The layout of keys

No lead of a family of records begins another one, so a key belongs to one
family and tells the identifiers in it. What is written under an identifier is
parsed back to it.
-/

namespace StakingLedger

namespace FixedBytes

variable {n : Nat}

theorem toList_inj {a b : FixedBytes n} : a.toList = b.toList ↔ a = b := by
  constructor
  · intro h
    cases a; cases b; cases h; rfl
  · exact congrArg toList

theorem ofList?_eq_some_iff {bytes : Bytes} {a : FixedBytes n} :
    ofList? n bytes = some a ↔ a.toList = bytes := by
  unfold ofList?
  split
  next h =>
    rw [Option.some.injEq]
    exact ⟨fun heq => heq ▸ rfl, fun heq => toList_inj.mp heq.symm⟩
  next h =>
    constructor
    · intro hnone; cases hnone
    · rintro rfl
      exact absurd a.length_toList h

/-- A reader that accepts just the byte strings of length `n` reads each value from its own
bytes. -/
theorem read_eq_ok_iff {read : Bytes → Except IdError (FixedBytes n)}
    (hsome : ∀ bytes a, ofList? n bytes = some a → read bytes = .ok a)
    (hnone : ∀ bytes, ofList? n bytes = none → ∃ e, read bytes = .error e)
    {bytes : Bytes} {a : FixedBytes n} : read bytes = .ok a ↔ a.toList = bytes := by
  rw [← ofList?_eq_some_iff]
  cases hread : ofList? n bytes with
  | none =>
      obtain ⟨e, herror⟩ := hnone bytes hread
      rw [herror]
      exact iff_of_false nofun nofun
  | some b => rw [hsome bytes b hread, Except.ok.injEq, Option.some.injEq]

/-- A value of fixed width begins just the bytes that have it first. -/
theorem prefix_append {a b : FixedBytes n} {rest : Bytes} :
    a.toList <+: b.toList ++ rest ↔ a = b := by
  constructor
  · intro h
    have hbegins := List.prefix_of_prefix_length_le h (List.prefix_append _ rest)
      (by simp [a.length_toList, b.length_toList])
    exact toList_inj.mp (hbegins.eq_of_length (a.length_toList.trans b.length_toList.symm))
  · rintro rfl
    exact List.prefix_append _ _

end FixedBytes

theorem EntityId.ofBytes_eq_ok_iff {bytes : Bytes} {id : EntityId} :
    EntityId.ofBytes bytes = .ok id ↔ id.toList = bytes :=
  FixedBytes.read_eq_ok_iff (fun _ _ hsome => by rw [EntityId.ofBytes, hsome])
    fun _ hnone => ⟨_, by rw [EntityId.ofBytes, hnone]⟩

theorem NodeId.ofBytes_eq_ok_iff {bytes : Bytes} {id : NodeId} :
    NodeId.ofBytes bytes = .ok id ↔ id.toList = bytes :=
  FixedBytes.read_eq_ok_iff (fun _ _ hsome => by rw [NodeId.ofBytes, hsome])
    fun _ hnone => ⟨_, by rw [NodeId.ofBytes, hnone]⟩

namespace Key

theorem identifier_eq_ok_iff {α : Type} {read : Except IdError α} {a : α} :
    identifier read = .ok a ↔ read = .ok a := by
  cases read with
  | error e => exact iff_of_false nofun nofun
  | ok b =>
      change Except.ok b = Except.ok a ↔ _
      rw [Except.ok.injEq, Except.ok.injEq]

theorem dropLead?_eq_some_iff {lead key suffix : Bytes} :
    dropLead? lead key = some suffix ↔ key = lead ++ suffix := by
  unfold dropLead?
  split
  next h =>
    obtain ⟨rest, rfl⟩ := List.isPrefixOf_iff_prefix.mp h
    rw [List.drop_left, Option.some.injEq, List.append_cancel_left_eq]
  next h =>
    constructor
    · intro hnone; cases hnone
    · rintro rfl
      exact absurd (List.isPrefixOf_iff_prefix.mpr ⟨suffix, rfl⟩) h

/-- An identifier is parsed from the key of its record and from no other. -/
theorem parseId_eq_ok_iff {space : KeySpace} {key : Bytes} {id : EntityId} :
    parseId space key = .ok id ↔ key = space.idKey id := by
  unfold parseId KeySpace.idKey
  cases hdrop : dropLead? space.bytes key with
  | none =>
      constructor
      · intro h; cases h
      · intro h
        rw [dropLead?_eq_some_iff.mpr h] at hdrop
        cases hdrop
  | some suffix =>
      have hkey := dropLead?_eq_some_iff.mp hdrop
      dsimp only
      rw [identifier_eq_ok_iff, EntityId.ofBytes_eq_ok_iff, hkey, List.append_cancel_left_eq,
        eq_comm]

theorem parseId_idKey (space : KeySpace) (id : EntityId) : parseId space (space.idKey id) = .ok id :=
  parseId_eq_ok_iff.mpr rfl

theorem decodeWord_wordBytes (n : UInt64) : decodeWord (wordBytes n) = .ok n := by
  rw [decodeWord, if_pos (length_wordBytes n), ofBigEndian_wordBytes]

/-- A word is read from its own bytes only. -/
theorem decodeWord_eq_ok_iff {bytes : Bytes} {n : UInt64} :
    decodeWord bytes = .ok n ↔ bytes = wordBytes n := by
  constructor
  · intro h
    unfold decodeWord at h
    split at h
    next hlength =>
      obtain ⟨m, rfl⟩ := exists_wordBytes hlength
      rw [ofBigEndian_wordBytes] at h
      cases h
      rfl
    next => cases h
  · rintro rfl
    exact decodeWord_wordBytes n

end Key

namespace KeySpace

variable {space space' : KeySpace} {key : Bytes}

def all : List KeySpace :=
  [.timestamp, .height, .feePool, .supply, .rewardPool, .currentStaker, .pendingStaker,
    .weightChange, .publicKeyChange, .utxo, .rewardUtxo, .supernet, .transformation, .chain, .tx]

theorem mem_all (space : KeySpace) : space ∈ all := by
  cases space <;> decide

theorem isPrefixOf_bytes :
    ∀ space ∈ all, ∀ space' ∈ all, space ≠ space' → space.bytes.isPrefixOf space'.bytes = false := by
  decide +kernel

/-- No lead begins another one. -/
theorem not_prefix_of_ne (h : space ≠ space') : ¬ space.bytes <+: space'.bytes := by
  rw [← List.isPrefixOf_iff_prefix,
    isPrefixOf_bytes space (mem_all space) space' (mem_all space') h]
  decide

theorem eq_of_append_eq {a b : Bytes} (h : space.bytes ++ a = space'.bytes ++ b) :
    space = space' := by
  refine Decidable.byContradiction fun hne => ?_
  rcases List.prefix_or_prefix_of_prefix (List.prefix_append space.bytes a)
    (h ▸ List.prefix_append space'.bytes b) with hlead | hlead
  · exact not_prefix_of_ne hne hlead
  · exact not_prefix_of_ne (Ne.symm hne) hlead

/-- How many bytes follow the lead in the keys of a space. -/
def width : KeySpace → Nat
  | .timestamp | .height | .feePool => 0
  | .utxo | .rewardUtxo => 36
  | .chain => 64
  | .weightChange | .publicKeyChange => Key.changeSuffixLength
  | _ => 32

/-- A key of the space: its lead, and as many bytes after it as the keys of the space have. -/
def Names (space : KeySpace) (key : Bytes) : Prop :=
  ∃ suffix, key = space.bytes ++ suffix ∧ suffix.length = space.width

namespace Names

theorem unique (h : space.Names key) (h' : space'.Names key) : space = space' := by
  obtain ⟨suffix, rfl, _⟩ := h
  obtain ⟨suffix', heq, _⟩ := h'
  exact eq_of_append_eq heq

/-- A key that begins with the lead of a space is one of the space. -/
theorem of_prefix (h : space.Names key) {rest : Bytes} (hbegins : space'.bytes ++ rest <+: key) :
    space = space' := by
  obtain ⟨suffix, rfl, _⟩ := h
  obtain ⟨tail, heq⟩ := hbegins
  rw [List.append_assoc] at heq
  exact (eq_of_append_eq heq).symm

theorem of_lead (h : space.Names key) (hlead : space'.bytes <+: key) : space = space' := by
  rw [← List.append_nil space'.bytes] at hlead
  exact h.of_prefix hlead

theorem single (hwidth : space.width = 0) : space.Names space.bytes :=
  ⟨[], (List.append_nil _).symm, hwidth.symm⟩

theorem idKey (hwidth : space.width = 32) (id : EntityId) : space.Names (space.idKey id) :=
  ⟨id.toList, rfl, id.length_toList.trans hwidth.symm⟩

theorem utxo (id : UtxoId) : KeySpace.utxo.Names (Key.utxo id) := by
  refine ⟨id.keyBytes, rfl, ?_⟩
  rw [UtxoId.keyBytes, List.length_append, id.txId.length_toList, length_bigEndian]
  rfl

theorem rewardUtxo (stakerTx : EntityId) (index : UInt32) :
    KeySpace.rewardUtxo.Names (Key.rewardUtxo stakerTx index) := by
  refine ⟨stakerTx.toList ++ bigEndian 4 index.toNat, List.append_assoc _ _ _, ?_⟩
  rw [List.length_append, stakerTx.length_toList, length_bigEndian]
  rfl

theorem chain (supernet chain : EntityId) : KeySpace.chain.Names (Key.chain supernet chain) := by
  refine ⟨supernet.toList ++ chain.toList, List.append_assoc _ _ _, ?_⟩
  rw [List.length_append, supernet.length_toList, chain.length_toList]
  rfl

theorem change (hwidth : space.width = Key.changeSuffixLength) (supernet : EntityId)
    (height : UInt64) (node : NodeId) : space.Names (Key.change space supernet height node) := by
  refine ⟨supernet.toList ++ Key.invertedHeight height ++ node.toList, ?_, ?_⟩
  · simp only [Key.change_eq, KeySpace.idKey, List.append_assoc]
  · rw [hwidth, List.length_append, List.length_append, supernet.length_toList,
      node.length_toList, Key.invertedHeight, length_wordBytes]
    rfl

/-- The keys of a space with one identifier are those of its records. -/
theorem exists_id (hwidth : space.width = 32) (h : space.Names key) :
    ∃ id, key = space.idKey id := by
  obtain ⟨suffix, rfl, hlength⟩ := h
  exact ⟨⟨suffix, hlength.trans hwidth⟩, rfl⟩

/-- A key of a single record is the lead itself. -/
theorem eq_bytes (hwidth : space.width = 0) (h : space.Names key) : key = space.bytes := by
  obtain ⟨suffix, rfl, hlength⟩ := h
  rw [List.eq_nil_of_length_eq_zero (hlength.trans hwidth), List.append_nil]

/-- An identifier is what stands first after the lead. -/
theorem exists_idKey_append (h : space.Names key) (hwidth : 32 ≤ space.width) :
    ∃ id rest, key = space.idKey id ++ rest ∧ rest.length = space.width - 32 := by
  obtain ⟨suffix, rfl, hlength⟩ := h
  have hid : (suffix.take 32).length = 32 := List.length_take_of_le (hlength ▸ hwidth)
  refine ⟨⟨suffix.take 32, hid⟩, suffix.drop 32, ?_, by rw [List.length_drop, hlength]⟩
  rw [KeySpace.idKey, List.append_assoc]
  exact congrArg _ (List.take_append_drop 32 suffix).symm

theorem exists_index {rest : Bytes} (h : rest.length = 4) :
    ∃ index : UInt32, rest = bigEndian 4 index.toNat := by
  obtain ⟨n, hlt, rfl⟩ := exists_bigEndian h
  exact ⟨UInt32.ofNat n, by rw [UInt32.toNat_ofNat_of_lt' hlt]⟩

theorem exists_utxo (h : KeySpace.utxo.Names key) : ∃ id, key = Key.utxo id := by
  obtain ⟨txId, rest, rfl, hrest⟩ := h.exists_idKey_append (by decide)
  obtain ⟨index, rfl⟩ := exists_index hrest
  exact ⟨⟨txId, index⟩, List.append_assoc _ _ _⟩

theorem exists_rewardUtxo (h : KeySpace.rewardUtxo.Names key) :
    ∃ stakerTx index, key = Key.rewardUtxo stakerTx index := by
  obtain ⟨stakerTx, rest, rfl, hrest⟩ := h.exists_idKey_append (by decide)
  obtain ⟨index, rfl⟩ := exists_index hrest
  exact ⟨stakerTx, index, rfl⟩

theorem exists_chain (h : KeySpace.chain.Names key) :
    ∃ supernet id, key = Key.chain supernet id := by
  obtain ⟨supernet, rest, rfl, hrest⟩ := h.exists_idKey_append (by decide)
  exact ⟨supernet, ⟨rest, hrest⟩, rfl⟩

end Names

theorem idKey_inj {a b : EntityId} : space.idKey a = space.idKey b ↔ a = b := by
  rw [idKey, idKey, List.append_cancel_left_eq, FixedBytes.toList_inj]

/-- The key of an identified record begins just the keys that have the identifier next. -/
theorem idKey_prefix_append {a b : EntityId} {rest : Bytes} :
    space.idKey a <+: space.idKey b ++ rest ↔ a = b := by
  rw [idKey, idKey, List.append_assoc, List.prefix_append_right_inj, FixedBytes.prefix_append]

theorem width_staker (phase : Phase) : (staker phase).width = 32 := by
  cases phase <;> rfl

/-- The records of the space are read one by one when a store is loaded. -/
def isListed : KeySpace → Bool
  | .supply | .rewardPool | .currentStaker | .pendingStaker => true
  | _ => false

theorem width_of_isListed (h : space.isListed = true) : space.width = 32 := by
  cases space <;> first | rfl | cases h

theorem isListed_staker (phase : Phase) : (staker phase).isListed = true := by
  cases phase <;> rfl

end KeySpace

namespace Key

theorem utxo_inj {a b : UtxoId} : utxo a = utxo b ↔ a = b := by
  constructor
  · intro h
    obtain ⟨htx, hindex⟩ := List.append_inj (List.append_cancel_left h)
      (a.txId.length_toList.trans b.txId.length_toList.symm)
    have hnat := @bigEndian_inj 4 _ _ a.outputIndex.toNat_lt b.outputIndex.toNat_lt hindex
    cases a
    cases b
    cases FixedBytes.toList_inj.mp htx
    cases UInt32.toNat_inj.mp hnat
    rfl
  · exact congrArg utxo

theorem rewardUtxo_inj {a b : EntityId} {i j : UInt32} :
    rewardUtxo a i = rewardUtxo b j ↔ a = b ∧ i = j := by
  constructor
  · intro h
    obtain ⟨hid, hindex⟩ := List.append_inj h
      (by simp [KeySpace.idKey, a.length_toList, b.length_toList])
    have hnat := @bigEndian_inj 4 _ _ i.toNat_lt j.toNat_lt hindex
    exact ⟨KeySpace.idKey_inj.mp hid, UInt32.toNat_inj.mp hnat⟩
  · rintro ⟨rfl, rfl⟩
    rfl

theorem chain_inj {a b c d : EntityId} : chain a c = chain b d ↔ a = b ∧ c = d := by
  constructor
  · intro h
    obtain ⟨hsupernet, hchain⟩ := List.append_inj h
      (by simp [KeySpace.idKey, a.length_toList, b.length_toList])
    exact ⟨KeySpace.idKey_inj.mp hsupernet, FixedBytes.toList_inj.mp hchain⟩
  · rintro ⟨rfl, rfl⟩
    rfl

theorem invertedHeight_inj {a b : UInt64} (h : invertedHeight a = invertedHeight b) : a = b := by
  have hnot := congrArg (~~~ ·) (wordBytes_inj h)
  simpa using hnot

theorem changeUnder_inj {lead : Bytes} {supernet supernet' : EntityId} {height height' : UInt64}
    {node node' : NodeId} :
    changeUnder lead supernet height node = changeUnder lead supernet' height' node' ↔
      supernet = supernet' ∧ height = height' ∧ node = node' := by
  constructor
  · intro h
    obtain ⟨hfront, hnode⟩ := List.append_inj h
      (by simp [invertedHeight, supernet.length_toList, supernet'.length_toList])
    obtain ⟨hsupernet, hheight⟩ := List.append_inj hfront
      (by simp [supernet.length_toList, supernet'.length_toList])
    exact ⟨FixedBytes.toList_inj.mp (List.append_cancel_left hsupernet),
      invertedHeight_inj hheight, FixedBytes.toList_inj.mp hnode⟩
  · rintro ⟨rfl, rfl, rfl⟩
    rfl

theorem change_inj {space : KeySpace} {supernet supernet' : EntityId} {height height' : UInt64}
    {node node' : NodeId} :
    change space supernet height node = change space supernet' height' node' ↔
      supernet = supernet' ∧ height = height' ∧ node = node' := changeUnder_inj

end Key

end StakingLedger
