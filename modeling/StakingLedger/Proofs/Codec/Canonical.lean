import Mathlib.Algebra.Group.Nat.Defs
import StakingLedger.Proofs.Bytes.Order
import StakingLedger.Proofs.Codec.Laws

/-! # Only byte forms are read

A byte string is read as a value only if it is the byte form of that value, and
then every length in it can be written. Together with the reading back of byte
forms this makes them canonical: no value has two, and none is the front of
another.
-/

namespace StakingLedger

/-- A type whose values are read from their byte forms only. -/
class CanonicalCodec (α : Type) [Codec α] : Prop where
  eq_encode_of_decode : ∀ {bytes rest : Bytes} {a : α}, Codec.decode bytes = some (a, rest) →
    bytes = Codec.encode a ++ rest ∧ Codec.fits a = true

namespace Codec

variable {α β : Type} {bytes rest : Bytes}

theorem eq_append_of_splitBytes {n : Nat} {taken : Bytes}
    (h : splitBytes n bytes = some (taken, rest)) : bytes = taken ++ rest ∧ taken.length = n := by
  unfold splitBytes at h
  split at h
  next hlength =>
    cases h
    exact ⟨(List.take_append_drop n bytes).symm, List.length_take_of_le hlength⟩
  next => cases h

theorem eq_append_of_decodeWord {width n : Nat} (h : decodeWord width bytes = some (n, rest)) :
    bytes = littleEndian width n ++ rest ∧ n < valueCount width := by
  obtain ⟨⟨digits, after⟩, hsplit, h⟩ := Option.bind_eq_some_iff.mp h
  cases h
  obtain ⟨hbytes, hlength⟩ := eq_append_of_splitBytes hsplit
  rw [← hlength, littleEndian_ofLittleEndian]
  exact ⟨hbytes, ofLittleEndian_lt digits⟩

instance : CanonicalCodec UInt32 where
  eq_encode_of_decode {bytes rest a} h := by
    obtain ⟨⟨n, after⟩, hword, h⟩ := Option.map_eq_some_iff.mp h
    cases h
    obtain ⟨hbytes, hn⟩ := eq_append_of_decodeWord hword
    have hvalue : (UInt32.ofNat n).toNat = n := UInt32.toNat_ofNat_of_lt' hn
    refine ⟨?_, rfl⟩
    change bytes = littleEndian 4 (UInt32.ofNat n).toNat ++ rest
    rwa [hvalue]

instance : CanonicalCodec UInt64 where
  eq_encode_of_decode {bytes rest a} h := by
    obtain ⟨⟨n, after⟩, hword, h⟩ := Option.map_eq_some_iff.mp h
    cases h
    obtain ⟨hbytes, hn⟩ := eq_append_of_decodeWord hword
    have hvalue : (UInt64.ofNat n).toNat = n := UInt64.toNat_ofNat_of_lt' hn
    refine ⟨?_, rfl⟩
    change bytes = littleEndian 8 (UInt64.ofNat n).toNat ++ rest
    rwa [hvalue]

instance : CanonicalCodec Bool where
  eq_encode_of_decode {bytes rest a} h := by
    simp only [decode] at h
    split at h <;> cases h <;> exact ⟨rfl, rfl⟩

instance [Codec α] [CanonicalCodec α] : CanonicalCodec (Option α) where
  eq_encode_of_decode {bytes rest a?} h := by
    simp only [decode] at h
    split at h
    next => cases h; exact ⟨rfl, rfl⟩
    next tail =>
      obtain ⟨⟨a, after⟩, hread, h⟩ := Option.bind_eq_some_iff.mp h
      cases h
      obtain ⟨htail, hfits⟩ := CanonicalCodec.eq_encode_of_decode hread
      exact ⟨congrArg (1 :: ·) htail, hfits⟩
    next => cases h

instance (n : Nat) : CanonicalCodec (FixedBytes n) where
  eq_encode_of_decode {bytes rest a} h := by
    obtain ⟨⟨taken, after⟩, hsplit, h⟩ := Option.bind_eq_some_iff.mp h
    obtain ⟨b, hread, h⟩ := Option.bind_eq_some_iff.mp h
    cases h
    obtain ⟨hbytes, hlength⟩ := eq_append_of_splitBytes hsplit
    rw [FixedBytes.ofList?, dif_pos hlength] at hread
    cases hread
    exact ⟨hbytes, rfl⟩

instance [Codec α] [Codec β] [CanonicalCodec α] [CanonicalCodec β] : CanonicalCodec (α × β) where
  eq_encode_of_decode {bytes rest p} h := by
    obtain ⟨⟨a, middle⟩, hfirst, h⟩ := Option.bind_eq_some_iff.mp h
    obtain ⟨⟨b, after⟩, hsecond, h⟩ := Option.bind_eq_some_iff.mp h
    cases h
    obtain ⟨hbytes, hfits⟩ := CanonicalCodec.eq_encode_of_decode hfirst
    obtain ⟨hmiddle, hfits'⟩ := CanonicalCodec.eq_encode_of_decode hsecond
    refine ⟨?_, Bool.and_eq_true_iff.mpr ⟨hfits, hfits'⟩⟩
    change bytes = (encode a ++ encode b) ++ rest
    rw [List.append_assoc, ← hmiddle, hbytes]

/-- A number is read from a word only if it is not below the least that the form is for. -/
theorem of_guardedWord {width least n : Nat} (value : Nat → Nat)
    (h : (do
      let (word, rest) ← decodeWord width bytes
      if least ≤ value word then some (value word, rest) else none) = some (n, rest)) :
    ∃ word, bytes = littleEndian width word ++ rest ∧ word < valueCount width ∧
      least ≤ value word ∧ n = value word := by
  obtain ⟨⟨word, after⟩, hword, h⟩ := Option.bind_eq_some_iff.mp h
  obtain ⟨hbytes, hlt⟩ := eq_append_of_decodeWord hword
  dsimp only at h
  split at h
  next hleast =>
    cases h
    exact ⟨word, hbytes, hlt, hleast, rfl⟩
  next => cases h

/-- A compact number is read from its shortest form only. -/
theorem eq_append_of_decodeCompact {n : Nat} (h : decodeCompact bytes = some (n, rest)) :
    bytes = encodeCompact n ++ rest ∧ n < compactLimit := by
  have htwo : valueCount 2 = 65536 := rfl
  have hfour : valueCount 4 = 4294967296 := rfl
  unfold decodeCompact at h
  unfold encodeCompact oneByteLimit twoByteLimit fourByteLimit compactLimit
  split at h
  · cases h
  next first tail =>
  have hfirst := first.toNat_lt
  -- A word starts with the byte that was looked at, so its low bits are those of that byte.
  have hlow : ∀ {width word : Nat} {after : Bytes},
      first :: tail = littleEndian (width + 1) word ++ after → word % 256 = first.toNat := by
    intro width word after heq
    have hhead : first = UInt8.ofNat word := (List.cons.inj heq).1
    rw [hhead, UInt8.toNat_ofNat']
  split at h
  next hzero =>
    cases h
    have hvalue : 4 * (first.toNat / 4) = first.toNat := by omega
    rw [if_pos (by omega), hvalue]
    exact ⟨by simp [littleEndian], by omega⟩
  next hone =>
    obtain ⟨word, hbytes, hlt, hleast, rfl⟩ := of_guardedWord (· / 4) h
    have hmod := hlow hbytes
    unfold oneByteLimit at hleast
    have hvalue : 4 * (word / 4) + 1 = word := by omega
    rw [if_neg (by omega), if_pos (by omega), hvalue]
    exact ⟨hbytes, by omega⟩
  next htwoBits =>
    obtain ⟨word, hbytes, hlt, hleast, rfl⟩ := of_guardedWord (· / 4) h
    have hmod := hlow hbytes
    unfold twoByteLimit at hleast
    have hvalue : 4 * (word / 4) + 2 = word := by omega
    rw [if_neg (by omega), if_neg (by omega), if_pos (by omega), hvalue]
    exact ⟨hbytes, by omega⟩
  next =>
    split at h
    next hthree =>
      obtain ⟨word, htail, hlt, hleast, rfl⟩ := of_guardedWord (fun word => word) h
      unfold fourByteLimit at hleast
      rw [if_neg (by omega), if_neg (by omega), if_neg (by omega), hthree, htail]
      exact ⟨rfl, by omega⟩
    next => cases h

-- One stands in a single byte; its two-byte form is refused.
example : decodeCompact [4] = some (1, []) ∧ decodeCompact [5, 0] = none := by decide

instance : CanonicalCodec Bytes where
  eq_encode_of_decode {bytes rest a} h := by
    obtain ⟨⟨length, middle⟩, hlength, h⟩ := Option.bind_eq_some_iff.mp h
    obtain ⟨hbytes, hlimit⟩ := eq_append_of_decodeCompact hlength
    obtain ⟨hmiddle, rfl⟩ := eq_append_of_splitBytes h
    refine ⟨?_, decide_eq_true hlimit⟩
    change bytes = (encodeCompact a.length ++ a) ++ rest
    rw [List.append_assoc, ← hmiddle, hbytes]

instance : CanonicalCodec String where
  eq_encode_of_decode {bytes rest text} h := by
    obtain ⟨⟨utf8, after⟩, hutf8, h⟩ := Option.bind_eq_some_iff.mp h
    obtain ⟨text', hread, h⟩ := Option.bind_eq_some_iff.mp h
    cases h
    have hbytes : text.toUTF8.data.toList = utf8 := by
      unfold String.fromUTF8? at hread
      split at hread
      · cases hread
        rfl
      · cases hread
    change bytes = encode text.toUTF8.data.toList ++ rest ∧
      Codec.fits text.toUTF8.data.toList = true
    rw [hbytes]
    exact CanonicalCodec.eq_encode_of_decode hutf8

/-- A type in correspondence with one that is read from byte forms only is so as well. -/
theorem canonical_via [Codec α] [CanonicalCodec α] (pack : α → β) (unpack : β → α)
    (h : ∀ a, unpack (pack a) = a) : @CanonicalCodec β (via pack unpack) :=
  @CanonicalCodec.mk β (via pack unpack) fun {bytes rest b} hread => by
    obtain ⟨⟨a, after⟩, ha, hb⟩ := Option.map_eq_some_iff.mp hread
    cases hb
    change bytes = encode (unpack (pack a)) ++ rest ∧ Codec.fits (unpack (pack a)) = true
    rw [h]
    exact CanonicalCodec.eq_encode_of_decode ha

theorem canonical_tags (tag : α → UInt8) (all : List α) : @CanonicalCodec α (tags tag all) :=
  @CanonicalCodec.mk α (tags tag all) fun {bytes rest a} hread => by
    cases bytes with
    | nil => cases hread
    | cons first tail =>
        obtain ⟨b, hfind, hb⟩ := Option.map_eq_some_iff.mp hread
        cases hb
        have htag : (tag a == first) = true := by simpa using List.find?_some hfind
        refine ⟨?_, rfl⟩
        rw [← beq_iff_eq.mp htag]
        rfl

/-- A value that was read and wrapped up was read from its own byte form. -/
theorem eq_encode_of_decodeAs [Codec α] [CanonicalCodec α] {wrap : α → β} {b : β}
    (h : decodeAs wrap bytes = some (b, rest)) :
    ∃ a, b = wrap a ∧ bytes = encode a ++ rest ∧ Codec.fits a = true := by
  obtain ⟨⟨a, after⟩, hread, h⟩ := Option.map_eq_some_iff.mp h
  cases h
  exact ⟨a, rfl, CanonicalCodec.eq_encode_of_decode hread⟩

end Codec

/-! ## The ledger records -/

open Codec

instance : CanonicalCodec StakerKind := canonical_tags _ _

instance : CanonicalCodec Priority := canonical_tags _ _

instance : CanonicalCodec TxStatus := canonical_tags _ _

instance : CanonicalCodec StakerTx := by
  unfold instCodecStakerTx
  exact canonical_via _ _ fun _ => rfl

instance : CanonicalCodec StakerKey := by
  unfold instCodecStakerKey
  exact canonical_via _ _ fun _ => rfl

instance : LawfulCodec StakerKey := by
  unfold instCodecStakerKey
  exact lawful_via _ _ fun _ => rfl

instance : CanonicalCodec Staker := by
  unfold instCodecStaker
  exact canonical_via _ _ fun _ => rfl

instance : CanonicalCodec RewardConfig := by
  unfold instCodecRewardConfig
  exact canonical_via _ _ fun _ => rfl

instance : CanonicalCodec StakingConfig := by
  unfold instCodecStakingConfig
  exact canonical_via _ _ fun _ => rfl

instance : CanonicalCodec UtxoId := by
  unfold instCodecUtxoId
  exact canonical_via _ _ fun _ => rfl

instance : CanonicalCodec Utxo := by
  unfold instCodecUtxo
  exact canonical_via _ _ fun _ => rfl

instance : CanonicalCodec SupernetRecord := by
  unfold instCodecSupernetRecord
  exact canonical_via _ _ fun _ => rfl

instance : CanonicalCodec ChainRecord := by
  unfold instCodecChainRecord
  exact canonical_via _ _ fun _ => rfl

instance : CanonicalCodec SupernetTransformation := by
  unfold instCodecSupernetTransformation
  exact canonical_via _ _ fun _ => rfl

instance : CanonicalCodec WeightChange := by
  unfold instCodecWeightChange
  exact canonical_via _ _ fun _ => rfl

instance : CanonicalCodec TxBody where
  eq_encode_of_decode {bytes rest body} h := by
    simp only [decode] at h
    split at h
    case h_7 => cases h
    all_goals
      obtain ⟨a, rfl, hbytes, hfits⟩ := eq_encode_of_decodeAs h
      rw [hbytes]
      exact ⟨rfl, hfits⟩

instance : CanonicalCodec StoredTx := by
  unfold instCodecStoredTx
  exact canonical_via _ _ fun _ => rfl

/-! ## Whole records -/

section Whole

variable {α : Type} [Codec α] [CanonicalCodec α] {bytes : Bytes} {a : α} {what : String}

theorem eq_toCanonical_of_decodeAll (h : Codec.decodeAll bytes = some a) :
    bytes = toCanonical a ∧ Codec.fits a = true := by
  unfold Codec.decodeAll at h
  split at h
  next hread =>
    cases h
    have hform := CanonicalCodec.eq_encode_of_decode hread
    rwa [List.append_nil] at hform
  next => cases h

theorem eq_toCanonical_of_ofCanonical (h : ofCanonical bytes what = .ok a) :
    bytes = toCanonical a ∧ Codec.fits a = true := by
  unfold ofCanonical at h
  split at h
  next hread =>
    cases h
    exact eq_toCanonical_of_decodeAll hread
  next => cases h

end Whole

/-- A byte form is not the front of another one: the value would be read off both. -/
theorem eq_of_toCanonical_begins {α : Type} [Codec α] [LawfulCodec α] {a b : α}
    (ha : Codec.fits a = true) (hb : Codec.fits b = true) (h : toCanonical a <+: toCanonical b) :
    a = b := by
  obtain ⟨rest, hrest⟩ := h
  have hread := LawfulCodec.decode_encode a rest ha
  have hread' := LawfulCodec.decode_encode b [] hb
  change Codec.decode (toCanonical a ++ rest) = _ at hread
  change Codec.decode (toCanonical b ++ []) = _ at hread'
  rw [List.append_nil, ← hrest, hread] at hread'
  cases hread'
  rfl

/-- The byte forms of a type are canonical. `lengths` lists the byte lengths of the texts and the
byte strings in a value. -/
structure CanonicalForms (α : Type) [Codec α] (lengths : α → List Nat) : Prop where
  /-- A value of moderate lengths is read back from its form. -/
  readBack : ∀ (a : α) (what : String), (∀ n ∈ lengths a, n < 2 ^ 30) →
    ofCanonical (toCanonical a) what = .ok a
  /-- Only the form of a value is read as the value. -/
  form : ∀ (bytes : Bytes) (what : String) (a : α), ofCanonical bytes what = .ok a →
    toCanonical a = bytes
  /-- No two byte strings are read as the same value. -/
  single : ∀ (bytes bytes' : Bytes) (what what' : String) (a : α), ofCanonical bytes what = .ok a →
    ofCanonical bytes' what' = .ok a → bytes = bytes'
  /-- Where a byte string is read, neither what it starts with nor what starts with it is. -/
  apart : ∀ (bytes bytes' : Bytes) (what what' : String) (a : α), ofCanonical bytes what = .ok a →
    bytes' ≠ bytes → bytes' <+: bytes ∨ bytes <+: bytes' →
    (ofCanonical bytes' what' : Answer α) = .error (.decode (.record what'))

/-- A lawful and canonical codec has canonical forms, if moderate lengths can be written. -/
theorem canonicalForms_of_fits {α : Type} [Codec α] [LawfulCodec α] [CanonicalCodec α]
    {lengths : α → List Nat}
    (hfits : ∀ a, (∀ n ∈ lengths a, n < 2 ^ 30) → Codec.fits a = true) :
    CanonicalForms α lengths where
  readBack a what hlengths := ofCanonical_toCanonical (hfits a hlengths) what
  form bytes what a hread := (eq_toCanonical_of_ofCanonical hread).1.symm
  single bytes bytes' what what' a hread hread' :=
    (eq_toCanonical_of_ofCanonical hread).1.trans (eq_toCanonical_of_ofCanonical hread').1.symm
  apart bytes bytes' what what' a hread hne hfront := by
    obtain ⟨rfl, ha⟩ := eq_toCanonical_of_ofCanonical hread
    unfold ofCanonical
    split
    next b hread' =>
      obtain ⟨rfl, hb⟩ := eq_toCanonical_of_decodeAll hread'
      have hsame : b = a := by
        rcases hfront with hfront | hfront
        · exact eq_of_toCanonical_begins hb ha hfront
        · exact (eq_of_toCanonical_begins ha hb hfront).symm
      exact absurd (congrArg toCanonical hsame) hne
    next => rfl

theorem fits_of_length_lt {bytes : Bytes} (h : bytes.length < 2 ^ 30) :
    Codec.fits bytes = true :=
  decide_eq_true (Nat.lt_trans h (by decide))

/-- The byte length of an optional byte string. -/
def optionalLength (bytes? : Option Bytes) : List Nat := bytes?.toList.map List.length

theorem fits_of_optionalLength {bytes? : Option Bytes}
    (h : ∀ n ∈ optionalLength bytes?, n < 2 ^ 30) : Codec.fits bytes? = true := by
  cases bytes? with
  | none => rfl
  | some bytes => exact fits_of_length_lt (h _ List.mem_cons_self)

/-- The byte lengths in a transaction body: the key of a staker, the name of a chain. -/
def TxBody.lengths : TxBody → List Nat
  | .addStaker tx => optionalLength tx.publicKey
  | .createChain chain => [chain.name.utf8ByteSize]
  | _ => []

theorem StakerTx.fits_of_lengths {tx : StakerTx}
    (h : ∀ n ∈ optionalLength tx.publicKey, n < 2 ^ 30) : Codec.fits tx = true := by
  have hkey := fits_of_optionalLength h
  change (true && (true && (true && (true && (Codec.fits tx.publicKey && true))))) = true
  rw [hkey]
  rfl

/-- Of the fields of a staker only the key has a length that may not fit. -/
theorem Staker.fits_iff {s : Staker} : Codec.fits s = true ↔ Codec.fits s.publicKey = true := by
  change (true && (true && (Codec.fits s.publicKey && true))) = true ↔ _
  simp only [Bool.true_and, Bool.and_true]

theorem Staker.fits_of_lengths {s : Staker}
    (h : ∀ n ∈ optionalLength s.publicKey, n < 2 ^ 30) : Codec.fits s = true :=
  Staker.fits_iff.mpr (fits_of_optionalLength h)

theorem ChainRecord.fits_of_lengths {chain : ChainRecord}
    (h : ∀ n ∈ [chain.name.utf8ByteSize], n < 2 ^ 30) : Codec.fits chain = true := by
  have hname : Codec.fits chain.name = true := fits_of_length_lt (h _ List.mem_cons_self)
  change (true && (true && (Codec.fits chain.name && true))) = true
  rw [hname]
  rfl

theorem TxBody.fits_of_lengths {body : TxBody} (h : ∀ n ∈ body.lengths, n < 2 ^ 30) :
    Codec.fits body = true := by
  cases body with
  | addStaker tx => exact tx.fits_of_lengths h
  | createChain chain => exact chain.fits_of_lengths h
  | _ => rfl

/-- Every kind of persisted record has canonical byte forms. -/
theorem records_canonical :
    CanonicalForms EntityId (fun _ => []) ∧ CanonicalForms NodeId (fun _ => []) ∧
      CanonicalForms UtxoId (fun _ => []) ∧ CanonicalForms Utxo (fun _ => []) ∧
      CanonicalForms SupernetRecord (fun _ => []) ∧
      CanonicalForms ChainRecord (fun chain => [chain.name.utf8ByteSize]) ∧
      CanonicalForms SupernetTransformation (fun _ => []) ∧
      CanonicalForms StoredTx (fun tx => tx.body.lengths) ∧
      CanonicalForms (StoredTx × TxStatus) (fun entry => entry.1.body.lengths) ∧
      CanonicalForms StakerTx (fun tx => optionalLength tx.publicKey) ∧
      CanonicalForms Staker (fun s => optionalLength s.publicKey) ∧
      CanonicalForms StakerKind (fun _ => []) ∧ CanonicalForms Priority (fun _ => []) ∧
      CanonicalForms RewardConfig (fun _ => []) ∧ CanonicalForms StakingConfig (fun _ => []) ∧
      CanonicalForms WeightChange (fun _ => []) ∧ CanonicalForms StakerKey (fun _ => []) ∧
      CanonicalForms (Option Bytes) optionalLength := by
  have hplain : ∀ {α : Type} [Codec α] [LawfulCodec α] [CanonicalCodec α],
      (∀ a : α, Codec.fits a = true) → CanonicalForms α fun _ => [] :=
    fun hfits => canonicalForms_of_fits fun a _ => hfits a
  refine ⟨hplain fun _ => rfl, hplain fun _ => rfl, hplain fun _ => rfl, hplain fun _ => rfl,
    hplain fun _ => rfl, ?chain, hplain fun _ => rfl, ?tx, ?entry, ?stakerTx, ?staker,
    hplain fun _ => rfl, hplain fun _ => rfl, hplain fun _ => rfl, hplain fun _ => rfl,
    hplain fun _ => rfl, hplain fun _ => rfl, ?key⟩
  case chain => exact canonicalForms_of_fits fun chain => chain.fits_of_lengths
  case tx => exact canonicalForms_of_fits fun tx h => tx.body.fits_of_lengths h
  case entry =>
    apply canonicalForms_of_fits
    intro entry h
    have hbody := entry.1.body.fits_of_lengths h
    exact Bool.and_eq_true_iff.mpr ⟨hbody, rfl⟩
  case stakerTx => exact canonicalForms_of_fits fun tx => tx.fits_of_lengths
  case staker => exact canonicalForms_of_fits fun s => s.fits_of_lengths
  case key => exact canonicalForms_of_fits fun _ => fits_of_optionalLength

end StakingLedger
