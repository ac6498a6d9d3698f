import StakingLedger.Codec.Record

/-! # Byte forms are read back

A value whose lengths can be written is read back from its byte form, and just
the bytes after it are left over. That only byte forms are read is the converse,
proved apart from it.
-/

namespace StakingLedger

/-- A type whose values are read back from their byte forms. -/
class LawfulCodec (α : Type) [Codec α] : Prop where
  decode_encode : ∀ (a : α) (rest : Bytes), Codec.fits a = true →
    Codec.decode (Codec.encode a ++ rest) = some (a, rest)

namespace Codec

variable {α β : Type}

theorem splitBytes_append (taken rest : Bytes) :
    splitBytes taken.length (taken ++ rest) = some (taken, rest) := by
  rw [splitBytes, if_pos (by simp), List.take_left, List.drop_left]

theorem decodeWord_append {width n : Nat} (h : n < valueCount width) (rest : Bytes) :
    decodeWord width (littleEndian width n ++ rest) = some (n, rest) := by
  have hsplit := splitBytes_append (littleEndian width n) rest
  rw [length_littleEndian] at hsplit
  rw [decodeWord, hsplit]
  exact congrArg (fun m => some (m, rest)) (ofLittleEndian_littleEndian width n h)

instance : LawfulCodec UInt8 where
  decode_encode _ _ _ := rfl

instance : LawfulCodec UInt32 where
  decode_encode n rest _ := by
    change (decodeWord 4 (littleEndian 4 n.toNat ++ rest)).map _ = _
    rw [decodeWord_append n.toNat_lt]
    exact congrArg (fun m => some (m, rest)) UInt32.ofNat_toNat

instance : LawfulCodec UInt64 where
  decode_encode n rest _ := by
    change (decodeWord 8 (littleEndian 8 n.toNat ++ rest)).map _ = _
    rw [decodeWord_append n.toNat_lt]
    exact congrArg (fun m => some (m, rest)) UInt64.ofNat_toNat

instance : LawfulCodec Bool where
  decode_encode b _ _ := by cases b <;> rfl

instance [Codec α] [LawfulCodec α] : LawfulCodec (Option α) where
  decode_encode a? rest h := by
    cases a? with
    | none => rfl
    | some a =>
        change (do
          let (a, rest) ← (decode (encode a ++ rest) : Option (α × Bytes))
          return (some a, rest)) = _
        rw [LawfulCodec.decode_encode a rest h]
        rfl

instance (n : Nat) : LawfulCodec (FixedBytes n) where
  decode_encode a rest _ := by
    have hsplit := splitBytes_append a.toList rest
    rw [a.length_toList] at hsplit
    have hread : FixedBytes.ofList? n a.toList = some a := dif_pos a.length_toList
    change (do
      let (taken, rest) ← splitBytes n (a.toList ++ rest)
      let a ← FixedBytes.ofList? n taken
      return (a, rest)) = _
    rw [hsplit]
    change (do let a ← FixedBytes.ofList? n a.toList; return (a, rest)) = _
    rw [hread]
    rfl

instance [Codec α] [Codec β] [LawfulCodec α] [LawfulCodec β] : LawfulCodec (α × β) where
  decode_encode p rest h := by
    obtain ⟨hfirst, hsecond⟩ := Bool.and_eq_true_iff.mp h
    change (do
      let (a, rest) ← (decode ((encode p.1 ++ encode p.2) ++ rest) : Option (α × Bytes))
      let (b, rest) ← (decode rest : Option (β × Bytes))
      return ((a, b), rest)) = _
    rw [List.append_assoc, LawfulCodec.decode_encode p.1 _ hfirst]
    change (do
      let (b, rest) ← (decode (encode p.2 ++ rest) : Option (β × Bytes))
      return ((p.1, b), rest)) = _
    rw [LawfulCodec.decode_encode p.2 rest hsecond]
    rfl

/-- The low two bits of the first byte of a word. -/
theorem toNat_ofNat_mod_four (n : Nat) : (UInt8.ofNat n).toNat % 4 = n % 4 := by
  rw [UInt8.toNat_ofNat']
  exact Nat.mod_mod_of_dvd n (by decide)

/-- A compact number is read back: each form has its own range and its own low bits. -/
theorem decodeCompact_append {n : Nat} (h : n < compactLimit) (rest : Bytes) :
    decodeCompact (encodeCompact n ++ rest) = some (n, rest) := by
  unfold encodeCompact
  have htwo : valueCount 2 = 65536 := rfl
  have hfour : valueCount 4 = 4294967296 := rfl
  unfold oneByteLimit twoByteLimit fourByteLimit
  unfold compactLimit at h
  split
  next hone =>
    have hfirst : (UInt8.ofNat (4 * n)).toNat = 4 * n := by
      rw [UInt8.toNat_ofNat']
      omega
    change decodeCompact (UInt8.ofNat (4 * n) :: rest) = _
    have hlow : (UInt8.ofNat (4 * n)).toNat % 4 = 0 := by omega
    have hvalue : (UInt8.ofNat (4 * n)).toNat / 4 = n := by omega
    simp only [decodeCompact, hlow, hvalue]
  next hone =>
  split
  next htwoBytes =>
    have hlow : (UInt8.ofNat (4 * n + 1)).toNat % 4 = 1 := by
      rw [toNat_ofNat_mod_four]
      omega
    have hword := @decodeWord_append 2 (4 * n + 1) (by omega) rest
    change decodeCompact (UInt8.ofNat (4 * n + 1) :: (littleEndian 1 ((4 * n + 1) / 256) ++ rest)) = _
    change decodeWord 2 (UInt8.ofNat (4 * n + 1) :: (littleEndian 1 ((4 * n + 1) / 256) ++ rest)) = _
      at hword
    simp only [decodeCompact, hlow, hword, Option.bind_eq_bind, Option.bind_some]
    rw [if_pos (by unfold oneByteLimit; omega), show (4 * n + 1) / 4 = n by omega]
  next htwoBytes =>
  split
  next hfourBytes =>
    have hlow : (UInt8.ofNat (4 * n + 2)).toNat % 4 = 2 := by
      rw [toNat_ofNat_mod_four]
      omega
    have hword := @decodeWord_append 4 (4 * n + 2) (by omega) rest
    change decodeCompact (UInt8.ofNat (4 * n + 2) :: (littleEndian 3 ((4 * n + 2) / 256) ++ rest)) = _
    change decodeWord 4 (UInt8.ofNat (4 * n + 2) :: (littleEndian 3 ((4 * n + 2) / 256) ++ rest)) = _
      at hword
    simp only [decodeCompact, hlow, hword, Option.bind_eq_bind, Option.bind_some]
    rw [if_pos (by unfold twoByteLimit; omega), show (4 * n + 2) / 4 = n by omega]
  next hfourBytes =>
    have hlow : (3 : UInt8).toNat % 4 = 3 := rfl
    have hword := @decodeWord_append 4 n (by omega) rest
    change decodeCompact (3 :: (littleEndian 4 n ++ rest)) = _
    simp only [decodeCompact, hlow, hword, Option.bind_eq_bind, Option.bind_some]
    rw [if_pos trivial, if_pos (by unfold fourByteLimit; omega)]

instance : LawfulCodec Bytes where
  decode_encode bytes rest h := by
    have hlength : bytes.length < compactLimit := of_decide_eq_true h
    change (do
      let (length, rest) ← decodeCompact ((encodeCompact bytes.length ++ bytes) ++ rest)
      splitBytes length rest) = _
    rw [List.append_assoc, decodeCompact_append hlength]
    exact splitBytes_append bytes rest

instance : LawfulCodec String where
  decode_encode text rest h := by
    change (do
      let (utf8, rest) ← (decode (encode text.toUTF8.data.toList ++ rest) : Option (Bytes × Bytes))
      let text ← String.fromUTF8? ⟨utf8.toArray⟩
      return (text, rest)) = _
    have hbytes : Codec.fits text.toUTF8.data.toList = true := h
    rw [LawfulCodec.decode_encode text.toUTF8.data.toList rest hbytes]
    have hread : String.fromUTF8? ⟨text.toUTF8.data.toList.toArray⟩ = some text := by
      rw [Array.toArray_toList]
      exact dif_pos text.isValidUTF8
    change (do
      let text ← String.fromUTF8? ⟨text.toUTF8.data.toList.toArray⟩
      return (text, rest)) = _
    rw [hread]
    rfl

/-- A type in correspondence with one that is read back is read back as well. -/
theorem lawful_via [Codec α] [LawfulCodec α] (pack : α → β) (unpack : β → α)
    (h : ∀ b, pack (unpack b) = b) : @LawfulCodec β (via pack unpack) :=
  @LawfulCodec.mk β (via pack unpack) fun b rest hb => by
    change (decode (encode (unpack b) ++ rest)).map (fun p => (pack p.1, p.2)) = _
    rw [LawfulCodec.decode_encode (unpack b) rest hb, Option.map_some, h]

/-- Values with tags of their own are read back. -/
theorem lawful_tags {tag : α → UInt8} {all : List α} (hall : ∀ a, a ∈ all)
    (htag : ∀ a b, tag a = tag b → a = b) : @LawfulCodec α (tags tag all) :=
  @LawfulCodec.mk α (tags tag all) fun a rest _ => by
    change (all.find? (fun b => tag b == tag a)).map (fun b => (b, rest)) = _
    cases hfind : all.find? (fun b => tag b == tag a) with
    | none => exact absurd (beq_self_eq_true (tag a)) (List.find?_eq_none.mp hfind a (hall a))
    | some b =>
        have htagged : (tag b == tag a) = true := by simpa using List.find?_some hfind
        rw [Option.map_some, htag b a (beq_iff_eq.mp htagged)]

end Codec

/-! ## The ledger records -/

open Codec

instance : LawfulCodec StakerKind :=
  lawful_tags (by intro kind; cases kind <;> decide) (by intro a b; cases a <;> cases b <;> decide)

instance : LawfulCodec Priority :=
  lawful_tags (by intro p; cases p <;> decide) (by intro a b; cases a <;> cases b <;> decide)

instance : LawfulCodec TxStatus :=
  lawful_tags (by intro s; cases s <;> decide) (by intro a b; cases a <;> cases b <;> decide)

instance : LawfulCodec StakerTx := by
  unfold instCodecStakerTx
  exact lawful_via _ _ fun _ => rfl

instance : LawfulCodec Staker := by
  unfold instCodecStaker
  exact lawful_via _ _ fun _ => rfl

instance : LawfulCodec RewardConfig := by
  unfold instCodecRewardConfig
  exact lawful_via _ _ fun _ => rfl

instance : LawfulCodec StakingConfig := by
  unfold instCodecStakingConfig
  exact lawful_via _ _ fun _ => rfl

instance : LawfulCodec UtxoId := by
  unfold instCodecUtxoId
  exact lawful_via _ _ fun _ => rfl

instance : LawfulCodec Utxo := by
  unfold instCodecUtxo
  exact lawful_via _ _ fun _ => rfl

instance : LawfulCodec SupernetRecord := by
  unfold instCodecSupernetRecord
  exact lawful_via _ _ fun _ => rfl

instance : LawfulCodec ChainRecord := by
  unfold instCodecChainRecord
  exact lawful_via _ _ fun _ => rfl

instance : LawfulCodec SupernetTransformation := by
  unfold instCodecSupernetTransformation
  exact lawful_via _ _ fun _ => rfl

instance : LawfulCodec WeightChange := by
  unfold instCodecWeightChange
  exact lawful_via _ _ fun _ => rfl

theorem Codec.decodeAs_append {α β : Type} [Codec α] [LawfulCodec α] (wrap : α → β) (a : α)
    (rest : Bytes) (h : Codec.fits a = true) :
    Codec.decodeAs wrap (Codec.encode a ++ rest) = some (wrap a, rest) := by
  rw [Codec.decodeAs, LawfulCodec.decode_encode a rest h, Option.map_some]

instance : LawfulCodec TxBody where
  decode_encode body rest h := by
    cases body with
    | addStaker tx => exact decodeAs_append TxBody.addStaker tx rest h
    | createSupernet supernet => exact decodeAs_append TxBody.createSupernet supernet rest h
    | createChain chain => exact decodeAs_append TxBody.createChain chain rest h
    | transformSupernet t => exact decodeAs_append TxBody.transformSupernet t rest h
    | rewardStaker stakerTxId => exact decodeAs_append TxBody.rewardStaker stakerTxId rest h
    | advanceTime timestamp => exact decodeAs_append TxBody.advanceTime timestamp rest h

instance : LawfulCodec StoredTx := by
  unfold instCodecStoredTx
  exact lawful_via _ _ fun _ => rfl

theorem decodeAll_toCanonical {α : Type} [Codec α] [LawfulCodec α] {a : α}
    (h : Codec.fits a = true) : Codec.decodeAll (toCanonical a) = some a := by
  have hread := LawfulCodec.decode_encode a [] h
  rw [List.append_nil] at hread
  rw [Codec.decodeAll, toCanonical, hread]

/-- A stored record is read as it was written. -/
theorem ofCanonical_toCanonical {α : Type} [Codec α] [LawfulCodec α] {a : α}
    (h : Codec.fits a = true) (what : String) : ofCanonical (toCanonical a) what = .ok a := by
  rw [ofCanonical, decodeAll_toCanonical h]

end StakingLedger
