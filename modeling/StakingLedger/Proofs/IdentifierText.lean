import StakingLedger.Document.Basic
import StakingLedger.Proofs.Bytes.Hex
import StakingLedger.Proofs.Store.KeyLayout

/-! # The text of identifiers

An identifier is read from its marks, each any number of times, and then the
digits of its bytes. No digit is the beginning of a mark, so a text can be taken
apart in one way only. What an identifier is displayed or serialized as is among
the texts that it is read from.
-/

namespace StakingLedger

/-! ## Marks before a text -/

/-- A mark that is written several times. -/
def repeated (mark : List Char) (times : Nat) : List Char := (List.replicate times mark).flatten

theorem repeated_succ (mark : List Char) (times : Nat) :
    repeated mark (times + 1) = mark ++ repeated mark times := rfl

theorem mem_of_mem_repeated {mark : List Char} {times : Nat} {c : Char}
    (h : c ∈ repeated mark times) : c ∈ mark := by
  obtain ⟨m, hm, hc⟩ := List.mem_flatten.mp h
  exact List.eq_of_mem_replicate hm ▸ hc

section Trimming

variable {mark text : List Char}

theorem trimLeading_of_not_prefix (h : ¬ mark <+: text) : trimLeading mark text = text := by
  rw [trimLeading, dif_neg]
  rintro ⟨_, hleads⟩
  exact h (List.isPrefixOf_iff_prefix.mp hleads)

theorem trimLeading_append (hmark : mark ≠ []) (text : List Char) :
    trimLeading mark (mark ++ text) = trimLeading mark text := by
  rw [trimLeading, dif_pos ⟨hmark, List.isPrefixOf_iff_prefix.mpr (List.prefix_append _ _)⟩,
    List.drop_left]

/-- All marks are dropped, up to a text that has none in front. -/
theorem trimLeading_repeated (hmark : mark ≠ []) (h : ¬ mark <+: text) (times : Nat) :
    trimLeading mark (repeated mark times ++ text) = text := by
  induction times with
  | zero => exact trimLeading_of_not_prefix h
  | succ times ih => rw [repeated_succ, List.append_assoc, trimLeading_append hmark, ih]

/-- Nothing but marks is dropped. -/
theorem exists_eq_repeated_append (mark text : List Char) :
    ∃ times, text = repeated mark times ++ trimLeading mark text := by
  fun_induction trimLeading mark text with
  | case1 text h ih =>
      obtain ⟨times, htimes⟩ := ih
      obtain ⟨rest, rfl⟩ := List.isPrefixOf_iff_prefix.mp h.2
      rw [List.drop_left] at htimes ⊢
      refine ⟨times + 1, ?_⟩
      rw [repeated_succ, List.append_assoc, ← htimes]
  | case2 text h => exact ⟨0, rfl⟩

end Trimming

/-! ## Identifiers -/

/-- The mark of hexadecimal digits. -/
def hexMark : List Char := ['0', 'x']

/-- The mark of a node. -/
def nodeMark : List Char := ['N', 'o', 'd', 'e', 'I', 'D', '-']

/-- The forms that an identifier is read from: any number of `0x`, and then the digits. -/
def EntityForm (text digits : List Char) : Prop := ∃ times, text = repeated hexMark times ++ digits

/-- Any number of `NodeID-`, then any number of `0x`, and then the digits. -/
def NodeForm (text digits : List Char) : Prop :=
  ∃ times times', text = repeated nodeMark times ++ (repeated hexMark times' ++ digits)

namespace Spells

variable {digits : List Char} {bytes : Bytes}

theorem not_prefix_of_mem (h : Spells digits bytes) {mark : List Char} {c : Char} (hc : c ∈ mark)
    (hdigit : c ∉ lowerHexDigits ++ upperHexDigits) : ¬ mark <+: digits := by
  intro hstarts
  obtain ⟨value, hvalue⟩ := h.isHexDigit c (hstarts.subset hc)
  exact hdigit hvalue.mem

theorem not_hexMark_prefix (h : Spells digits bytes) : ¬ hexMark <+: digits :=
  h.not_prefix_of_mem (c := 'x') (by decide) (by decide)

theorem not_nodeMark_prefix (h : Spells digits bytes) (times : Nat) :
    ¬ nodeMark <+: repeated hexMark times ++ digits := by
  intro hstarts
  have hmem : 'N' ∈ nodeMark := by decide
  rcases List.mem_append.mp (hstarts.subset hmem) with hmark | hdigit
  · exact absurd (mem_of_mem_repeated hmark) (by decide)
  · obtain ⟨value, hvalue⟩ := h.isHexDigit 'N' hdigit
    exact absurd hvalue.mem (by decide)

end Spells

variable {text digits : List Char} {bytes : Bytes}

theorem spells_trimLeading_iff :
    Spells (trimLeading hexMark text) bytes ↔
      ∃ digits, EntityForm text digits ∧ Spells digits bytes := by
  constructor
  · exact fun h => ⟨_, exists_eq_repeated_append hexMark text, h⟩
  · rintro ⟨digits, ⟨times, rfl⟩, h⟩
    rwa [trimLeading_repeated (by decide) h.not_hexMark_prefix]

theorem spells_trimLeading_node_iff :
    Spells (trimLeading hexMark (trimLeading nodeMark text)) bytes ↔
      ∃ digits, NodeForm text digits ∧ Spells digits bytes := by
  constructor
  · intro h
    obtain ⟨times, htext⟩ := exists_eq_repeated_append nodeMark text
    obtain ⟨times', hrest⟩ := exists_eq_repeated_append hexMark (trimLeading nodeMark text)
    exact ⟨_, ⟨times, times', htext.trans (congrArg _ hrest)⟩, h⟩
  · rintro ⟨digits, ⟨times, times', rfl⟩, h⟩
    rwa [trimLeading_repeated (by decide) (h.not_nodeMark_prefix times'),
      trimLeading_repeated (by decide) h.not_hexMark_prefix]

/-- Digits are read as the identifier whose bytes they spell. -/
theorem ofHexDigits_bind_eq_ok_iff {n : Nat} {ofBytes : Bytes → Except IdError (FixedBytes n)}
    (hbytes : ∀ {bytes id}, ofBytes bytes = .ok id ↔ id.toList = bytes) {id : FixedBytes n} :
    ((Bytes.ofHexDigits digits).mapError .notHex >>= ofBytes) = .ok id ↔
      Spells digits id.toList := by
  rw [← Bytes.ofHexDigits_eq_ok_iff]
  cases Bytes.ofHexDigits digits with
  | error e => exact iff_of_false nofun nofun
  | ok bytes => rw [Except.ok.injEq, eq_comm (a := bytes), ← hbytes]; rfl

/-! ## What is read -/

/-- A reader of identifiers of `n` bytes accepts just the texts of a form around digits: `2 * n`
digits of either case. What it reads are the bytes that they spell. -/
structure ReadsForm {n : Nat} (ofText : String → Except IdError (FixedBytes n))
    (form : List Char → List Char → Prop) : Prop where
  accepts : ∀ text, (∃ id, ofText text = .ok id) ↔ ∃ digits, form text.toList digits ∧
    digits.length = 2 * n ∧ ∀ c ∈ digits, ∃ value, IsHexDigit c value
  result : ∀ text id, ofText text = .ok id ↔
    ∃ digits, form text.toList digits ∧ Spells digits id.toList

/-- It is enough to say what is read: there are no other digits to accept than those of bytes. -/
theorem ReadsForm.of_result {n : Nat} {ofText : String → Except IdError (FixedBytes n)}
    {form : List Char → List Char → Prop}
    (h : ∀ text id, ofText text = .ok id ↔
      ∃ digits, form text.toList digits ∧ Spells digits id.toList) : ReadsForm ofText form where
  accepts text := by
    constructor
    · rintro ⟨id, hid⟩
      obtain ⟨digits, hform, hspells⟩ := (h text id).mp hid
      exact ⟨digits, hform, by rw [hspells.length_eq, id.length_toList], hspells.isHexDigit⟩
    · rintro ⟨digits, hform, hlength, hdigits⟩
      obtain ⟨bytes, hspells, hn⟩ := Spells.exists_of_length hlength hdigits
      exact ⟨⟨bytes, hn⟩, (h text _).mpr ⟨digits, hform, hspells⟩⟩
  result := h

theorem EntityId.readsForm : ReadsForm EntityId.ofText EntityForm :=
  .of_result fun _ _ =>
    (ofHexDigits_bind_eq_ok_iff EntityId.ofBytes_eq_ok_iff).trans spells_trimLeading_iff

theorem NodeId.readsForm : ReadsForm NodeId.ofText NodeForm :=
  .of_result fun _ _ =>
    (ofHexDigits_bind_eq_ok_iff NodeId.ofBytes_eq_ok_iff).trans spells_trimLeading_node_iff

theorem EntityId.ofText_hex (id : EntityId) : EntityId.ofText id.hex = .ok id := by
  refine (EntityId.readsForm.result _ _).mpr ⟨id.toList.hexDigits, ⟨0, ?_⟩, .hexDigits _⟩
  exact String.toList_ofList

theorem NodeId.ofText_hex (id : NodeId) : NodeId.ofText id.hex = .ok id := by
  refine (NodeId.readsForm.result _ _).mpr ⟨Bytes.hexDigits id.toList, ⟨0, 0, ?_⟩, .hexDigits _⟩
  exact String.toList_ofList

theorem NodeId.ofText_text (id : NodeId) : NodeId.ofText id.text = .ok id := by
  refine (NodeId.readsForm.result _ _).mpr ⟨Bytes.hexDigits id.toList, ⟨1, 0, ?_⟩, .hexDigits _⟩
  have htext : id.text = "NodeID-" ++ id.hex := rfl
  rw [htext, String.toList_append]
  exact congrArg₂ (· ++ ·) (by decide) String.toList_ofList

/-- An identifier is read from exactly the texts of its form: any number of `0x` and then 64
hexadecimal digits, for a node any number of `NodeID-`, any number of `0x` and then 40. The digits
spell the bytes that are read. So what an identifier is displayed as, and the text that it has in a
document of any format, are read back as that identifier. -/
theorem identifier_text_grammar :
    ReadsForm EntityId.ofText EntityForm ∧ ReadsForm NodeId.ofText NodeForm ∧
      (∀ id : EntityId, EntityId.ofText id.hex = .ok id ∧
        ∀ dialect, readDocument dialect (toDocument id) = .ok id) ∧
      ∀ id : NodeId, NodeId.ofText id.text = .ok id ∧
        ∀ dialect, readDocument dialect (toDocument id) = .ok id := by
  refine ⟨EntityId.readsForm, NodeId.readsForm, fun id => ⟨id.ofText_hex, fun dialect => ?_⟩,
    fun id => ⟨id.ofText_text, fun dialect => ?_⟩⟩
  · change (EntityId.ofText id.hex).mapError ReadError.identifier = .ok id
    rw [id.ofText_hex]
    rfl
  · change (NodeId.ofText id.hex).mapError ReadError.identifier = .ok id
    rw [id.ofText_hex]
    rfl

end StakingLedger
