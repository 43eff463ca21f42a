import BlockAudit.Proofs.Trie.Decode
import BlockAudit.Proofs.Trie.Parts
import BlockAudit.Trie.Layout

/-!
What a reader makes of a written message: the same node, with the bytes of a long value as far as a
store knows them, and with every child that is not inline known by its hash alone.
-/
namespace BlockAudit.Trie

open Rskip107

/-- A value that is kept in the node is not empty, and its length is recorded. -/
def Label.Plain (label : Label) : Prop :=
  label.valueHash = none →
    (label.value = none ∧ label.valueLength = 0) ∨
      ∃ v ≠ [], label.value = some v ∧ label.valueLength = .ofNat v.length

/-- The value fields of a label describe one value, or none. -/
structure Label.Regular (label : Label) : Prop where
  inline : label.Plain
  long : label.isLong → label.valueLength.toNat ≤ Uint24.max

/-- A node in memory whose fields fit together, and so do those of its children in memory. A size of
the subtree is recorded exactly where there is one. -/
def Child.Regular : Child → Prop
  | .absent => True
  | .hashed _ => True
  | .inMemory label left right =>
    label.Regular ∧ label.childrenSize.isNone = Node.isTerminal ⟨label, left, right⟩ ∧
      left.Regular ∧ right.Regular

def Node.Regular (node : Node) : Prop :=
  node.toChild.Regular

theorem Node.Regular.child {node : Node} (h : node.Regular) (bit : Bool) :
    (node.child bit).Regular := by
  cases bit
  · exact h.2.2.1
  · exact h.2.2.2

/-- A value that is kept in the node is set again by its bytes. -/
theorem Label.Plain.withInlineValue_eq {label : Label} (h : label.Plain)
    (hv : label.valueHash = none) (size : Option UInt64) :
    Label.withInlineValue { path := label.path, childrenSize := size } (label.value.getD []) =
      { label with childrenSize := size } := by
  have hinline := h hv
  obtain ⟨path, value, valueLength, valueHash, childrenSize⟩ := label
  dsimp only at hv hinline
  subst hv
  rcases hinline with ⟨rfl, rfl⟩ | ⟨v, hne, rfl, rfl⟩
  · rfl
  · simp [withInlineValue, hne]

/-- A label with the bytes of a long value taken from a store. -/
def Label.readBack (store : ValueStore) (label : Label) : Label :=
  { label with
    value := match label.valueHash with
      | some hash => store hash
      | none => label.value }

def Child.readBack (store : ValueStore) : Child → Child
  | .inMemory label left right =>
    if (Child.inMemory label left right).isInline then
      .inMemory (label.readBack store) left right
    else .hashed (Node.hash ⟨label, left, right⟩)
  | child => child

def Node.readBack (store : ValueStore) (node : Node) : Node :=
  ⟨node.toLabel.readBack store, node.left.readBack store, node.right.readBack store⟩

namespace Rskip107

variable {message : Bytes} {offset : Nat}

/-- A child is read back where its bytes end, if its message is read back when it is inline. -/
theorem decodeChild_slot (store : ValueStore) {child : Child}
    {inner : (m : Bytes) → m.length < message.length → Except DecodeError Node}
    (hb : StandsAt child.written.slot.bytes message offset)
    (hinner : ∀ label left right, child = .inMemory label left right → child.isInline → ∀ h,
      inner (Node.message ⟨label, left, right⟩) h = .ok ⟨label.readBack store, left, right⟩) :
    decodeChild message inner child.written.slot.isPresent child.written.slot.isInline offset =
      .ok (child.readBack store, offset + child.written.slot.bytes.length) := by
  cases child with
  | absent => rfl
  | hashed hash =>
    have hlen : (Slot.hash hash).bytes.length = 32 := hash.length_toBytes
    rw [Child.written, hlen]
    exact decodeChild_hash hb
  | inMemory label left right =>
    rw [Child.slot_inMemory] at hb ⊢
    split at hb <;> rename_i h
    · have hinline := Child.isInline_inMemory.mpr h
      have hmax : maxInlineMessage = 44 := rfl
      have hlen := SharedPath.toNat_ofNat_byte (n := (Node.message ⟨label, left, right⟩).length)
        (by omega)
      have hread := decodeChild_inline hb hlen.symm (hinner label left right rfl hinline)
      rw [if_pos h, Child.readBack, if_pos hinline]
      simpa [Slot.isPresent, Slot.isInline, Slot.bytes, Node.toChild, Nat.add_assoc, Nat.add_comm]
        using hread
    · have hinline := mt Child.isInline_inMemory.mp h
      have hlen : (Slot.hash (Node.hash ⟨label, left, right⟩)).bytes.length = 32 :=
        FixedBytes.length_toBytes _
      rw [if_neg h, Child.readBack, if_neg hinline, hlen]
      exact decodeChild_hash hb

/-- The value of a node ends its message. It is read back onto a label without one. -/
theorem decodeValue_valueBytes (store : ValueStore) {label : Label} (h : label.Regular)
    (hb : StandsAt label.valueBytes message offset)
    (hend : message.length = offset + label.valueBytes.length) :
    decodeValue store message label.isLong offset
        { path := label.path, childrenSize := label.childrenSize } =
      .ok (label.readBack store) := by
  cases hv : label.valueHash with
  | none =>
    have hdrop : message.drop offset = label.value.getD [] := by
      rw [hb.drop hend, Label.valueBytes, hv]
    have hlong : label.isLong = false := by simp [Label.isLong, hv]
    rw [decodeValue, hlong, if_neg (by simp), pure_eq_ok, hdrop, h.inline.withInlineValue_eq hv,
      Label.readBack, hv]
  | some hash =>
    have hlong : label.isLong := by simp [Label.isLong, hv]
    have hbytes : label.valueBytes = hash.toBytes ++ Uint24.bytes label.valueLength.toNat := by
      simp [Label.valueBytes, hv]
    rw [hbytes] at hb hend
    obtain ⟨hhash, hlength⟩ := hb.append
    rw [hash.length_toBytes] at hlength
    have hdecode := Uint24.decode_bytes (h.long hlong) hlength
    have hstop : ¬ offset + 35 < message.length := by
      simp [hend, hash.length_toBytes]
    simp only [decodeValue, hlong, if_true, field_hash hhash, hdecode, liftM_field_ok, ok_bind,
      hstop, if_false, takeFrom_toBytes, pure_eq_ok, UInt32.ofNat_toNat, Label.readBack, hv]

private theorem readPath_encode {path : BitPath} (hlt : path.length < 2 ^ 64)
    (hb : StandsAt (SharedPath.encode path) message 1) :
    readPath message (!path.isEmpty) =
      if path.length ≤ SharedPath.maxLength then
        .ok (path, 1 + (SharedPath.encode path).length)
      else .error (.pathTooLong (.ofNat path.length)) := by
  cases path with
  | nil => simp [readPath, SharedPath.encode]
  | cons bit path =>
    rw [readPath, if_pos (by simp)]
    exact SharedPath.decode_encode (by simp) hlt hb

private theorem readSize_sizeBytes {node : Node}
    (hsize : node.childrenSize.isNone = node.isTerminal)
    (hb : StandsAt node.sizeBytes message offset) :
    readSize message (node.flags.leftPresent || node.flags.rightPresent) offset =
      .ok (node.childrenSize, offset + node.sizeBytes.length) := by
  rw [node.isPresent_or_isPresent]
  cases ht : node.isTerminal with
  | true =>
    have hnone : node.childrenSize = none := by simpa [ht] using hsize
    simp [readSize, Node.sizeBytes, ht, hnone]
  | false =>
    obtain ⟨size, hsome⟩ : ∃ size, node.childrenSize = some size :=
      Option.isSome_iff_exists.mp (by simpa [ht] using hsize)
    have hbelow : node.sizeBelow = size := by
      simp [Node.sizeBelow, Node.sizeBelowWith, ht, hsome]
    have hbytes : node.sizeBytes = (VarInt.ofValue size).encode := by
      simp [Node.sizeBytes, ht, hbelow]
    have hfits := VarInt.fits_ofValue size
    rw [hbytes] at hb ⊢
    rw [VarInt.length_encode hfits]
    simp [readSize, VarInt.read_encode hfits hb, hsome, VarInt.ofValue]

/-- A message is read back part by part, if the inline messages in it are. The only thing that can
go wrong is a path longer than messages may announce. -/
theorem decodeWith_message (store : ValueStore) {node : Node} (h : node.Regular)
    (hlt : node.path.length < 2 ^ 64)
    {inner : (m : Bytes) → m.length < node.message.length → Except DecodeError Node}
    (hinner : ∀ bit label left right, node.child bit = .inMemory label left right →
      (node.child bit).isInline → ∀ h,
      inner (Node.message ⟨label, left, right⟩) h = .ok ⟨label.readBack store, left, right⟩) :
    decodeWith store node.message inner =
      if node.path.length ≤ SharedPath.maxLength then .ok (node.readBack store)
      else .error (.pathTooLong (.ofNat node.path.length)) := by
  obtain ⟨hlabel, hsize, -, -⟩ := h
  have hmessage : StandsAt (node.flags.toByte :: (SharedPath.encode node.path ++
      (node.left.written.slot.bytes ++ (node.right.written.slot.bytes ++
        (node.sizeBytes ++ node.valueBytes))))) node.message 0 := by
    rw [← node.message_eq]
    exact standsAt_self _
  obtain ⟨hflags, hmessage⟩ := hmessage.cons
  obtain ⟨hpath, hmessage⟩ := hmessage.append
  obtain ⟨hleft, hmessage⟩ := hmessage.append
  obtain ⟨hright, hmessage⟩ := hmessage.append
  obtain ⟨hbelow, hvalue⟩ := hmessage.append
  have hlength : node.message.length = 0 + 1 + (SharedPath.encode node.path).length +
      node.left.written.slot.bytes.length + node.right.written.slot.bytes.length +
      node.sizeBytes.length + node.valueBytes.length := by
    rw [node.message_eq]
    simp only [List.length_cons, List.length_append]
    omega
  have hleft : decodeChild node.message inner node.flags.leftPresent node.flags.leftInline _ = _ :=
    decodeChild_slot store hleft (hinner false)
  have hright :
      decodeChild node.message inner node.flags.rightPresent node.flags.rightInline _ = _ :=
    decodeChild_slot store hright (hinner true)
  have hvalue : decodeValue store node.message node.flags.longValue _ _ = _ :=
    decodeValue_valueBytes store hlabel hvalue hlength
  have hpath : readPath node.message node.flags.sharedPath = _ := readPath_encode hlt hpath
  rw [decodeWith_eq, hflags.byteField, liftM_field_ok, ok_bind, Flags.ofByte_toByte]
  dsimp only
  rw [hpath]
  split
  · rw [ok_bind, ← Nat.zero_add 1, hleft, ok_bind, hright, ok_bind, readSize_sizeBytes hsize hbelow,
      ok_bind, hvalue]
    rfl
  · rfl

/-- A message is read back as the same node. -/
theorem decode_message (store : ValueStore) {node : Node} (h : node.Regular)
    (hlt : node.path.length < 2 ^ 64) :
    decode store node.message =
      if node.path.length ≤ SharedPath.maxLength then .ok (node.readBack store)
      else .error (.pathTooLong (.ofNat node.path.length)) := by
  rw [decode]
  refine decodeWith_message store h hlt fun bit label left right hchild hinline _ => ?_
  have hregular := h.child bit
  rw [hchild] at hinline hregular
  obtain ⟨hterminal, hlen⟩ := Child.isInline_inMemory.mp hinline
  obtain ⟨hl, hr⟩ := Node.isTerminal_iff.mp hterminal
  dsimp only at hl hr
  subst hl hr
  replace hregular : Node.Regular ⟨label, .absent, .absent⟩ := hregular
  -- The path of a small leaf is short enough to be announced.
  have hpath := Node.length_path_le ⟨label, .absent, .absent⟩
  have hmax : SharedPath.maxLength = 524280 ∧ maxInlineMessage = 44 := ⟨rfl, rfl⟩
  rw [decode, decodeWith_message store hregular (by omega), if_pos (by omega)]
  · rfl
  · intro bit _ _ _ hchild
    cases bit <;> cases hchild

end Rskip107

theorem Node.ofMessage_message (store : ValueStore) {node : Node} (h : node.Regular)
    (hlt : node.path.length < 2 ^ 64) :
    Node.ofMessage store node.message =
      if node.path.length ≤ SharedPath.maxLength then .ok (node.readBack store)
      else .error (.pathTooLong (.ofNat node.path.length)) := by
  have hne : node.flags.toByte ≠ Orchid.arity := node.flags.toByte_ne.1
  rw [← Rskip107.decode_message store h hlt, node.message_eq, Node.ofMessage, if_neg hne]

theorem Node.plain_ofParts (path : BitPath) (value : Option Bytes) (left right : Child) :
    (Node.ofParts path value left right).Plain := by
  intro _
  rw [ofParts_eq]
  dsimp only
  cases hfilter : value.filter fun v => !v.isEmpty with
  | none => exact .inl ⟨rfl, rfl⟩
  | some v =>
    obtain ⟨-, hne⟩ := Option.filter_eq_some_iff.mp hfilter
    exact .inr ⟨v, by simpa using hne, rfl, rfl⟩

/-- Nodes made of parts are regular if their values can be stored. -/
theorem Node.regular_ofParts (path : BitPath) {value : Option Bytes} {left right : Child}
    (hv : ∀ v ∈ value, Accepted v) (hl : left.Regular) (hr : right.Regular) :
    (Node.ofParts path value left right).Regular := by
  have hne : ∀ v ∈ value, v ≠ [] := fun v h => (hv v h).1
  have hlength := valueLength_ofParts path left right hne
  refine ⟨⟨plain_ofParts path value left right, fun h => ?_⟩,
    isNone_childrenSize_ofParts path value left right, ?_, ?_⟩
  · rw [hlength]
    cases value with
    | none => simp
    | some v =>
      rw [Option.getD_some, (hv v rfl).toNat_length]
      exact (hv v rfl).2
  · rwa [left_ofParts]
  · rwa [right_ofParts]

end BlockAudit.Trie
