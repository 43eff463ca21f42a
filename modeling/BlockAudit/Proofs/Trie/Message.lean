import BlockAudit.Proofs.Trie.SharedPath
import BlockAudit.Trie.Tree

/-! The parts of a message in the current layout, and how children stand in it. -/
namespace BlockAudit.Trie

open Rskip107

namespace Rskip107

theorem Flags.toByte_ne (flags : Flags) : flags.toByte ≠ 2 ∧ flags.toByte ≠ 0x80 := by
  obtain ⟨a, b, c, d, e, f⟩ := flags
  revert a b c d e f
  decide

theorem Flags.toByte_injective {a b : Flags} (h : a.toByte = b.toByte) : a = b := by
  rw [← Flags.ofByte_toByte a, h, Flags.ofByte_toByte]

end Rskip107

namespace Node

theorem isTerminal_iff {node : Node} :
    node.isTerminal ↔ node.left = .absent ∧ node.right = .absent := by
  unfold isTerminal
  split <;> simp_all

/-- The size of the subtree in a message. Leaves have none. -/
def sizeBytes (node : Node) : Bytes :=
  if node.isTerminal then [] else (VarInt.ofValue node.sizeBelow).encode

/-- The first byte of a message. -/
def flags (node : Node) : Flags :=
  node.flagsWith node.left.written node.right.written

theorem message_eq (node : Node) :
    node.message = node.flags.toByte :: (SharedPath.encode node.path ++
      (node.left.written.slot.bytes ++ (node.right.written.slot.bytes ++
        (node.sizeBytes ++ node.valueBytes)))) := by
  simp [message, messageWith, flags, sizeBytes, sizeBelow]

theorem length_path_le (node : Node) : node.path.length ≤ 8 * node.message.length := by
  have := SharedPath.length_le_of_encode node.path
  rw [message_eq]
  simp
  omega

theorem length_sizeBytes_le (node : Node) : node.sizeBytes.length ≤ 9 := by
  unfold sizeBytes
  split
  · simp
  · rw [VarInt.length_encode (VarInt.fits_ofValue _)]
    unfold VarInt.ofValue VarInt.sizeOf
    dsimp only
    split_ifs <;> omega

end Node

namespace Child

/-- A child in memory is written inline if it is a small leaf, else by its hash. -/
theorem slot_inMemory (label : Label) (left right : Child) :
    (inMemory label left right).written.slot =
      if Node.isTerminal ⟨label, left, right⟩ ∧
          (Node.message ⟨label, left, right⟩).length ≤ maxInlineMessage then
        .inline (Node.message ⟨label, left, right⟩)
      else .hash (Node.hash ⟨label, left, right⟩) := by
  rw [written]
  exact if_congr (by simp [Node.message]) rfl rfl

theorem isInline_inMemory {label : Label} {left right : Child} :
    (inMemory label left right).isInline ↔
      Node.isTerminal ⟨label, left, right⟩ ∧
        (Node.message ⟨label, left, right⟩).length ≤ maxInlineMessage := by
  rw [isInline, slot_inMemory]
  split
  · rename_i h
    exact iff_of_true rfl h
  · rename_i h
    exact iff_of_false Bool.false_ne_true h

theorem isPresent_slot (child : Child) : child.written.slot.isPresent = !child.isAbsent := by
  cases child with
  | absent => rfl
  | hashed hash => rfl
  | inMemory label left right =>
    rw [slot_inMemory]
    split <;> rfl

theorem length_slot_le (child : Child) : child.written.slot.bytes.length ≤ 45 := by
  cases child with
  | absent => simp [written, Slot.bytes]
  | hashed hash => simp [written, Slot.bytes, hash.length_toBytes]
  | inMemory label left right =>
    rw [slot_inMemory]
    split
    · rename_i h
      have : maxInlineMessage = 44 := rfl
      simp [Slot.bytes]
      omega
    · simp [Slot.bytes, FixedBytes.length_toBytes]

end Child

/-- Whether there is a subtree below shows in the flags. -/
theorem Node.isPresent_or_isPresent (node : Node) :
    (node.flags.leftPresent || node.flags.rightPresent) = !node.isTerminal := by
  rw [flags, flagsWith, Child.isPresent_slot, Child.isPresent_slot]
  unfold isTerminal Child.isAbsent
  cases node.left <;> cases node.right <;> rfl

theorem Label.length_valueBytes_le {label : Label}
    (h : label.valueHash = none → (label.value.getD []).length ≤ maxInlineValue) :
    label.valueBytes.length ≤ 35 := by
  have hmax : maxInlineValue = 32 := rfl
  unfold Label.valueBytes
  cases hv : label.valueHash with
  | none =>
    have := h hv
    dsimp only
    omega
  | some hash => simp [hash.length_toBytes]

theorem Node.length_message_le {node : Node}
    (h : node.valueHash = none → (node.value.getD []).length ≤ maxInlineValue) :
    node.message.length ≤ (node.path.length + 7) / 8 + 160 := by
  have hpath : (SharedPath.encode node.path).length ≤ (node.path.length + 7) / 8 + 10 := by
    by_cases hnil : node.path = []
    · simp [hnil, SharedPath.encode]
    · have hlength := SharedPath.length_encodeLength_le node.path.length
      rw [SharedPath.length_encode_of_ne_nil hnil, BitPath.packedLength]
      omega
  have hleft := Child.length_slot_le node.left
  have hright := Child.length_slot_le node.right
  have hsize := node.length_sizeBytes_le
  have hvalue := Label.length_valueBytes_le h
  rw [node.message_eq]
  simp only [List.length_cons, List.length_append]
  omega

end BlockAudit.Trie
