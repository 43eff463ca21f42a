import BlockAudit.Proofs.Trie.OrchidParse
import BlockAudit.Proofs.Trie.ReadBack

/-!
What a reader makes of a message in the older layout: the same path, the children by their hashes, and
the value. Of a long value the hash is written and nothing else, so that its length is that of the bytes
which a store has under this hash.
-/
namespace BlockAudit.Trie

/-- A label with the bytes of a long value and their length taken from a store, and without a size of the
subtree. -/
def Label.orchidReadBack (store : ValueStore) (label : Label) : Label :=
  { label.readBack store with
    valueLength := match label.valueHash with
      | some hash => .ofNat ((store hash).getD []).length
      | none => label.valueLength
    childrenSize := none }

def Node.orchidReadBack (store : ValueStore) (node : Node) : Node :=
  ⟨node.toLabel.orchidReadBack store, .ofLink node.left.orchidHash?, .ofLink node.right.orchidHash?⟩

theorem Label.length_valueLink_of_isLong (label : Label) (h : label.isLong) :
    label.valueLink.length = 32 := by
  obtain ⟨hash, hhash⟩ := Option.isSome_iff_exists.mp h
  rw [valueLink, hhash]
  exact hash.length_toBytes

namespace Orchid

theorem hasLongFlag_ite (isLong : Bool) :
    ((if isLong then longValueFlag else 0) &&& longValueFlag != 0) = isLong := by
  cases isLong <;> decide

/-- The parts of the message of a node. -/
def Parts.ofNode (node : Node) (hlt : node.path.length < 2 ^ 16) : Parts where
  flags := if node.isLong then longValueFlag else 0
  length := node.path.length
  packed := node.path.pack
  left := node.left.orchidHash?
  right := node.right.orchidHash?
  tail := node.valueLink
  known := by split <;> decide
  length_lt := hlt
  length_packed := BitPath.length_pack node.path
  hash_le h := by
    rw [hasLongFlag_ite] at h
    exact Nat.le_of_eq (node.length_valueLink_of_isLong h).symm

/-- A label is read from what its node writes of the value. -/
theorem tailLabel_valueLink (store : ValueStore) {label : Label} (h : label.Plain) :
    tailLabel store label.path label.isLong label.valueLink = label.orchidReadBack store := by
  unfold tailLabel Label.isLong Label.valueLink Label.orchidReadBack Label.readBack
  cases hv : label.valueHash with
  | none =>
    rw [if_neg (by simp)]
    dsimp only
    rw [h.withInlineValue_eq hv none, hv]
  | some hash =>
    rw [if_pos (by simp)]
    dsimp only
    rw [takeFrom_toBytes]

section OfNode

variable {node : Node} (hlt : node.path.length < 2 ^ 16)

theorem bytes_ofNode : (Parts.ofNode node hlt).bytes = node.orchidMessage :=
  (messageWith_eq node node.left.orchidHash? node.right.orchidHash?).symm

theorem isLong_ofNode : (Parts.ofNode node hlt).isLong = node.isLong :=
  hasLongFlag_ite node.isLong

theorem node_ofNode (store : ValueStore) (h : node.toLabel.Plain) :
    (Parts.ofNode node hlt).node store = node.orchidReadBack store := by
  have hpath : (Parts.ofNode node hlt).path = node.path := by
    change (BitPath.ofBytes node.path.pack).take node.path.length = node.path
    rw [BitPath.ofBytes_pack, List.take_left' rfl]
  rw [Parts.node, hpath, isLong_ofNode hlt, Node.orchidReadBack, ← tailLabel_valueLink store h]
  rfl

end OfNode

/-- A message is read back if the length of the path fits the 16 bits that are written of it. -/
theorem decode_orchidMessage (store : ValueStore) {node : Node} (h : node.toLabel.Plain)
    (hlt : node.path.length < 2 ^ 16) :
    decode store node.orchidMessage = .ok (node.orchidReadBack store) := by
  rw [← bytes_ofNode hlt, decode_bytes, node_ofNode hlt store h]

end Orchid

theorem Label.length_valueLink_le {label : Label}
    (h : label.valueHash = none → (label.value.getD []).length ≤ maxInlineValue) :
    label.valueLink.length ≤ 32 := by
  have hmax : maxInlineValue = 32 := rfl
  unfold Label.valueLink
  cases hv : label.valueHash with
  | none =>
    have := h hv
    dsimp only
    omega
  | some hash => exact Nat.le_of_eq hash.length_toBytes

theorem Node.length_orchidMessage_le {node : Node}
    (h : node.valueHash = none → (node.value.getD []).length ≤ maxInlineValue) :
    node.orchidMessage.length ≤ (node.path.length + 7) / 8 + 102 := by
  have hleft := Orchid.length_linkBytes_le node.left.orchidHash?
  have hright := Orchid.length_linkBytes_le node.right.orchidHash?
  have hvalue := Label.length_valueLink_le h
  rw [orchidMessage, Orchid.messageWith_eq]
  simp only [List.length_cons, List.length_append, length_bigEndianFixed, BitPath.length_pack,
    BitPath.packedLength]
  omega

theorem Node.ofMessage_orchidMessage (store : ValueStore) {node : Node}
    (h : node.toLabel.Plain) (hlt : node.path.length < 2 ^ 16) :
    Node.ofMessage store node.orchidMessage = .ok (node.orchidReadBack store) := by
  rw [← Orchid.decode_orchidMessage store h hlt, orchidMessage, Orchid.messageWith_eq,
    Node.ofMessage, if_pos rfl]

end BlockAudit.Trie
