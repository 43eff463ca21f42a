import BlockAudit.Trie.Node
import BlockAudit.Trie.Rskip107.Flags
import BlockAudit.Trie.SharedPath
import BlockAudit.Uint24

/-!
Messages and hashes in the current layout: flags, shared path, left child, right child, size of the
subtree, value. Small leaves are written inside their parent, other children by their hash.
-/
namespace BlockAudit.Trie

/-- Longer messages are never written inside a parent. -/
def maxInlineMessage : Nat := 44

namespace Rskip107

/-- How a child appears in the message of its parent. -/
inductive Slot where
  | absent
  | hash (hash : Hash)
  | inline (message : Bytes)
deriving DecidableEq

namespace Slot

def isPresent : Slot → Bool
  | .absent => false
  | _ => true

def isInline : Slot → Bool
  | .inline _ => true
  | _ => false

/-- A hash stands alone, an inline message after a byte with its length. -/
def bytes : Slot → Bytes
  | .absent => []
  | .hash h => h.toBytes
  | .inline message => .ofNat message.length :: message

end Slot

/-- What a parent has to know of a child. -/
structure Written where
  slot : Slot
  /-- What the child adds to the size of its parent's subtree. -/
  size : UInt64

end Rskip107

open Rskip107

namespace Label

/-- The length of a value that is kept outside the node. -/
def externalLength (label : Label) : UInt64 :=
  if label.isLong then label.valueLength.toUInt64 else 0

/-- The value at the end of a message: in full, or as hash and length. -/
def valueBytes (label : Label) : Bytes :=
  match label.valueHash with
  | some hash => hash.toBytes ++ Uint24.bytes label.valueLength.toNat
  | none => label.value.getD []

end Label

namespace Node

/-- The size of the subtree below: none for a leaf, else as recorded, else the sum over both sides. -/
def sizeBelowWith (node : Node) (left right : Written) : UInt64 :=
  if node.isTerminal then 0
  else
    match node.childrenSize with
    | some size => size
    | none => left.size + right.size

def flagsWith (node : Node) (left right : Written) : Flags where
  longValue := node.isLong
  sharedPath := !node.path.isEmpty
  leftPresent := left.slot.isPresent
  rightPresent := right.slot.isPresent
  leftInline := left.slot.isInline
  rightInline := right.slot.isInline

/-- The message of a node whose children are written as `left` and `right`. -/
def messageWith (node : Node) (left right : Written) : Bytes :=
  (node.flagsWith left right).toByte :: SharedPath.encode node.path ++ left.slot.bytes ++
    right.slot.bytes ++
    (if node.isTerminal then [] else (VarInt.ofValue (node.sizeBelowWith left right)).encode) ++
    node.valueBytes

/-- The hash of a node with the given message. -/
def hashOf (node : Node) (message : Bytes) : Hash :=
  if node.isEmptyTrie then emptyTrieHash else keccak message

end Node

/-- Children in memory are written inline if they are small leaves, else by their hash. -/
def Child.written : Child → Written
  | .absent => ⟨.absent, 0⟩
  | .hashed hash => ⟨.hash hash, 0⟩
  | .inMemory label left right =>
    let node : Node := ⟨label, left, right⟩
    let l := left.written
    let r := right.written
    let message := node.messageWith l r
    { slot :=
        if node.isTerminal && message.length ≤ maxInlineMessage then .inline message
        else .hash (node.hashOf message)
      size := node.sizeBelowWith l r + label.externalLength + .ofNat message.length }

namespace Node

def message (node : Node) : Bytes :=
  node.messageWith node.left.written node.right.written

def hash (node : Node) : Hash :=
  node.hashOf node.message

def sizeBelow (node : Node) : UInt64 :=
  node.sizeBelowWith node.left.written node.right.written

/-- A node with the given parts. Its other fields follow from them; an empty value is none. -/
def ofParts (path : BitPath) (value : Option Bytes) (left right : Child) : Node :=
  let value := value.filter fun v => !v.isEmpty
  let length := (value.getD []).length
  let node : Node :=
    { path := path
      value := value
      valueLength := .ofNat length
      valueHash := (value.filter fun v => v.length > maxInlineValue).map keccak
      left := left
      right := right }
  if node.isTerminal then node
  else { node with childrenSize := some (left.written.size + right.written.size) }

/-- A node without children. -/
def leaf (path : BitPath) (value : Bytes) : Node :=
  ofParts path (some value) .absent .absent

end Node

namespace Child

def hash? : Child → Option Hash
  | .absent => none
  | .hashed hash => some hash
  | .inMemory label left right => some (Node.hash ⟨label, left, right⟩)

/-- What the child adds to the size of its parent's subtree. A child known by its hash adds nothing. -/
def size (child : Child) : UInt64 :=
  child.written.size

def isInline (child : Child) : Bool :=
  child.written.slot.isInline

end Child

end BlockAudit.Trie
