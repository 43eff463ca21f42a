import BlockAudit.BitPath
import BlockAudit.Keccak

/-! Nodes of the binary state trie and the references to their children. -/
namespace BlockAudit.Trie

/-- What a node holds apart from its children. -/
structure Label where
  /-- The bits passed before the next branch. The bit that selects a child belongs to no path. -/
  path : BitPath := []
  /-- The bytes of the value, where they are known. -/
  value : Option Bytes := none
  valueLength : UInt32 := 0
  /-- The hash of a value that is kept outside the node. -/
  valueHash : Option Hash := none
  /-- The size of the subtree below, where the node records it. -/
  childrenSize : Option UInt64 := none
deriving DecidableEq

/-- One side of a node: nothing, a hash to be looked up, or a node in memory. -/
inductive Child where
  | absent
  | hashed (hash : Hash)
  | inMemory (label : Label) (left right : Child)
deriving DecidableEq

structure Node extends Label where
  left : Child := .absent
  right : Child := .absent
deriving DecidableEq

/-- Longer values are kept outside the node. -/
def maxInlineValue : Nat := 32

/-- The hash of a trie without entries: that of the empty byte string in RLP. -/
def emptyTrieHash : Hash :=
  keccak [0x80]

/-- A short name for the shape of a node. -/
inductive Kind where
  | empty
  | leaf
  | branch
  | hash

def Kind.name : Kind → String
  | .empty => "Empty"
  | .leaf => "Leaf"
  | .branch => "Branch"
  | .hash => "Hash"

namespace Label

/-- Whether the value is kept outside the node. -/
def isLong (label : Label) : Bool :=
  label.valueHash.isSome

end Label

namespace Node

def toChild (node : Node) : Child :=
  .inMemory node.toLabel node.left node.right

/-- The side that a key bit selects. -/
def child (node : Node) (bit : Bool) : Child :=
  if bit then node.right else node.left

/-- Whether both sides are absent. -/
def isTerminal (node : Node) : Bool :=
  match node.left, node.right with
  | .absent, .absent => true
  | _, _ => false

/-- Whether the node has neither value nor children. -/
def isEmptyTrie (node : Node) : Bool :=
  node.valueLength == 0 && node.valueHash.isNone && node.isTerminal

def kind (node : Node) : Kind :=
  if node.isEmptyTrie then .empty else if node.isTerminal then .leaf else .branch

end Node

namespace Child

def isAbsent : Child → Bool
  | .absent => true
  | _ => false

def node? : Child → Option Node
  | .inMemory label left right => some ⟨label, left, right⟩
  | _ => none

def kind : Child → Kind
  | .absent => .empty
  | .hashed _ => .hash
  | .inMemory label left right => Node.kind ⟨label, left, right⟩

end Child

end BlockAudit.Trie
