import BlockAudit.Trie.Rskip107.Message

/-! Compressed binary trees, and the nodes made of them. -/
namespace BlockAudit.Trie

/-- A trie without hashes. Keys are consumed along paths and one bit at each branch. -/
inductive Tree where
  | nil
  | node (path : BitPath) (value : Option Bytes) (left right : Tree)
deriving DecidableEq

namespace Tree

def leaf (path : BitPath) (value : Bytes) : Tree :=
  .node path (some value) .nil .nil

/-- A branch with `tree` on the side of `bit` and `other` on the other side. -/
def fork (path : BitPath) (value : Option Bytes) (bit : Bool) (tree other : Tree) : Tree :=
  if bit then .node path value other tree else .node path value tree other

/-- Sets the value at `key`. A path that the key leaves midway is cut in two. -/
def insert : Tree → BitPath → Bytes → Tree
  | .nil, key, value => leaf key value
  | .node path old left right, key, value =>
    let common := path.commonPrefixLength key
    match path.drop common, key.drop common with
    | [], [] => .node path (some value) left right
    | [], false :: rest => .node path old (left.insert rest value) right
    | [], true :: rest => .node path old left (right.insert rest value)
    | bit :: below, [] =>
      fork (path.take common) (some value) bit (.node below old left right) .nil
    | bit :: below, _ :: rest =>
      fork (path.take common) none bit (.node below old left right) (leaf rest value)

/-- The parts of a node whose path is cut where the key leaves it. What is below the cut becomes a child,
and for the moment the only one. -/
def fit? (path : BitPath) (value : Option Bytes) (left right : Tree) (key : BitPath) (cursor : Nat) :
    Option (BitPath × Option Bytes × Tree × Tree) :=
  let common := path.commonPrefixLengthAt 0 key cursor
  if common < path.length then do
    let (front, bit, below) ← path.cut? common
    let moved := node below value left right
    return if bit then (front, none, nil, moved) else (front, none, moved, nil)
  else return (path, value, left, right)

/-- Sets the value at the bits of `key` from `cursor` on. -/
def insertAt? (tree : Tree) (key : BitPath) (cursor : Nat) (value : Bytes) : Option Tree :=
  match tree with
  | .nil => do return leaf (← key.skip? cursor) value
  | .node path old left right => do
    let (path, old, left, right) ← fit? path old left right key cursor
    match h : key.get (cursor + path.length) with
    | .error _ => return node path (some value) left right
    | .ok false => return node path old (← left.insertAt? key (cursor + path.length + 1) value) right
    | .ok true => return node path old left (← right.insertAt? key (cursor + path.length + 1) value)
termination_by key.length - cursor
decreasing_by
  all_goals
    have hlt := BitPath.lt_length_of_get h
    omega

def toChild : Tree → Child
  | .nil => .absent
  | .node path value left right => (Node.ofParts path value left.toChild right.toChild).toChild

/-- The root with all nodes below it in memory. -/
def toNode : Tree → Node
  | .nil => {}
  | .node path value left right => Node.ofParts path value left.toChild right.toChild

end Tree

end BlockAudit.Trie
