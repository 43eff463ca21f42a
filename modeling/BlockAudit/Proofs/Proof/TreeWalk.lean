import BlockAudit.Proofs.Proof.Reading

/-!
The nodes of a tree as they are read back from the messages of the current layout. A long value is
among the messages, or all that is said of it is its hash and its length.
-/
namespace BlockAudit.Proof

open Trie

/-- What is said about a key with the given value: of a long one, the bytes only if they are among
the messages. -/
def Lookup.ofValue (messages : Hash → Option Bytes) : Option Bytes → Lookup
  | none => .notFound
  | some v =>
    if v.length ≤ maxInlineValue then .found v
    else
      match messages (keccak v) with
      | some w => .found w
      | none => .foundHashed (keccak v) (.ofNat v.length)

variable {messages : Hash → Option Bytes} {path rest : BitPath} {value : Option Bytes}
  {left right tree : Tree} {bound : Nat}

section Node

variable (messages : Hash → Option Bytes) (left right : Tree)

theorem path_readBack_toNode :
    ((Trie.Tree.node path value left right).toNode.readBack messages).path = path :=
  Node.path_ofParts path value left.toChild right.toChild

theorem child_readBack_toNode (bit : Bool) :
    ((Trie.Tree.node path value left right).toNode.readBack messages).child bit =
      (if bit then right else left).toChild.readBack messages := by
  rw [Tree.toNode, Node.readBack, Node.left_ofParts, Node.right_ofParts]
  cases bit <;> rfl

theorem ofLabel_readBack_toNode (hv : ∀ v ∈ value, v ≠ []) :
    Lookup.ofLabel ((Trie.Tree.node path value left right).toNode.readBack messages).toLabel =
      .ofValue messages value := by
  have hvalue := Node.value_ofParts path left.toChild right.toChild hv
  have hlength := Node.valueLength_ofParts path left.toChild right.toChild hv
  have hhash := Node.valueHash_ofParts path left.toChild right.toChild hv
  rw [Tree.toNode, Node.readBack, Label.readBack, Lookup.ofLabel]
  dsimp only
  rw [hvalue, hlength, hhash]
  cases value with
  | none => rfl
  | some v =>
    by_cases hshort : v.length ≤ maxInlineValue
    · rw [Lookup.ofValue, Option.bind_some, if_pos hshort, if_pos hshort]
    · rw [Lookup.ofValue, Option.bind_some, if_neg hshort, if_neg hshort]
      dsimp only
      cases messages (keccak v) <;> rfl

end Node

/-- The message of a node is read back, unless its path is too long to be announced. -/
theorem ofMessage_toNode (hred : tree.Reduced) (hne : tree ≠ .nil) (hwithin : tree.Within bound)
    (hlt : bound < 2 ^ 64) :
    Node.ofMessage messages tree.toNode.message =
      if tree.toNode.path.length ≤ SharedPath.maxLength then .ok (tree.toNode.readBack messages)
      else .error (.pathTooLong (.ofNat tree.toNode.path.length)) := by
  have hlen := Tree.length_path_toNode_le hred hne hwithin
  exact Node.ofMessage_message messages (Tree.regular_toNode hred hne) (by omega)

/-- How the messages of the current layout are read. -/
def Reading.rskip107 (messages : Hash → Option Bytes) : Reading where
  layout := .rskip107
  node tree := tree.toNode.readBack messages
  child tree := tree.toChild.readBack messages
  answer := .ofValue messages
  node_nil := rfl
  child_nil := rfl
  path_node _ _ left right := path_readBack_toNode messages left right
  child_node _ _ left right bit := child_readBack_toNode messages left right bit
  label_node _ left right _ hv := ofLabel_readBack_toNode messages left right hv
  answer_none := rfl
  child_cases {tree} hred hne := by
    rw [Tree.readBack_toChild messages hred hne]
    by_cases hinline : tree.toChild.isInline
    · rw [if_pos hinline]
      exact .inl rfl
    · rw [if_neg hinline]
      exact .inr rfl

theorem walk_toNode_append_cons (bit : Bool) :
    walk messages ((Trie.Tree.node path value left right).toNode.readBack messages)
        (path ++ bit :: rest) =
      descend messages ((if bit then right else left).toChild.readBack messages) rest :=
  (Reading.rskip107 messages).walk_node_append_cons bit

end BlockAudit.Proof
