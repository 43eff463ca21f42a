import BlockAudit.Proofs.Trie.ReadBack

/-!
The nodes of a tree: what they write before they are hashed, and the values they hold. No node of a
reduced tree stands for the empty trie, so each has the hash of its own message.
-/
namespace BlockAudit.Trie

namespace Node

/-- What is hashed of a node. -/
def messageIn : Layout → Node → Bytes
  | .orchid, node => node.orchidMessage
  | .rskip107, node => node.message

theorem hashIn_eq (layout : Layout) (node : Node) :
    node.hashIn layout =
      if node.isEmptyTrie then emptyTrieHash else keccak (node.messageIn layout) := by
  cases layout <;> rfl

/-- The empty trie has a message of its own: the messages of other nodes begin with other bytes. -/
theorem messageIn_ne (layout : Layout) (node : Node) : node.messageIn layout ≠ [0x80] := by
  cases layout with
  | orchid =>
    rw [messageIn, orchidMessage, Orchid.messageWith]
    simp
  | rskip107 =>
    rw [messageIn, message_eq]
    intro h
    exact node.flags.toByte_ne.2 (List.cons.inj h).1

end Node

namespace Tree

/-- The messages of all nodes. -/
def messages (layout : Layout) : Tree → List Bytes
  | .nil => []
  | .node path value left right =>
    (toNode (.node path value left right)).messageIn layout ::
      (left.messages layout ++ right.messages layout)

/-- The values of all nodes. -/
def values : Tree → List Bytes
  | .nil => []
  | .node _ value left right => value.toList ++ (left.values ++ right.values)

/-- All that is hashed of a tree: the messages of its nodes, and their values. -/
def hashed (layout : Layout) (tree : Tree) : List Bytes :=
  tree.messages layout ++ tree.values

variable {path : BitPath} {value : Option Bytes} {left right tree : Tree}

@[simp] theorem isAbsent_toChild : tree.toChild.isAbsent = decide (tree = .nil) := by
  cases tree with
  | nil => rfl
  | node path value left right => simp [toChild, Node.toChild, Child.isAbsent]

theorem toChild_eq (h : tree ≠ .nil) : tree.toChild = tree.toNode.toChild := by
  cases tree with
  | nil => exact absurd rfl h
  | node path value left right => rfl

theorem mem_messages (layout : Layout) (h : tree ≠ .nil) :
    tree.toNode.messageIn layout ∈ tree.messages layout := by
  cases tree with
  | nil => exact absurd rfl h
  | node path value left right => exact List.mem_cons_self

theorem messageIn_mem_of_visited (layout : Layout) {s : Tree} {key : BitPath}
    (hs : s ∈ tree.visited key) : s.toNode.messageIn layout ∈ tree.messages layout := by
  have hsub : s.messages layout ⊆ tree.messages layout := by
    refine @visited_induction _ (fun t => t.messages layout ⊆ tree.messages layout) _ _
      (fun path value left right bit h => ?_) (List.Subset.refl _) hs
    rw [messages, List.cons_subset, List.append_subset] at h
    cases bit
    · exact h.2.1
    · exact h.2.2
  exact hsub (mem_messages layout (ne_nil_of_mem_visited hs))

theorem messageIn_mem_hashed (layout : Layout) (h : tree ≠ .nil) :
    tree.toNode.messageIn layout ∈ tree.hashed layout :=
  List.mem_append_left _ (mem_messages layout h)

theorem mem_values_of_lookup {key : BitPath} {v : Bytes} (h : tree.lookup key = some v) :
    v ∈ tree.values := by
  induction tree generalizing key with
  | nil => cases h
  | node path value left right ihl ihr =>
    rw [lookup] at h
    split at h
    · split at h
      · simp [values, h]
      · simp [values, ihl h]
      · simp [values, ihr h]
    · cases h

theorem mem_hashed_of_lookup (layout : Layout) {key : BitPath} {v : Bytes}
    (h : tree.lookup key = some v) : v ∈ tree.hashed layout :=
  List.mem_append_right _ (mem_values_of_lookup h)

theorem isEmptyTrie_toNode (hred : tree.Reduced) (h : tree ≠ .nil) :
    tree.toNode.isEmptyTrie = false := by
  cases tree with
  | nil => exact absurd rfl h
  | node path value left right =>
    obtain ⟨hside, hvalue, -, -⟩ := hred
    have hne : ∀ v ∈ value, v ≠ [] := fun v hv => (hvalue v hv).1
    rw [toNode, Node.isEmptyTrie, Node.valueLength_ofParts _ _ _ hne, Node.isTerminal_ofParts]
    cases value with
    | none =>
      obtain ⟨hl, hr⟩ := hside rfl
      simp [hl]
    | some v =>
      have hpos : 0 < v.length := List.length_pos_iff.mpr (hne v rfl)
      have hzero : UInt32.ofNat v.length ≠ 0 := by
        intro h
        have hlen := (hvalue v rfl).toNat_length
        rw [h, show (0 : UInt32).toNat = 0 from rfl] at hlen
        omega
      simp [hzero]

theorem hashIn_nil (layout : Layout) : (toNode .nil).hashIn layout = emptyTrieHash := by
  cases layout <;> rfl

/-- The hash of a node is that of its message. -/
theorem hashIn_toNode (layout : Layout) (hred : tree.Reduced) (h : tree ≠ .nil) :
    tree.toNode.hashIn layout = keccak (tree.toNode.messageIn layout) := by
  rw [Node.hashIn_eq, isEmptyTrie_toNode hred h, if_neg Bool.false_ne_true]

theorem length_path_toNode_le {bound : Nat} (hred : tree.Reduced) (h : tree ≠ .nil)
    (hwithin : tree.Within bound) : tree.toNode.path.length ≤ bound := by
  cases tree with
  | nil => exact absurd rfl h
  | node path value left right =>
    rw [toNode, Node.path_ofParts]
    exact length_path_le_of_within hwithin hred

/-- No value that is kept in a node is long. -/
theorem length_value_toNode_le (hred : tree.Reduced) (h : tree.toNode.valueHash = none) :
    (tree.toNode.value.getD []).length ≤ maxInlineValue := by
  cases tree with
  | nil => exact Nat.zero_le _
  | node path value left right =>
    have hv : ∀ v ∈ value, v ≠ [] := fun v hv => (hred.2.1 v hv).1
    exact Node.length_value_ofParts_le path _ _ hv h

theorem regular_toChild (hred : tree.Reduced) : tree.toChild.Regular := by
  induction tree with
  | nil => trivial
  | node path value left right ihl ihr =>
    obtain ⟨-, hvalue, hl, hr⟩ := hred
    exact Node.regular_ofParts path hvalue (ihl hl) (ihr hr)

theorem regular_toNode (hred : tree.Reduced) (h : tree ≠ .nil) : tree.toNode.Regular := by
  have hregular := regular_toChild hred
  rwa [toChild_eq h] at hregular

/-- A child that is inline is read back whole, and any other by the hash of its message. -/
theorem readBack_toChild (store : ValueStore) (hred : tree.Reduced) (h : tree ≠ .nil) :
    tree.toChild.readBack store =
      if tree.toChild.isInline then (tree.toNode.readBack store).toChild
      else .hashed (keccak tree.toNode.message) := by
  have hhash : tree.toNode.hash = keccak tree.toNode.message := hashIn_toNode .rskip107 hred h
  rw [toChild_eq h, Node.toChild, Child.readBack]
  split
  · rename_i hinline
    obtain ⟨hterminal, -⟩ := Child.isInline_inMemory.mp hinline
    obtain ⟨hl, hr⟩ := Node.isTerminal_iff.mp hterminal
    rw [Node.readBack, Node.toChild, show tree.toNode.left = .absent from hl,
      show tree.toNode.right = .absent from hr]
    rfl
  · rw [← hhash]

end Tree

end BlockAudit.Trie
