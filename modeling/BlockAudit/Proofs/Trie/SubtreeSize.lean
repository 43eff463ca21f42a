import BlockAudit.Proofs.Trie.Faithful

/-!
The size of a subtree. Messages carry the size of their children's subtrees and count in that of every node
above, so a size is summed from below; what comes out is one sum over all nodes below.
-/
namespace BlockAudit.Trie

/-- The nodes in memory below a node. -/
def Node.below (node : Node) : List Node :=
  node.left.nodes ++ node.right.nodes

/-- What a node adds to the size of every subtree it is in: its message, and its value if that is kept
outside. -/
def Node.weight (node : Node) : Nat :=
  node.message.length + if node.isLong then node.valueLength.toNat else 0

def totalWeight (nodes : List Node) : Nat :=
  (nodes.map Node.weight).sum

/-- All nodes are in memory, and each with a child records what its children add. -/
def Child.Summed : Child → Prop
  | .absent => True
  | .hashed _ => False
  | .inMemory label left right =>
    label.childrenSize =
        (if Node.isTerminal ⟨label, left, right⟩ then none else some (left.size + right.size)) ∧
      left.Summed ∧ right.Summed

def Node.Summed (node : Node) : Prop :=
  node.toChild.Summed

section Weight

theorem totalWeight_cons (node : Node) (nodes : List Node) :
    totalWeight (node :: nodes) = node.weight + totalWeight nodes := by
  rw [totalWeight, List.map_cons, List.sum_cons, ← totalWeight]

theorem totalWeight_append (nodes more : List Node) :
    totalWeight (nodes ++ more) = totalWeight nodes + totalWeight more := by
  rw [totalWeight, List.map_append, List.sum_append, ← totalWeight, ← totalWeight]

end Weight

section Summed

variable {label : Label} {left right child : Child} {node : Node}

theorem Label.externalLength_eq (label : Label) :
    label.externalLength = .ofNat (if label.isLong then label.valueLength.toNat else 0) := by
  unfold externalLength
  split
  · exact (UInt64.ofNat_uInt32ToNat label.valueLength).symm
  · rfl

theorem Child.size_inMemory :
    (inMemory label left right).size =
      Node.sizeBelow ⟨label, left, right⟩ + label.externalLength +
        .ofNat (Node.message ⟨label, left, right⟩).length := rfl

theorem Node.childrenSize_of_summed (h : node.Summed) :
    node.childrenSize = if node.isTerminal then none else some (node.left.size + node.right.size) :=
  h.1

theorem Node.sizeBelow_of_summed (h : node.Summed) :
    node.sizeBelow = node.left.size + node.right.size := by
  rw [sizeBelow, sizeBelowWith, childrenSize_of_summed h]
  split
  · rename_i hterminal
    obtain ⟨hleft, hright⟩ := isTerminal_iff.mp hterminal
    rw [hleft, hright]
    rfl
  · rfl

/-- A child adds the weight of its node and of all nodes below. -/
theorem Child.size_of_summed (h : child.Summed) :
    child.size = .ofNat (totalWeight child.nodes) := by
  induction child with
  | absent => rfl
  | hashed hash => exact h.elim
  | inMemory label left right ihl ihr =>
    have hbelow := @Node.sizeBelow_of_summed ⟨label, left, right⟩ h
    have hweight : Node.weight ⟨label, left, right⟩ = (Node.message ⟨label, left, right⟩).length +
        if label.isLong then label.valueLength.toNat else 0 := rfl
    obtain ⟨-, hl, hr⟩ := h
    rw [size_inMemory, hbelow, ihl hl, ihr hr, Label.externalLength_eq, nodes, totalWeight_cons,
      totalWeight_append, hweight, ← UInt64.ofNat_add, ← UInt64.ofNat_add, ← UInt64.ofNat_add]
    congr 1
    omega

theorem Node.sizeBelow_eq_ofNat (h : node.Summed) :
    node.sizeBelow = .ofNat (totalWeight node.below) := by
  obtain ⟨-, hl, hr⟩ := id h
  rw [sizeBelow_of_summed h, below, totalWeight_append, UInt64.ofNat_add]
  exact congrArg₂ (· + ·) (Child.size_of_summed hl) (Child.size_of_summed hr)

theorem Node.Summed.child_ne_hashed (h : node.Summed) (bit : Bool) (hash : Hash) :
    node.child bit ≠ .hashed hash := by
  obtain ⟨-, hl, hr⟩ := h
  cases bit
  · intro hleft
    rw [show node.left = .hashed hash from hleft] at hl
    exact hl
  · intro hright
    rw [show node.right = .hashed hash from hright] at hr
    exact hr

theorem Child.summed_of_mem_nodes (h : child.Summed) (hnode : node ∈ child.nodes) :
    node.Summed := by
  induction child with
  | absent => cases hnode
  | hashed hash => cases hnode
  | inMemory label left right ihl ihr =>
    obtain ⟨-, hl, hr⟩ := id h
    rw [nodes, List.mem_cons, List.mem_append] at hnode
    rcases hnode with rfl | hnode | hnode
    · exact h
    · exact ihl hl hnode
    · exact ihr hr hnode

theorem Node.summed_ofParts (path : BitPath) (value : Option Bytes) (hl : left.Summed)
    (hr : right.Summed) : (ofParts path value left right).Summed := by
  refine ⟨?_, by rwa [left_ofParts], by rwa [right_ofParts]⟩
  change (ofParts path value left right).childrenSize =
    if (ofParts path value left right).isTerminal then none
    else some ((ofParts path value left right).left.size + (ofParts path value left right).right.size)
  rw [isTerminal_ofParts, left_ofParts, right_ofParts, ofParts_eq]
  rfl

theorem Tree.summed_toChild (tree : Tree) : tree.toChild.Summed := by
  induction tree with
  | nil => trivial
  | node path value left right ihl ihr => exact Node.summed_ofParts path value ihl ihr

theorem Tree.summed_toNode (tree : Tree) : tree.toNode.Summed := by
  cases tree with
  | nil => exact ⟨rfl, trivial, trivial⟩
  | node path value left right => exact summed_toChild (.node path value left right)

/-- The size stands in a message right before the value. -/
theorem Node.exists_message_eq (h : ¬ node.isTerminal) :
    ∃ front, node.message =
        front ++ ((VarInt.ofValue node.sizeBelow).encode ++ node.valueBytes) ∧
      VarInt.read node.message front.length = .ok (VarInt.ofValue node.sizeBelow) := by
  let front := node.flags.toByte :: (SharedPath.encode node.path ++
    (node.left.written.slot.bytes ++ node.right.written.slot.bytes))
  have hmessage : node.message =
      front ++ ((VarInt.ofValue node.sizeBelow).encode ++ node.valueBytes) := by
    rw [message_eq, sizeBytes, if_neg h]
    simp [front]
  refine ⟨front, hmessage, ?_⟩
  exact VarInt.read_encode (VarInt.fits_ofValue _) ⟨front, node.valueBytes, hmessage, rfl⟩

end Summed

namespace Entries

/-- In a trie that a builder makes, all nodes are in memory, and every node has the size that the nodes below
it add up to, records it exactly if it has a child, and then writes it into its message. Sizes are those that
64 bits can count. -/
theorem sizeBelow_build (entries : Entries) {node : Node} (hnode : node ∈ entries.builder.build.nodes)
    (hlt : totalWeight node.below < 2 ^ 64) :
    (∀ bit hash, node.child bit ≠ .hashed hash) ∧
      node.sizeBelow.toNat = totalWeight node.below ∧
      (node.childrenSize.isSome ↔ node.left ≠ .absent ∨ node.right ≠ .absent) ∧
      (∀ size, node.childrenSize = some size → size.toNat = totalWeight node.below) ∧
      (node.left ≠ .absent ∨ node.right ≠ .absent →
        ∃ front size, node.message = front ++ (VarInt.encode size ++ node.valueBytes) ∧
          VarInt.read node.message front.length = .ok size ∧
          size.value.toNat = totalWeight node.below) := by
  have hsummed := Child.summed_of_mem_nodes (Tree.summed_toNode entries.builder.tree) hnode
  have hsize : node.sizeBelow.toNat = totalWeight node.below := by
    rw [Node.sizeBelow_eq_ofNat hsummed, UInt64.toNat_ofNat_of_lt' hlt]
  have hbranch : ¬ node.isTerminal ↔ node.left ≠ .absent ∨ node.right ≠ .absent := by
    rw [Node.isTerminal_iff, not_and_or]
  have hrecorded := Node.childrenSize_of_summed hsummed
  rw [← Node.sizeBelow_of_summed hsummed] at hrecorded
  refine ⟨hsummed.child_ne_hashed, hsize, ?_, ?_, fun hchild => ?_⟩
  · rw [← hbranch, hrecorded]
    cases node.isTerminal <;> simp
  · intro size hsome
    rw [hrecorded] at hsome
    split at hsome
    · cases hsome
    · cases hsome
      exact hsize
  · obtain ⟨front, hmessage, hread⟩ := Node.exists_message_eq (hbranch.mpr hchild)
    exact ⟨front, _, hmessage, hread, hsize⟩

/-- Two keys that part at the second bit, and a third with a long value. -/
def forked : Entries :=
  [([0x00], [1]), ([0x40], [2]), ([0x80], List.replicate 40 7)]

/-- The root counts the fork below it, three leaves and 40 bytes of a value. -/
theorem sizeBelow_build_forked :
    totalWeight forked.builder.build.below = 98 ∧ forked.builder.build.below.length = 4 ∧
      forked.builder.build.childrenSize.isSome ∧ forked.builder.build.sizeBelow.toNat = 98 := by
  have htotal : totalWeight forked.builder.build.below = 98 := by decide +kernel
  have hlt : totalWeight forked.builder.build.below < 2 ^ 64 := by
    rw [htotal]
    decide
  obtain ⟨-, hsize, hsome, -⟩ := sizeBelow_build forked (Node.mem_nodes _) hlt
  rw [htotal] at hsize
  exact ⟨htotal, by decide +kernel, hsome.mpr (.inl (by decide +kernel)), hsize⟩

end Entries

end BlockAudit.Trie
