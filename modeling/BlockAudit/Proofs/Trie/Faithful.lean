import BlockAudit.Proofs.Trie.Build
import BlockAudit.Proofs.Trie.OrchidRoundTrip
import BlockAudit.Proofs.Trie.TreeNode

/-!
Whether the message of a node that a builder makes is ever read as another node. In the current layout it is
not: a path that is too long to be announced is refused. In the older one it is, if the length of the path
takes more than 16 bits: what is left of the path then passes for hashes and value.
-/
namespace BlockAudit.Trie

section Same

/-- The child itself, or its hash in its place if it is in memory. -/
def Child.StandsFor (layout : Layout) (read child : Child) : Prop :=
  read = child ∨ ∃ node : Node, child = node.toChild ∧ read = .hashed (node.hashIn layout)

/-- A node that is read as `read` shows all that matters of it. -/
structure Node.ReadsAs (layout : Layout) (node read : Node) : Prop where
  path : read.path = node.path
  value : read.value = node.value
  valueLength : read.valueLength = node.valueLength
  valueHash : read.valueHash = node.valueHash
  left : read.left.StandsFor layout node.left
  right : read.right.StandsFor layout node.right

theorem Child.ofLink_standsFor (child : Child) :
    (Child.ofLink child.orchidHash?).StandsFor .orchid child := by
  cases child with
  | absent => exact .inl rfl
  | hashed hash => exact .inl rfl
  | inMemory label left right => exact .inr ⟨⟨label, left, right⟩, rfl, rfl⟩

theorem Child.readBack_standsFor {store : ValueStore} {child : Child}
    (h : ∀ node, child = Node.toChild node → node.toLabel.readBack store = node.toLabel) :
    (child.readBack store).StandsFor .rskip107 child := by
  cases child with
  | absent => exact .inl rfl
  | hashed hash => exact .inl rfl
  | inMemory label left right =>
    have hlabel : label.readBack store = label := h ⟨label, left, right⟩ rfl
    rw [readBack, hlabel]
    split
    · exact .inl rfl
    · exact .inr ⟨⟨label, left, right⟩, rfl, rfl⟩

end Same

namespace Orchid

theorem bigEndianFixed_mod (size n : Nat) :
    bigEndianFixed size (n % 256 ^ size) = bigEndianFixed size n := by
  have h := bigEndianFixed_ofBigEndian (bigEndianFixed size n)
  rwa [ofBigEndian_bigEndianFixed, length_bigEndianFixed] at h

/-- Any bytes begin with a hash if they are enough for one. -/
theorem exists_linkBytes {present : Bool} {bytes : Bytes} (h : 32 * present.toNat ≤ bytes.length) :
    ∃ link rest, link.isSome = present ∧ bytes = linkBytes link ++ rest := by
  cases present with
  | false => exact ⟨none, bytes, rfl, rfl⟩
  | true =>
    have htake : (bytes.take 32).length = 32 := by
      rw [List.length_take]
      exact min_eq_left h
    refine ⟨some (.takeFrom 32 (bytes.take 32)), bytes.drop 32, rfl, ?_⟩
    simp [linkBytes, FixedBytes.toBytes_takeFrom htake]

/-- Any bytes after the head of a message fall into parts if they are enough. -/
theorem exists_parts_of_length_le {left right : Option Hash} {isLong : Bool} {length : Nat}
    {rest : Bytes} (hlt : length < 2 ^ 16)
    (hle : BitPath.packedLength length + 32 * left.isSome.toNat + 32 * right.isSome.toNat +
      32 * isLong.toNat ≤ rest.length) :
    ∃ parts : Parts, parts.length = length ∧
      parts.bytes = arity :: (if isLong then longValueFlag else 0) ::
        (bigEndianFixed 2 (presence left right) ++ (bigEndianFixed 2 length ++ rest)) := by
  -- Path, left hash and right hash are cut off one after the other, and the tail is what is left.
  let packed := rest.take (BitPath.packedLength length)
  let below := rest.drop (BitPath.packedLength length)
  have hpacked : packed.length = BitPath.packedLength length := by
    rw [List.length_take]
    omega
  have hrest : rest = packed ++ below := (List.take_append_drop _ _).symm
  have hsum := congrArg List.length hrest
  rw [List.length_append, hpacked] at hsum
  obtain ⟨left', below', hleft, hbelow⟩ : ∃ link rest, link.isSome = left.isSome ∧
      below = linkBytes link ++ rest := exists_linkBytes (by omega)
  rw [hbelow, List.length_append, length_linkBytes, hleft] at hsum
  obtain ⟨right', tail, hright, htail⟩ : ∃ link rest, link.isSome = right.isSome ∧
      below' = linkBytes link ++ rest := exists_linkBytes (by omega)
  rw [htail, List.length_append, length_linkBytes, hright] at hsum
  let parts : Parts :=
    { flags := if isLong then longValueFlag else 0
      length, packed, tail
      left := left'
      right := right'
      known := by cases isLong <;> decide
      length_lt := hlt
      length_packed := hpacked
      hash_le := fun hlong => by
        rw [hasLongFlag_ite] at hlong
        rw [hlong, Bool.toNat_true] at hle
        omega }
  refine ⟨parts, rfl, ?_⟩
  have hpresence : presence left' right' = presence left right := by
    rw [presence, hleft, hright, ← presence]
  rw [hrest, hbelow, htail, ← hpresence]
  rfl

/-- Every message has parts, but of the length of the path they have only 16 bits. -/
theorem exists_parts_of_orchidMessage (node : Node) :
    ∃ parts : Parts, parts.length = node.path.length % 2 ^ 16 ∧ parts.bytes = node.orchidMessage := by
  let left := node.left.orchidHash?
  let right := node.right.orchidHash?
  let rest := node.path.pack ++ (linkBytes left ++ (linkBytes right ++ node.valueLink))
  have hvalue : 32 * node.isLong.toNat ≤ node.valueLink.length := by
    cases hlong : node.isLong with
    | false => exact Nat.zero_le _
    | true => exact Nat.le_of_eq (node.length_valueLink_of_isLong hlong).symm
  have hle : BitPath.packedLength (node.path.length % 2 ^ 16) + 32 * left.isSome.toNat +
      32 * right.isSome.toNat + 32 * node.isLong.toNat ≤ rest.length := by
    simp only [rest, List.length_append, length_linkBytes, BitPath.length_pack, BitPath.packedLength]
    omega
  obtain ⟨parts, hlength, hbytes⟩ := exists_parts_of_length_le (Nat.mod_lt _ (by decide)) hle
  refine ⟨parts, hlength, ?_⟩
  rw [hbytes, Node.orchidMessage, messageWith_eq]
  have hmod : bigEndianFixed 2 (node.path.length % 2 ^ 16) = bigEndianFixed 2 node.path.length :=
    bigEndianFixed_mod 2 node.path.length
  rw [hmod]

end Orchid

namespace Node

variable {store : ValueStore} {node read : Node}

/-- A message of the older layout is never refused, but its path has only 16 bits of the length. -/
theorem exists_ofMessage_orchidMessage (store : ValueStore) (node : Node) :
    ∃ read, ofMessage store node.orchidMessage = .ok read ∧
      read.path.length = node.path.length % 2 ^ 16 := by
  obtain ⟨parts, hlength, hbytes⟩ := Orchid.exists_parts_of_orchidMessage node
  refine ⟨parts.node store, ?_, ?_⟩
  · rw [← Orchid.decode_bytes, hbytes, orchidMessage, Orchid.messageWith_eq, ofMessage, if_pos rfl]
  · rw [parts.path_node, parts.length_path, hlength]

end Node

/-- The nodes in memory, a parent before its children. -/
def Child.nodes : Child → List Node
  | .inMemory label left right => ⟨label, left, right⟩ :: (left.nodes ++ right.nodes)
  | _ => []

def Node.nodes (node : Node) : List Node :=
  node.toChild.nodes

theorem Node.mem_nodes (node : Node) : node ∈ node.nodes :=
  List.mem_cons_self

namespace Tree

variable {store : ValueStore} {tree left right : Tree} {path : BitPath} {value : Option Bytes}

theorem nodes_toChild :
    (node path value left right).toChild.nodes =
      (node path value left right).toNode :: (left.toChild.nodes ++ right.toChild.nodes) := by
  let root := Node.ofParts path value left.toChild right.toChild
  change root :: (root.left.nodes ++ root.right.nodes) = _
  rw [Node.left_ofParts, Node.right_ofParts]
  rfl

/-- What reading the nodes of a tree again takes: they are of use, the length of a path is a machine word,
and the store has the long values. -/
structure Readable (store : ValueStore) (tree : Tree) : Prop where
  reduced : tree.Reduced
  within : tree.Within (2 ^ 64 - 1)
  stored : ∀ key v, tree.lookup key = some v → maxInlineValue < v.length →
    store (keccak v) = some v

theorem Readable.child (h : (node path value left right).Readable store) (bit : Bool) :
    (if bit then right else left).Readable store where
  reduced := reduced_child h.reduced bit
  within := within_mono (within_child h.within bit) (by omega)
  stored key v hkey := h.stored (path ++ bit :: key) v (by simpa using hkey)

theorem Readable.nil : Readable store .nil where
  reduced := trivial
  within := by
    rintro _ _ ⟨⟩
  stored := by
    rintro _ _ ⟨⟩

/-- The nodes below a readable tree are the roots of readable trees. -/
theorem Readable.exists_toNode {node : Node} (h : tree.Readable store)
    (hnode : node ∈ tree.toChild.nodes) : ∃ s : Tree, s.Readable store ∧ node = s.toNode := by
  induction tree with
  | nil => cases hnode
  | node path value left right ihl ihr =>
    rw [nodes_toChild, List.mem_cons, List.mem_append] at hnode
    rcases hnode with hnode | hnode | hnode
    · exact ⟨_, h, hnode⟩
    · exact ihl (h.child false) hnode
    · exact ihr (h.child true) hnode

theorem Readable.exists_of_mem_nodes {node : Node} (h : tree.Readable store)
    (hnode : node ∈ tree.toNode.nodes) : ∃ s : Tree, s.Readable store ∧ node = s.toNode := by
  by_cases hnil : tree = .nil
  · subst hnil
    exact ⟨.nil, .nil, List.mem_singleton.mp hnode⟩
  · rw [Node.nodes, ← toChild_eq hnil] at hnode
    exact h.exists_toNode hnode

/-- The children of a root are roots themselves. -/
theorem Readable.exists_child (h : tree.Readable store) (bit : Bool) :
    ∃ s : Tree, s.Readable store ∧ tree.toNode.child bit = s.toChild := by
  cases tree with
  | nil => exact ⟨.nil, .nil, by cases bit <;> rfl⟩
  | node path value left right =>
    refine ⟨_, h.child bit, ?_⟩
    cases bit
    · exact Node.left_ofParts path value left.toChild right.toChild
    · exact Node.right_ofParts path value left.toChild right.toChild

theorem Readable.readBack_label (h : tree.Readable store) :
    tree.toNode.toLabel.readBack store = tree.toNode.toLabel ∧
      tree.toNode.toLabel.orchidReadBack store =
        { tree.toNode.toLabel with childrenSize := none } := by
  cases tree with
  | nil => exact ⟨rfl, rfl⟩
  | node path value left right =>
    have hne : ∀ v ∈ value, v ≠ [] := fun v hv => (h.reduced.2.1 v hv).1
    have hvalue := Node.value_ofParts path left.toChild right.toChild hne
    have hlength := Node.valueLength_eq_length path value left.toChild right.toChild
    have hhash := Node.valueHash_eq_map_keccak path value left.toChild right.toChild
    have hstored : (Node.ofParts path value left.toChild right.toChild).toLabel.StoredIn store := by
      intro v hv
      rw [hvalue] at hv
      subst hv
      exact h.stored path v lookup_path
    exact ⟨Label.readBack_of_storedIn hstored hhash,
      Label.orchidReadBack_of_storedIn hstored hhash hlength⟩

theorem Readable.regular (h : tree.Readable store) : tree.toNode.Regular := by
  by_cases hnil : tree = .nil
  · subst hnil
    exact ⟨⟨fun _ => .inl ⟨rfl, rfl⟩, by rintro ⟨⟩⟩, rfl, trivial, trivial⟩
  · exact regular_toNode h.reduced hnil

theorem Readable.length_path_lt (h : tree.Readable store) :
    tree.toNode.path.length < 2 ^ 64 := by
  by_cases hnil : tree = .nil
  · subst hnil
    exact Nat.two_pow_pos 64
  · have hle := length_path_toNode_le h.reduced hnil h.within
    omega

/-- A message of the current layout that is read at all is read as its node. -/
theorem Readable.readsAs_rskip107 {read : Node} (h : tree.Readable store)
    (hread : Node.ofMessage store tree.toNode.message = .ok read) :
    tree.toNode.ReadsAs .rskip107 read := by
  rw [Node.ofMessage_message store h.regular h.length_path_lt] at hread
  split at hread
  · cases hread
    obtain ⟨hlabel, -⟩ := h.readBack_label
    have hside : ∀ bit, ((tree.toNode.child bit).readBack store).StandsFor .rskip107
        (tree.toNode.child bit) := by
      intro bit
      obtain ⟨s, hs, hchild⟩ := h.exists_child bit
      apply Child.readBack_standsFor
      intro node hnode
      have hs_ne : s ≠ .nil := by
        rintro rfl
        rw [hchild] at hnode
        cases hnode
      rw [hchild, toChild_eq hs_ne] at hnode
      obtain ⟨hsame, -, -⟩ := Child.inMemory.inj hnode
      rw [← hsame]
      exact hs.readBack_label.1
    rw [Node.readBack, hlabel]
    exact ⟨rfl, rfl, rfl, rfl, hside false, hside true⟩
  · cases hread

/-- So is a message of the older layout if the length of the path fits 16 bits. -/
theorem Readable.readsAs_orchid {read : Node} (h : tree.Readable store)
    (hlt : tree.toNode.path.length < 2 ^ 16)
    (hread : Node.ofMessage store tree.toNode.orchidMessage = .ok read) :
    tree.toNode.ReadsAs .orchid read := by
  rw [Node.ofMessage_orchidMessage store h.regular.1.inline hlt] at hread
  cases hread
  obtain ⟨-, hlabel⟩ := h.readBack_label
  rw [Node.orchidReadBack, hlabel]
  exact ⟨rfl, rfl, rfl, rfl, Child.ofLink_standsFor tree.toNode.left,
    Child.ofLink_standsFor tree.toNode.right⟩

end Tree

namespace Entries

/-- The message of a node that a builder makes, or of one in memory below it, is never read as another
node, except in the older layout where the path takes more than 16 bits to count. Keys are of a length that
a machine word counts in bits, and the store has the long values of the trie. -/
theorem readsAs_iff (entries : Entries) (store : ValueStore)
    (hkeys : ∀ key v, entries.value? key = some v → 8 * key.length < 2 ^ 64)
    (hstored : ∀ key v, entries.value? key = some v → maxInlineValue < v.length →
      store (keccak v) = some v)
    {node : Node} (hnode : node ∈ entries.builder.build.nodes) (layout : Layout) :
    (∀ read, Node.ofMessage store (node.messageIn layout) = .ok read → node.ReadsAs layout read) ↔
      (layout = .orchid → node.path.length < 2 ^ 16) := by
  have htree : entries.builder.tree.Readable store := by
    constructor
    · exact entries.reduced_tree
    · exact within_tree fun key v hkey => Nat.le_sub_one_of_lt (hkeys key v hkey)
    · intro bits v hbits
      obtain ⟨key, rfl, hkey⟩ := exists_key_of_lookup hbits
      exact hstored key v hkey
  obtain ⟨s, hs, rfl⟩ := htree.exists_of_mem_nodes hnode
  constructor
  · -- The reader always finds some node, whose path has a length of 16 bits.
    rintro hreads rfl
    obtain ⟨read, hread, hlength⟩ := Node.exists_ofMessage_orchidMessage store s.toNode
    rw [(hreads read hread).path] at hlength
    have hlt := Nat.mod_lt s.toNode.path.length (Nat.two_pow_pos 16)
    rwa [← hlength] at hlt
  · intro hfits read hread
    cases layout with
    | orchid => exact hs.readsAs_orchid (hfits rfl) hread
    | rskip107 => exact hs.readsAs_rskip107 hread

/-- The root of the sample is read as itself from its message in the older layout. -/
theorem readsAs_iff_sample :
    ∃ read, Node.ofMessage (fun _ => some (List.replicate 40 7))
        (sample.builder.build.messageIn .orchid) = .ok read ∧
      sample.builder.build.ReadsAs .orchid read := by
  have hstored : ∀ key v, sample.value? key = some v → maxInlineValue < v.length →
      some (List.replicate 40 7) = some v := by
    intro key v hkey hlong
    have hmem : v = [1] ∨ v = List.replicate 40 7 := by
      have hmem := mem_of_value? hkey
      rw [sample, List.mem_pair, Prod.mk.injEq, Prod.mk.injEq] at hmem
      exact hmem.imp And.right And.right
    rcases hmem with rfl | rfl
    · exact absurd hlong (by decide)
    · rfl
  obtain ⟨read, hread, -⟩ := Node.exists_ofMessage_orchidMessage
    (fun _ => some (List.replicate 40 7)) sample.builder.build
  have hreads := readsAs_iff sample (fun _ => some (List.replicate 40 7))
    (forall_value? (by decide)) hstored (Node.mem_nodes _) .orchid
  exact ⟨read, hread, hreads.mpr (fun _ => by decide +kernel) read hread⟩

/-- One key of so many bits that 16 bits of their number are zero. -/
def overlong : Entries :=
  [(List.replicate 8192 0, [1])]

theorem length_path_overlong : overlong.builder.build.path.length = 2 ^ 16 := by
  have hbuild (key : Bytes) : (builder [(key, [1])]).build = .leaf (BitPath.ofBytes key) [1] := rfl
  have hbits : 8 * 8192 = 2 ^ 16 := rfl
  rw [overlong, hbuild, Node.leaf, Node.path_ofParts, BitPath.length_ofBytes, List.length_replicate,
    hbits]

/-- Its only node is read as one with an empty path. -/
theorem exists_read_overlong :
    ∃ read, Node.ofMessage .none (overlong.builder.build.messageIn .orchid) = .ok read ∧
      read.path = [] ∧ ¬ overlong.builder.build.ReadsAs .orchid read := by
  obtain ⟨read, hread, hlength⟩ :=
    Node.exists_ofMessage_orchidMessage .none overlong.builder.build
  rw [length_path_overlong] at hlength
  refine ⟨read, hread, List.length_eq_zero_iff.mp hlength, fun hreads => ?_⟩
  rw [hreads.path, length_path_overlong] at hlength
  cases hlength

end Entries

end BlockAudit.Trie
