import BlockAudit.Proofs.Proof.Walk
import BlockAudit.Proofs.Trie.TreeNode

/-!
Walks over nodes that are read from the messages of a tree, in whatever layout these are written. A
walk that ends says what the tree has for the key, and it ends where all messages on its way are known.
-/
namespace BlockAudit.Proof

open Trie

/-- How the messages of trees in some layout are read. -/
structure Reading where
  layout : Layout
  /-- The node that is read from the message of a tree. -/
  node : Tree → Node
  /-- What stands for a tree in the node above it. -/
  child : Tree → Child
  /-- What is said about a key with the given value. -/
  answer : Option Bytes → Lookup
  node_nil : node .nil = {}
  child_nil : child .nil = .absent
  path_node : ∀ path value left right, (node (.node path value left right)).path = path
  child_node : ∀ path value left right bit,
    (node (.node path value left right)).child bit = child (if bit then right else left)
  label_node : ∀ path left right {value : Option Bytes}, (∀ v ∈ value, v ≠ []) →
    Lookup.ofLabel (node (.node path value left right)).toLabel = answer value
  answer_none : answer none = .notFound
  /-- A tree stands in the node above it as a whole, or by the hash of its message. -/
  child_cases : ∀ {tree : Tree}, tree.Reduced → tree ≠ .nil →
    child tree = (node tree).toChild ∨
      child tree = .hashed (keccak (tree.toNode.messageIn layout))

/-- A key that is stored, or as long as any stored key, is nowhere too short. -/
theorem length_path_le_of_key {path key : BitPath} {value : Option Bytes} {left right : Tree}
    (hred : (Trie.Tree.node path value left right).Reduced)
    (hkey : (Trie.Tree.node path value left right).lookup key = none →
      (Trie.Tree.node path value left right).Within key.length) :
    path.length ≤ key.length := by
  by_cases hnone : (Trie.Tree.node path value left right).lookup key = none
  · exact Tree.length_path_le_of_within (hkey hnone) hred
  · obtain ⟨v, hv⟩ := Option.ne_none_iff_exists'.mp hnone
    exact (Tree.prefix_of_lookup hv).length_le

/-- The message of the empty trie is that of a node without anything. -/
theorem ofMessage_empty (messages : Hash → Option Bytes) :
    Node.ofMessage messages [0x80] = .ok {} := by
  rw [Node.ofMessage, if_neg (by decide), Rskip107.decode]
  rfl

/-- Without collisions, nothing else is found under the hash of a string. -/
theorem eq_of_store {blobs known : List Bytes} {m w : Bytes} (hfree : CollisionFree known)
    (hblobs : messages blobs ⊆ known) (hm : m ∈ known) (hw : store blobs (keccak m) = some w) :
    w = m := by
  obtain ⟨hmem, hhash⟩ := Index.mem_of_get? hw
  exact hfree w (hblobs hmem) m hm hhash

namespace Reading

variable (r : Reading) {messages : Hash → Option Bytes} {path key rest : BitPath}
  {value : Option Bytes} {left right tree : Tree} {a : Lookup} {next : Node}

section Step

theorem walk_node_nil : walk messages (r.node .nil) key = .ok .notFound := by
  rw [r.node_nil]
  cases key with
  | nil => exact walk_path
  | cons bit rest =>
    rw [show walk messages {} (bit :: rest) = _ from walk_append_cons bit rest]
    cases bit <;> rfl

theorem walk_node_of_left (hlen : path.length ≤ key.length) (hp : ¬ path <+: key) :
    walk messages (r.node (.node path value left right)) key = .ok .notFound := by
  have hpath := r.path_node path value left right
  exact walk_of_left (by rwa [hpath]) (by rwa [hpath])

theorem walk_node_path (hv : ∀ v ∈ value, v ≠ []) :
    walk messages (r.node (.node path value left right)) path = .ok (r.answer value) := by
  have hwalk : walk messages (r.node (.node path value left right)) _ = _ := walk_path
  rwa [r.path_node, r.label_node path left right hv] at hwalk

theorem walk_node_append_cons (bit : Bool) :
    walk messages (r.node (.node path value left right)) (path ++ bit :: rest) =
      descend messages (r.child (if bit then right else left)) rest := by
  have hwalk : walk messages (r.node (.node path value left right)) _ = _ :=
    walk_append_cons bit rest
  rwa [r.path_node, r.child_node] at hwalk

end Step

/-- From a node of the tree, a walk that ends says what the tree has for the key, if nothing else is
read under the hashes of the nodes on its way. -/
theorem sound (hred : tree.Reduced)
    (henter : ∀ s ∈ tree.visited key, ∀ next, Enters messages (r.child s) next → next = r.node s)
    (h : walk messages (r.node tree) key = .ok a) : a = r.answer (tree.lookup key) := by
  induction tree generalizing key with
  | nil =>
    rw [r.walk_node_nil] at h
    cases h
    exact r.answer_none.symm
  | node path value left right ihl ihr =>
    have hpath := r.path_node path value left right
    have hchild := Tree.reduced_child hred
    obtain ⟨-, hvalue, hl, hr⟩ := hred
    rcases key_cases path key with hshort | ⟨hlong, hp⟩ | rfl | ⟨bit, rest, rfl⟩
    · rw [walk_of_short (by rwa [hpath])] at h
      cases h
    · rw [r.walk_node_of_left hlong hp] at h
      cases h
      rw [Tree.lookup_eq_none hp, r.answer_none]
    · rw [r.walk_node_path fun v hv => (hvalue v hv).1] at h
      cases h
      rw [Tree.lookup_path]
    · rw [r.walk_node_append_cons] at h
      rw [Tree.lookup_append_cons]
      rw [Tree.visited_append_cons] at henter
      by_cases hnil : (if bit then right else left) = .nil
      · rw [hnil, r.child_nil] at h
        cases h
        rw [hnil, Tree.lookup_nil, r.answer_none]
      · have hbelow := fun s hs => henter s (List.mem_cons_of_mem _ hs)
        rcases descend_eq_ok_iff.mp h with ⟨habsent, -⟩ | ⟨next, hnext, hwalk⟩
        · rcases r.child_cases (hchild bit) hnil with hc | hc <;> rw [hc] at habsent <;>
            cases habsent
        · rw [hbelow _ (Tree.mem_visited hnil) next hnext] at hwalk
          cases bit
          · exact ihl hl hbelow hwalk
          · exact ihr hr hbelow hwalk

/-- A walk over nodes that can all be entered ends, if the key is stored or as long as any. -/
theorem complete (hred : tree.Reduced) (hkey : tree.lookup key = none → tree.Within key.length)
    (henter : ∀ s ∈ tree.visited key, Enters messages (r.child s) (r.node s)) :
    walk messages (r.node tree) key = .ok (r.answer (tree.lookup key)) := by
  induction tree generalizing key with
  | nil => rw [r.walk_node_nil, Tree.lookup_nil, r.answer_none]
  | node path value left right ihl ihr =>
    have hlong := length_path_le_of_key hred hkey
    obtain ⟨-, hvalue, hl, hr⟩ := hred
    rcases key_cases path key with hshort | ⟨-, hp⟩ | rfl | ⟨bit, rest, rfl⟩
    · omega
    · rw [r.walk_node_of_left hlong hp, Tree.lookup_eq_none hp, r.answer_none]
    · rw [r.walk_node_path fun v hv => (hvalue v hv).1, Tree.lookup_path]
    · rw [r.walk_node_append_cons, Tree.lookup_append_cons]
      rw [Tree.visited_append_cons] at henter
      have hbelow := fun s hs => henter s (List.mem_cons_of_mem _ hs)
      have hrest : (if bit then right else left).lookup rest = none →
          (if bit then right else left).Within rest.length := by
        intro hnone
        have hall := hkey (by rwa [Tree.lookup_append_cons])
        have := Tree.within_child hall bit
        rwa [List.length_append, List.length_cons, Nat.add_sub_cancel_left,
          Nat.add_sub_cancel] at this
      by_cases hnil : (if bit then right else left) = .nil
      · rw [hnil, r.child_nil, Tree.lookup_nil, r.answer_none]
        rfl
      · refine descend_eq_ok_iff.mpr (.inr ⟨_, hbelow _ (Tree.mem_visited hnil), ?_⟩)
        cases bit
        · exact ihl hl hrest hbelow
        · exact ihr hr hrest hbelow

section Verify

variable {blobs known : List Bytes} {key : Bytes}

/-- What is entered under the hash of a root is the root. -/
theorem eq_node_of_root (hred : tree.Reduced) (hfree : CollisionFree known)
    (hblobs : Proof.messages blobs ⊆ known) (htree : tree.hashed r.layout ⊆ known)
    (hempty : [0x80] ∈ known)
    (hread : tree ≠ .nil → ∀ next,
      Node.ofMessage (store blobs) (tree.toNode.messageIn r.layout) = .ok next → next = r.node tree)
    (h : Enters (store blobs) (.hashed (tree.toNode.hashIn r.layout)) next) : next = r.node tree := by
  cases h with
  | hashed hfound hnext =>
    by_cases hne : tree = .nil
    · subst hne
      rw [Tree.hashIn_nil] at hfound
      rw [eq_of_store hfree hblobs hempty hfound, ofMessage_empty] at hnext
      cases hnext
      exact r.node_nil.symm
    · rw [Tree.hashIn_toNode r.layout hred hne] at hfound
      have hmessage := htree (Tree.messageIn_mem_hashed r.layout hne)
      rw [eq_of_store hfree hblobs hmessage hfound] at hnext
      exact hread hne _ hnext

/-- An accepted proof says what the tree has for the key. -/
theorem eq_answer_of_verify (hred : tree.Reduced) (hfree : CollisionFree known)
    (hblobs : Proof.messages blobs ⊆ known) (htree : tree.hashed r.layout ⊆ known)
    (hempty : [0x80] ∈ known)
    (hread : ∀ s ∈ tree.visited (BitPath.ofBytes key), ∀ next,
      Node.ofMessage (store blobs) (s.toNode.messageIn r.layout) = .ok next → next = r.node s)
    (h : verify (tree.toNode.hashIn r.layout) key blobs = .ok a) :
    a = r.answer (tree.lookup (BitPath.ofBytes key)) := by
  obtain ⟨-, hdescend⟩ := verify_eq_ok_iff.mp h
  rcases descend_eq_ok_iff.mp hdescend with ⟨habsent, -⟩ | ⟨next, hnext, hwalk⟩
  · cases habsent
  rw [r.eq_node_of_root hred hfree hblobs htree hempty
    (fun hne => hread tree (Tree.mem_visited hne)) hnext] at hwalk
  refine r.sound hred (fun s hs next hnext => ?_) hwalk
  have hmessage := htree (List.mem_append_left _ (Tree.messageIn_mem_of_visited r.layout hs))
  rcases r.child_cases (Tree.reduced_of_mem_visited hred hs) (Tree.ne_nil_of_mem_visited hs)
    with hchild | hchild
  · rw [hchild] at hnext
    cases hnext
    rfl
  · rw [hchild] at hnext
    cases hnext with
    | hashed hfound hnext =>
      rw [eq_of_store hfree hblobs hmessage hfound] at hnext
      exact hread s hs _ hnext

/-- A proof with the messages that are needed says what the tree has for the key. -/
theorem verify_eq_answer (hred : tree.Reduced) (hne : tree ≠ .nil) (hwrapped : WellWrapped blobs)
    (hkey : tree.lookup (BitPath.ofBytes key) = none →
      tree.Within (BitPath.ofBytes key).length)
    (hread : ∀ s ∈ tree.visited (BitPath.ofBytes key),
      Node.ofMessage (store blobs) (s.toNode.messageIn r.layout) = .ok (r.node s))
    (hroot : store blobs (keccak (tree.toNode.messageIn r.layout)) =
      some (tree.toNode.messageIn r.layout))
    (hfound : ∀ s ∈ tree.visited (BitPath.ofBytes key), r.child s = (r.node s).toChild ∨
      store blobs (keccak (s.toNode.messageIn r.layout)) = some (s.toNode.messageIn r.layout)) :
    verify (tree.toNode.hashIn r.layout) key blobs =
      .ok (r.answer (tree.lookup (BitPath.ofBytes key))) := by
  have hnext := hread tree (Tree.mem_visited hne)
  rw [verify_eq_ok_iff, Tree.hashIn_toNode r.layout hred hne]
  refine ⟨hwrapped, descend_eq_ok_iff.mpr (.inr ⟨_, .hashed hroot hnext, ?_⟩)⟩
  refine r.complete hred hkey fun s hs => ?_
  rcases r.child_cases (Tree.reduced_of_mem_visited hred hs) (Tree.ne_nil_of_mem_visited hs)
    with hchild | hchild
  · rw [hchild]
    exact .inMemory _ _ _
  · rcases hfound s hs with hinline | hmessage
    · rw [hinline]
      exact .inMemory _ _ _
    · rw [hchild]
      exact .hashed hmessage (hread s hs)

end Verify

end Reading

end BlockAudit.Proof
