import BlockAudit.Proofs.Proof.Completeness

/-!
Keys that part from a path. A key with a bit that differs from the path it meets is absent, and a proof
shows it as long as the key does not end before the path.
-/
namespace BlockAudit.Trie.Tree

/-- The way of a key ends at a node with this path, when `rest` is left of the key, and at some bit
that both have they differ. -/
inductive Diverges : Tree → BitPath → BitPath → BitPath → Prop where
  | parted {front p k : BitPath} {bit b : Bool} {value : Option Bytes} {left right : Tree}
      (hne : bit ≠ b) :
      Diverges (.node (front ++ bit :: p) value left right) (front ++ b :: k) (front ++ b :: k)
        (front ++ bit :: p)
  | child {path key rest last : BitPath} {bit : Bool} {value : Option Bytes} {left right : Tree}
      (h : Diverges (if bit then right else left) key rest last) :
      Diverges (.node path value left right) (path ++ bit :: key) rest last

variable {tree : Tree} {key rest path : BitPath}

private theorem not_prefix_of_ne {front p k : BitPath} {bit b : Bool} (h : bit ≠ b) :
    ¬ front ++ bit :: p <+: front ++ b :: k := by
  rw [List.prefix_append_right_inj, List.cons_prefix_cons]
  exact fun hp => h hp.1

theorem Diverges.ne_nil (h : tree.Diverges key rest path) : tree ≠ .nil := by
  cases h <;> simp

theorem Diverges.lookup_eq_none (h : tree.Diverges key rest path) : tree.lookup key = none := by
  induction h with
  | parted hne => exact Tree.lookup_eq_none (not_prefix_of_ne hne)
  | child h ih => rwa [lookup_append_cons]

theorem visited_of_not_prefix {value : Option Bytes} {left right : Tree} (h : ¬ path <+: key) :
    (node path value left right).visited key = [.node path value left right] := by
  rw [visited, if_neg (by simpa using h)]

/-- A small leaf has a path short enough to be announced. -/
theorem length_path_le_of_isInline (hne : tree ≠ .nil) (h : tree.toChild.isInline) :
    tree.toNode.path.length ≤ SharedPath.maxLength := by
  rw [toChild_eq hne] at h
  obtain ⟨-, hmessage⟩ := Child.isInline_inMemory.mp h
  have hpath := tree.toNode.length_path_le
  have hmax : SharedPath.maxLength = 524280 ∧ maxInlineMessage = 44 := ⟨rfl, rfl⟩
  have hsmall : tree.toNode.message.length ≤ maxInlineMessage := hmessage
  omega

end BlockAudit.Trie.Tree

namespace BlockAudit.Proof

open Trie

/-- A walk from a node of a tree, if its path is short enough to be announced in a message. -/
def enter (messages : Hash → Option Bytes) (tree : Tree) (key : BitPath) :
    Except ProofError Lookup :=
  if tree.toNode.path.length ≤ SharedPath.maxLength then
    walk messages (tree.toNode.readBack messages) key
  else .error (.malformedNode (.pathTooLong (.ofNat tree.toNode.path.length)))

/-- What is found out where a key parts from a path: that it is absent, unless a path on the way is
too long to be announced, or the key ends before the path does. -/
def divergence (visited : List Tree) (rest path : BitPath) : Except ProofError Lookup :=
  match visited.find? fun s => SharedPath.maxLength < s.toNode.path.length with
  | some s => .error (.malformedNode (.pathTooLong (.ofNat s.toNode.path.length)))
  | none =>
    if path.length ≤ rest.length then .ok .notFound
    else .error (.keyTooShort rest.length path.length)

section Walk

variable {messages : Hash → Option Bytes} {tree : Tree} {key rest path : BitPath} {bound : Nat}

theorem divergence_cons (visited : List Tree) :
    divergence (tree :: visited) rest path =
      if tree.toNode.path.length ≤ SharedPath.maxLength then divergence visited rest path
      else .error (.malformedNode (.pathTooLong (.ofNat tree.toNode.path.length))) := by
  unfold divergence
  by_cases hlen : tree.toNode.path.length ≤ SharedPath.maxLength
  · rw [if_pos hlen, List.find?_cons_of_neg (by simpa using hlen)]
  · rw [if_neg hlen, List.find?_cons_of_pos (by simpa using hlen)]

theorem descend_hashed_toNode (hred : tree.Reduced) (hne : tree ≠ .nil)
    (hwithin : tree.Within bound) (hlt : bound < 2 ^ 64)
    (hfound : messages (keccak tree.toNode.message) = some tree.toNode.message) :
    descend messages (.hashed (keccak tree.toNode.message)) key = enter messages tree key := by
  rw [descend, resolve_of_some hfound, ofMessage_toNode hred hne hwithin hlt]
  unfold enter
  by_cases hlen : tree.toNode.path.length ≤ SharedPath.maxLength
  · rw [if_pos hlen, if_pos hlen]
    rfl
  · rw [if_neg hlen, if_neg hlen]
    rfl

theorem descend_toChild_eq_enter (hred : tree.Reduced) (hne : tree ≠ .nil)
    (hwithin : tree.Within bound) (hlt : bound < 2 ^ 64)
    (hfound : ¬ tree.toChild.isInline →
      messages (keccak tree.toNode.message) = some tree.toNode.message) :
    descend messages (tree.toChild.readBack messages) key = enter messages tree key := by
  rw [Tree.readBack_toChild messages hred hne]
  split
  · rename_i hinline
    rw [enter, if_pos (Tree.length_path_le_of_isInline hne hinline)]
    rfl
  · rename_i hinline
    exact descend_hashed_toNode hred hne hwithin hlt (hfound hinline)

/-- A walk over nodes whose messages are all there, where the key parts from a path. -/
theorem enter_of_diverges (h : tree.Diverges key rest path) (hred : tree.Reduced)
    (hwithin : tree.Within bound) (hlt : bound < 2 ^ 64)
    (hvisited : ∀ s ∈ tree.visited key, ¬ s.toChild.isInline →
      messages (keccak s.toNode.message) = some s.toNode.message) :
    enter messages tree key = divergence (tree.visited key) rest path := by
  induction h generalizing bound with
  | @parted front p k bit b value left right hne =>
    have hp : ¬ front ++ bit :: p <+: front ++ b :: k := Tree.not_prefix_of_ne hne
    have hpath : ((Trie.Tree.node (front ++ bit :: p) value left right).toNode.readBack
        messages).path = front ++ bit :: p := path_readBack_toNode messages left right
    have hwalk : walk messages
        ((Trie.Tree.node (front ++ bit :: p) value left right).toNode.readBack messages)
          (front ++ b :: k) = divergence [] (front ++ b :: k) (front ++ bit :: p) := by
      unfold divergence
      rw [List.find?_nil]
      dsimp only
      split
      · exact walk_of_left (by rwa [hpath]) (by rwa [hpath])
      · rw [walk_of_short (by rw [hpath]; omega), hpath]
    rw [Tree.visited_of_not_prefix hp, divergence_cons, enter, hwalk]
  | @child path key rest last bit value left right h ih =>
    have hchild := Tree.reduced_child hred bit
    have hless := Tree.within_child hwithin bit
    rw [Tree.visited_append_cons] at hvisited ⊢
    have hbelow : ∀ s ∈ (if bit then right else left).visited key, ¬ s.toChild.isInline →
        messages (keccak s.toNode.message) = some s.toNode.message :=
      fun s hs => hvisited s (List.mem_cons_of_mem _ hs)
    have hmem : (if bit then right else left) ∈ (if bit then right else left).visited key :=
      Tree.mem_visited h.ne_nil
    rw [divergence_cons, enter, walk_toNode_append_cons,
      descend_toChild_eq_enter hchild h.ne_nil hless (by omega) (hbelow _ hmem),
      ih hchild hless (by omega) hbelow]

end Walk

/-- The wrapped messages of the nodes that a key meets, from the root downwards. -/
def honestProof (tree : Tree) (key : Bytes) : List Bytes :=
  (tree.visited (BitPath.ofBytes key)).map fun s => Rlp.encodeBytes s.toNode.message

theorem mem_honestProof {tree s : Tree} {key : Bytes} (h : s ∈ tree.visited (BitPath.ofBytes key)) :
    Rlp.encodeBytes s.toNode.message ∈ honestProof tree key :=
  List.mem_map_of_mem h

theorem wellWrapped_honestProof {tree : Tree} {key : Bytes} (hred : tree.Reduced)
    (hwithin : tree.Within (2 ^ 64 - 1)) : WellWrapped (honestProof tree key) := by
  intro blob hblob
  obtain ⟨s, hs, rfl⟩ := List.mem_map.mp hblob
  obtain ⟨hs_ne, hs_red, hs_within⟩ := Tree.of_mem_visited hred hwithin hs
  have hlength := Tree.length_message_le hs_red hs_ne hs_within
  exact ⟨_, unwrap_encodeBytes (by omega)⟩

theorem messages_honestProof {tree : Tree} {key : Bytes} (hred : tree.Reduced)
    (hwithin : tree.Within (2 ^ 64 - 1)) :
    messages (honestProof tree key) =
      (tree.visited (BitPath.ofBytes key)).map fun s => s.toNode.message := by
  rw [messages, honestProof, List.filterMap_map, ← List.filterMap_eq_map]
  refine List.filterMap_congr fun s hs => ?_
  obtain ⟨hs_ne, hs_red, hs_within⟩ := Tree.of_mem_visited hred hwithin hs
  have hlength := Tree.length_message_le hs_red hs_ne hs_within
  rw [Function.comp_apply, unwrap_encodeBytes (by omega)]
  rfl

/-- What a proof says of a key that parts from a path, if the messages on its way are all there. -/
theorem verify_eq_divergence {entries : Entries} {key : Bytes} {rest path : BitPath}
    {blobs : List Bytes} (hkeys : ∀ k v, entries.value? k = some v → 8 * k.length < 2 ^ 64)
    (h : entries.builder.tree.Diverges (BitPath.ofBytes key) rest path)
    (hwrapped : WellWrapped blobs) (hroot : Rlp.encodeBytes entries.builder.build.message ∈ blobs)
    (hvisited : ∀ s ∈ entries.builder.tree.visited (BitPath.ofBytes key), ¬ s.toChild.isInline →
      Rlp.encodeBytes s.toNode.message ∈ blobs)
    (hfree : CollisionFree (messages blobs)) :
    verify (entries.builder.rootHash .rskip107) key blobs =
      divergence (entries.builder.tree.visited (BitPath.ofBytes key)) rest path := by
  have hred := entries.reduced_tree
  have hne := h.ne_nil
  have hwithin : entries.builder.tree.Within (2 ^ 64 - 1) :=
    Entries.within_tree fun k v hk => Nat.le_pred_of_lt (hkeys k v hk)
  have hhash : entries.builder.rootHash .rskip107 = keccak entries.builder.tree.toNode.message :=
    Tree.hashIn_toNode .rskip107 hred hne
  have hfound : ∀ s : Tree, s ≠ .nil → s.Reduced → s.Within (2 ^ 64 - 1) →
      Rlp.encodeBytes s.toNode.message ∈ blobs →
      store blobs (keccak s.toNode.message) = some s.toNode.message := by
    intro s hne hred hwithin hmem
    have hlength := Tree.length_message_le hred hne hwithin
    exact store_of_wrapped hfree (List.Subset.refl _) (by omega) hmem
  have hroot := hfound _ hne hred hwithin hroot
  rw [verify_of_wellWrapped hwrapped, hhash, lookup_of_some hroot,
    descend_hashed_toNode hred hne hwithin (by omega) hroot]
  refine enter_of_diverges h hred hwithin (by omega) fun s hs hinline => ?_
  obtain ⟨hs_ne, hs_red, hs_within⟩ := Tree.of_mem_visited hred hwithin hs
  exact hfound s hs_ne hs_red hs_within (hvisited s hs hinline)

/-- A key that parts from a path is absent. A proof that has the messages of the root and of the nodes
on its way says so, if the key has at least as many bits left as the path and no path on the way is too
long to be announced. Keys are of a size that a memory can hold. -/
theorem verify_of_diverges (entries : Entries)
    (hkeys : ∀ k v, entries.value? k = some v → 8 * k.length < 2 ^ 64) (key : Bytes)
    (rest path : BitPath) (h : entries.builder.tree.Diverges (BitPath.ofBytes key) rest path)
    (blobs : List Bytes) (hwrapped : WellWrapped blobs)
    (hroot : Rlp.encodeBytes entries.builder.build.message ∈ blobs)
    (hvisited : ∀ s ∈ entries.builder.tree.visited (BitPath.ofBytes key), ¬ s.toChild.isInline →
      Rlp.encodeBytes s.toNode.message ∈ blobs)
    (hfree : CollisionFree (messages blobs)) :
    entries.value? key = none ∧
      verify (entries.builder.rootHash .rskip107) key blobs =
        divergence (entries.builder.tree.visited (BitPath.ofBytes key)) rest path := by
  constructor
  · rw [← entries.lookup_tree]
    exact h.lookup_eq_none
  · exact verify_eq_divergence hkeys h hwrapped hroot hvisited hfree

/-- The second path of the sample is all zeros. A key parts from it at its second bit. -/
private theorem diverges_sample {key : Bytes} {k : BitPath}
    (h : BitPath.ofBytes key = true :: true :: k) :
    Entries.sample.builder.tree.Diverges (BitPath.ofBytes key) (true :: k)
      (List.replicate 95 false) := by
  have htree : Entries.sample.builder.tree =
      .node [] none (.leaf (List.replicate 7 false) [1])
        (.leaf (List.replicate 95 false) (List.replicate 40 7)) := by
    decide +kernel
  have hleaf : (Tree.leaf (List.replicate 95 false) (List.replicate 40 7)).Diverges (true :: k)
      (true :: k) (List.replicate 95 false) :=
    @Tree.Diverges.parted [] (List.replicate 94 false) k false true _ _ _ Bool.false_ne_true
  rw [htree, h]
  exact @Tree.Diverges.child [] _ _ _ true _ _ _ hleaf

theorem verify_of_diverges_sample :
    verify (Entries.sample.builder.rootHash .rskip107) (0xc0 :: List.replicate 11 0)
      (honestProof Entries.sample.builder.tree (0xc0 :: List.replicate 11 0)) = .ok .notFound := by
  have hdiverges : Entries.sample.builder.tree.Diverges
      (BitPath.ofBytes (0xc0 :: List.replicate 11 0)) (true :: List.replicate 94 false)
      (List.replicate 95 false) := diverges_sample (by decide)
  have hanswer := verify_of_diverges Entries.sample (Entries.forall_value? (by decide)) _ _ _
    hdiverges (honestProof Entries.sample.builder.tree (0xc0 :: List.replicate 11 0))
    (by decide +kernel) (by decide +kernel) (by decide +kernel) (by decide +kernel)
  exact hanswer.2.trans (by decide +kernel)

/-- Where a single entry has a path too long to be announced, no proof can be read. -/
private theorem verify_single {ks k : Bytes} (hlong : 65535 ≤ ks.length)
    (hlt : 8 * (ks.length + 1) < 2 ^ 64) :
    (Entries.builder [(0 :: ks, [1])]).tree.Diverges (BitPath.ofBytes (0xff :: k))
        (BitPath.ofBytes (0xff :: k)) (BitPath.ofBytes (0 :: ks)) ∧
      verify ((Entries.builder [(0 :: ks, [1])]).rootHash .rskip107) (0xff :: k)
          (honestProof (Entries.builder [(0 :: ks, [1])]).tree (0xff :: k)) =
        .error (.malformedNode (.pathTooLong (.ofNat (8 * (ks.length + 1))))) := by
  let entries : Entries := [(0 :: ks, [1])]
  have hdiverges : entries.builder.tree.Diverges (BitPath.ofBytes (0xff :: k))
      (BitPath.ofBytes (0xff :: k)) (BitPath.ofBytes (0 :: ks)) :=
    @Tree.Diverges.parted [] (List.replicate 7 false ++ BitPath.ofBytes ks)
      (List.replicate 7 true ++ BitPath.ofBytes k) false true _ _ _ Bool.false_ne_true
  have hvisited : entries.builder.tree.visited (BitPath.ofBytes (0xff :: k)) =
      [.leaf (BitPath.ofBytes (0 :: ks)) [1]] :=
    Tree.visited_of_not_prefix (@Tree.not_prefix_of_ne [] _ _ _ _ Bool.false_ne_true)
  have hkeys : ∀ k v, entries.value? k = some v → 8 * k.length < 2 ^ 64 :=
    Entries.forall_value? (by simpa [entries] using hlt)
  have hwithin : entries.builder.tree.Within (2 ^ 64 - 1) :=
    Entries.within_tree fun k v hk => Nat.le_pred_of_lt (hkeys k v hk)
  have hfree : CollisionFree (messages (honestProof entries.builder.tree (0xff :: k))) := by
    rw [messages_honestProof entries.reduced_tree hwithin, hvisited]
    simp [CollisionFree]
  refine ⟨hdiverges, ?_⟩
  rw [verify_eq_divergence hkeys hdiverges (wellWrapped_honestProof entries.reduced_tree hwithin)
    (mem_honestProof (Tree.mem_visited hdiverges.ne_nil)) (fun s hs _ => mem_honestProof hs) hfree,
    hvisited, divergence_cons]
  have hpath : (Tree.leaf (BitPath.ofBytes (0 :: ks)) [1]).toNode.path = BitPath.ofBytes (0 :: ks) :=
    Node.path_ofParts ..
  have hmax : SharedPath.maxLength = 524280 := rfl
  rw [hpath, BitPath.length_ofBytes, List.length_cons, if_neg (by omega)]

/-- Both conditions are needed: a key of one byte ends before a path of 95 bits that it parts from, and
nothing is said of a key where a path is too long to be announced. -/
theorem verify_of_diverges_error :
    (Entries.sample.builder.tree.Diverges (BitPath.ofBytes [0xc0])
          (true :: List.replicate 6 false) (List.replicate 95 false) ∧
        verify (Entries.sample.builder.rootHash .rskip107) [0xc0]
            (honestProof Entries.sample.builder.tree [0xc0]) = .error (.keyTooShort 7 95)) ∧
      (Entries.builder [(0 :: List.replicate 65535 0, [1])]).tree.Diverges
          (BitPath.ofBytes (0xff :: List.replicate 65535 0))
          (BitPath.ofBytes (0xff :: List.replicate 65535 0))
          (BitPath.ofBytes (0 :: List.replicate 65535 0)) ∧
        verify ((Entries.builder [(0 :: List.replicate 65535 0, [1])]).rootHash .rskip107)
            (0xff :: List.replicate 65535 0)
            (honestProof (Entries.builder [(0 :: List.replicate 65535 0, [1])]).tree
              (0xff :: List.replicate 65535 0)) =
          .error (.malformedNode (.pathTooLong 524288)) := by
  have hlength : (List.replicate 65535 (0 : UInt8)).length = 65535 := List.length_replicate
  obtain ⟨hdiverges, hverify⟩ :=
    @verify_single (List.replicate 65535 0) (List.replicate 65535 0) (by omega) (by omega)
  refine ⟨⟨diverges_sample (by decide), by decide +kernel⟩, hdiverges, ?_⟩
  rw [hverify, hlength]
  rfl

end BlockAudit.Proof
