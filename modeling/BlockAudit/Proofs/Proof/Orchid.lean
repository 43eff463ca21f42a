import BlockAudit.Proofs.Proof.Completeness
import BlockAudit.Proofs.Trie.OrchidReadBack

/-!
Proofs over messages of the older layout. Nothing but short values is written inside a node there, and of
a long value only the hash, so that an answer without the bytes of a value knows nothing of its length.
-/
namespace BlockAudit.Proof

open Trie

/-- An answer in which a value that is known by its hash has no length. -/
def Lookup.withoutLength : Lookup → Lookup
  | .foundHashed hash _ => .foundHashed hash 0
  | lookup => lookup

/-- Whether an answer is true of a key with the given value, but for the length it gives. -/
def Lookup.TrueUpToLength (value : Option Bytes) : Lookup → Prop
  | .found v => value = some v
  | .foundHashed hash _ => ∃ v, value = some v ∧ maxInlineValue < v.length ∧ keccak v = hash
  | .notFound => value = none

theorem Lookup.TrueOf.withoutLength {value : Option Bytes} {a : Lookup} (h : a.TrueOf value) :
    a.withoutLength.TrueUpToLength value := by
  cases a with
  | found v => exact h
  | foundHashed hash length =>
    obtain ⟨v, hv, hlong, hhash, -⟩ := h
    exact ⟨v, hv, hlong, hhash⟩
  | notFound => exact h

theorem ofLabel_orchidReadBack (messages : Hash → Option Bytes) (label : Label) :
    Lookup.ofLabel (label.orchidReadBack messages) =
      (Lookup.ofLabel (label.readBack messages)).withoutLength := by
  unfold Label.orchidReadBack Label.readBack Lookup.ofLabel
  dsimp only
  cases hv : label.valueHash with
  | none => cases label.value <;> rfl
  | some hash =>
    dsimp only
    cases messages hash <;> rfl

theorem ofLink_orchidHash? {tree : Tree} (hred : tree.Reduced) (hne : tree ≠ .nil) :
    Child.ofLink tree.toChild.orchidHash? =
      .hashed (keccak (tree.toNode.messageIn .orchid)) := by
  rw [← Tree.hashIn_toNode .orchid hred hne, Tree.toChild_eq hne]
  rfl

/-- How the messages of the older layout are read. -/
def Reading.orchid (messages : Hash → Option Bytes) : Reading where
  layout := .orchid
  node tree := tree.toNode.orchidReadBack messages
  child tree := .ofLink tree.toChild.orchidHash?
  answer value := (Lookup.ofValue messages value).withoutLength
  node_nil := rfl
  child_nil := rfl
  path_node path value left right := Node.path_ofParts path value left.toChild right.toChild
  child_node path value left right bit := by
    rw [Tree.toNode, Node.orchidReadBack, Node.left_ofParts, Node.right_ofParts]
    cases bit <;> rfl
  label_node path left right value hv := by
    rw [← ofLabel_readBack_toNode messages left right hv]
    exact ofLabel_orchidReadBack messages _
  answer_none := rfl
  child_cases hred hne := .inr (ofLink_orchidHash? hred hne)

section Honest

variable {entries : Entries} {key v : Bytes} {blobs known : List Bytes} {tree : Tree} {a : Lookup}

theorem ofMessage_orchid (messages : Hash → Option Bytes) (hred : tree.Reduced) (hne : tree ≠ .nil)
    (hwithin : tree.Within (8 * 8191)) :
    Node.ofMessage messages (tree.toNode.messageIn .orchid) =
      .ok (tree.toNode.orchidReadBack messages) := by
  have hlength := Tree.length_path_toNode_le hred hne hwithin
  exact Node.ofMessage_orchidMessage messages (Tree.regular_toNode hred hne).1.inline (by omega)

theorem length_messageIn_orchid_le {bound : Nat} (hred : tree.Reduced) (hne : tree ≠ .nil)
    (hwithin : tree.Within bound) :
    (tree.toNode.messageIn .orchid).length ≤ (bound + 7) / 8 + 102 := by
  have hpath := Tree.length_path_toNode_le hred hne hwithin
  have hlength := Node.length_orchidMessage_le (Tree.length_value_toNode_le hred)
  change tree.toNode.orchidMessage.length ≤ _
  omega

theorem eq_answer_of_verify_orchid
    (hkeys : ∀ k v, entries.value? k = some v → k.length ≤ 8191)
    (hfree : CollisionFree known) (hblobs : messages blobs ⊆ known)
    (htree : entries.builder.tree.hashed .orchid ⊆ known) (hempty : [0x80] ∈ known)
    (h : verify (entries.builder.rootHash .orchid) key blobs = .ok a) :
    a = (Lookup.ofValue (store blobs) (entries.value? key)).withoutLength := by
  have hred := entries.reduced_tree
  have hwithin : entries.builder.tree.Within (8 * 8191) :=
    Entries.within_tree_of_length_le hkeys
  rw [← entries.lookup_tree]
  refine (Reading.orchid (store blobs)).eq_answer_of_verify hred hfree hblobs htree hempty
    (fun s hs next hread => ?_) h
  obtain ⟨hs_ne, hs_red, hs_within⟩ := Tree.of_mem_visited hred hwithin hs
  change Node.ofMessage (store blobs) (s.toNode.messageIn .orchid) = .ok next at hread
  rw [ofMessage_orchid (store blobs) hs_red hs_ne hs_within] at hread
  exact (Except.ok.inj hread).symm

theorem verify_orchid_eq_found (hkeys : ∀ k v, entries.value? k = some v → k.length ≤ 8191)
    (hkey : entries.value? key = some v) (hwrapped : WellWrapped blobs)
    (hvisited : ∀ s ∈ entries.builder.tree.visited (BitPath.ofBytes key),
      Rlp.encodeBytes s.toNode.orchidMessage ∈ blobs)
    (hvalue : maxInlineValue < v.length → Rlp.encodeBytes v ∈ blobs)
    (hfree : CollisionFree known) (hblobs : messages blobs ⊆ known) :
    verify (entries.builder.rootHash .orchid) key blobs = .ok (.found v) := by
  have hred := entries.reduced_tree
  have hwithin : entries.builder.tree.Within (8 * 8191) :=
    Entries.within_tree_of_length_le hkeys
  have hlookup := (entries.lookup_tree key).trans hkey
  have hne := Entries.tree_ne_nil hkey
  have hstored : ∀ s ∈ entries.builder.tree.visited (BitPath.ofBytes key),
      store blobs (keccak (s.toNode.messageIn .orchid)) = some (s.toNode.messageIn .orchid) := by
    intro s hs
    obtain ⟨hs_ne, hs_red, hs_within⟩ := Tree.of_mem_visited hred hwithin hs
    have hlength := length_messageIn_orchid_le hs_red hs_ne hs_within
    exact store_of_wrapped hfree hblobs (by omega) (hvisited s hs)
  have hanswer : (Lookup.ofValue (store blobs) (some v)).withoutLength = .found v := by
    rw [Lookup.ofValue]
    split
    · rfl
    · rename_i hlong
      have hmax : Uint24.max = 2 ^ 24 - 1 := rfl
      have haccepted := (Entries.accepted_of_value? hkey).2
      rw [store_of_wrapped hfree hblobs (by omega) (hvalue (by omega))]
      rfl
  rw [← hanswer, ← hlookup]
  refine (Reading.orchid (store blobs)).verify_eq_answer hred hne hwrapped (fun hnone => ?_)
    (fun s hs => ?_) (hstored _ (Tree.mem_visited hne)) fun s hs => .inr (hstored s hs)
  · rw [hlookup] at hnone
    cases hnone
  · obtain ⟨hs_ne, hs_red, hs_within⟩ := Tree.of_mem_visited hred hwithin hs
    exact ofMessage_orchid (store blobs) hs_red hs_ne hs_within

end Honest

/-- In the older layout too an answer under the root of a trie is true of its entries, whoever made the
proof, and a stored value is found if the messages of all nodes on the way of its key are there, and its
own bytes if it is long. Messages have 16 bits for the length of a path. -/
theorem verify_orchid (entries : Entries)
    (hkeys : ∀ k v, entries.value? k = some v → k.length ≤ 8191) (key : Bytes)
    (blobs : List Bytes)
    (hfree : CollisionFree (entries.builder.tree.hashed .orchid ++ messages blobs ++ [[0x80]])) :
    (∀ answer, verify (entries.builder.rootHash .orchid) key blobs = .ok answer →
        answer.TrueUpToLength (entries.value? key)) ∧
      ∀ v, entries.value? key = some v → WellWrapped blobs →
        (∀ s ∈ entries.builder.tree.visited (BitPath.ofBytes key),
          Rlp.encodeBytes s.toNode.orchidMessage ∈ blobs) →
        (maxInlineValue < v.length → Rlp.encodeBytes v ∈ blobs) →
        verify (entries.builder.rootHash .orchid) key blobs = .ok (.found v) := by
  have hblobs : messages blobs ⊆
      entries.builder.tree.hashed .orchid ++ messages blobs ++ [[0x80]] := by simp
  have htree : entries.builder.tree.hashed .orchid ⊆
      entries.builder.tree.hashed .orchid ++ messages blobs ++ [[0x80]] := by simp
  constructor
  · intro answer h
    rw [eq_answer_of_verify_orchid hkeys hfree hblobs htree (by simp) h]
    refine (trueOf_ofValue (fun v hv => Entries.accepted_of_value? hv) ?_).withoutLength
    intro v hv w hw
    exact store_eq_value hfree hblobs htree hv hw
  · intro v hv hwrapped hvisited hvalue
    exact verify_orchid_eq_found hkeys hv hwrapped hvisited hvalue hfree hblobs

/-- All nodes of the sample in the older layout, without the long value. -/
def sampleOrchidProof : List Bytes :=
  (Entries.sample.builder.tree.messages .orchid).map Rlp.encodeBytes

theorem verify_orchid_long_value :
    (Lookup.foundHashed (keccak (List.replicate 40 7)) 0).TrueUpToLength
        (Entries.sample.value? (0x80 :: List.replicate 11 0)) ∧
      verify (Entries.sample.builder.rootHash .orchid) (0x80 :: List.replicate 11 0)
          (Rlp.encodeBytes (List.replicate 40 7) :: sampleOrchidProof) =
        .ok (.found (List.replicate 40 7)) := by
  obtain ⟨hsound, -⟩ := verify_orchid Entries.sample (Entries.forall_value? (by decide))
    (0x80 :: List.replicate 11 0) sampleOrchidProof (by decide +kernel)
  obtain ⟨-, hfound⟩ := verify_orchid Entries.sample (Entries.forall_value? (by decide))
    (0x80 :: List.replicate 11 0) (Rlp.encodeBytes (List.replicate 40 7) :: sampleOrchidProof)
    (by decide +kernel)
  exact ⟨hsound _ (by decide +kernel), hfound _ (by decide +kernel) (by decide +kernel)
    (by decide +kernel) (by decide +kernel)⟩

end BlockAudit.Proof
