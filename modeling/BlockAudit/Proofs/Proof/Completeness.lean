import BlockAudit.Proofs.Proof.Soundness

/-!
A proof that has the messages on the way of a key is accepted, and its answer agrees with the value
of the key and with no other.
-/
namespace BlockAudit.Trie.Tree

variable {tree s : Tree} {key : BitPath} {bound : Nat}

theorem length_message_le (hred : tree.Reduced) (hne : tree ≠ .nil) (hwithin : tree.Within bound) :
    tree.toNode.message.length ≤ (bound + 7) / 8 + 160 := by
  have hpath := length_path_toNode_le hred hne hwithin
  suffices h : tree.toNode.message.length ≤ (tree.toNode.path.length + 7) / 8 + 160 by omega
  exact Node.length_message_le (length_value_toNode_le hred)

end BlockAudit.Trie.Tree

namespace BlockAudit.Proof

open Trie

/-- The answer about a value agrees with that value and with no other. -/
theorem agrees_ofValue {stored : Hash → Option Bytes} {known : List Bytes}
    {value expected : Option Bytes} (hvalue : ∀ v ∈ value, Accepted v)
    (hstore : ∀ v ∈ value, ∀ w, stored (keccak v) = some w → w = v)
    (hfree : CollisionFree known) (hknown : ∀ v ∈ value, v ∈ known)
    (hexpected : ∀ v ∈ expected, v ∈ known) :
    (Lookup.ofValue stored value).agrees expected = decide (expected = value) := by
  cases value with
  | none => cases expected <;> rfl
  | some v =>
    have hfound : (Lookup.found v).agrees expected = decide (expected = some v) := by
      cases expected with
      | none => rfl
      | some b => simp [Lookup.agrees, Bool.beq_eq_decide_eq, eq_comm]
    rw [Lookup.ofValue]
    by_cases hshort : v.length ≤ maxInlineValue
    · rw [if_pos hshort, hfound]
    · rw [if_neg hshort]
      split
      · rename_i w hw
        rw [hstore v rfl w hw, hfound]
      · cases expected with
        | none => rfl
        | some b =>
          have hsame : b.length = v.length ∧ keccak b = keccak v ↔ b = v := by
            constructor
            · rintro ⟨-, hhash⟩
              exact hfree b (hexpected b rfl) v (hknown v rfl) hhash
            · rintro rfl
              exact ⟨rfl, rfl⟩
          rw [Lookup.agrees, (hvalue v rfl).toNat_length]
          simp [Bool.beq_eq_decide_eq, ← Bool.decide_and, hsame]

section Honest

variable {entries : Entries} {key : Bytes} {blobs known : List Bytes}

/-- What is wrapped in a proof is found by its hash. -/
theorem store_of_wrapped (hfree : CollisionFree known) (hblobs : messages blobs ⊆ known) {m : Bytes}
    (hlt : m.length < 256 ^ 8) (hmem : Rlp.encodeBytes m ∈ blobs) :
    store blobs (keccak m) = some m :=
  Index.get?_keccak (hfree.mono hblobs) (mem_messages hmem (unwrap_encodeBytes hlt))

theorem verify_eq_ofValue (hne : entries.builder.tree ≠ .nil)
    (hkeys : ∀ k v, entries.value? k = some v → k.length ≤ 65535)
    (hkey : entries.value? key = none → ∀ k v, entries.value? k = some v → k.length ≤ key.length)
    (hwrapped : WellWrapped blobs) (hroot : Rlp.encodeBytes entries.builder.build.message ∈ blobs)
    (hvisited : ∀ s ∈ entries.builder.tree.visited (BitPath.ofBytes key), ¬ s.toChild.isInline →
      Rlp.encodeBytes s.toNode.message ∈ blobs)
    (hfree : CollisionFree known) (hblobs : messages blobs ⊆ known) :
    verify (entries.builder.rootHash .rskip107) key blobs =
      .ok (.ofValue (store blobs) (entries.value? key)) := by
  have hmax : SharedPath.maxLength = 8 * 65535 := rfl
  have hred := entries.reduced_tree
  have hwithin : entries.builder.tree.Within SharedPath.maxLength :=
    Entries.within_tree_of_length_le hkeys
  have hlong : entries.builder.tree.lookup (BitPath.ofBytes key) = none →
      entries.builder.tree.Within (BitPath.ofBytes key).length := by
    intro hnone
    rw [BitPath.length_ofBytes]
    exact Entries.within_tree_of_length_le (hkey ((entries.lookup_tree key).symm.trans hnone))
  have hstored : ∀ s ∈ entries.builder.tree.visited (BitPath.ofBytes key),
      Rlp.encodeBytes s.toNode.message ∈ blobs →
      store blobs (keccak s.toNode.message) = some s.toNode.message := by
    intro s hs hmem
    obtain ⟨hs_ne, hs_red, hs_within⟩ := Tree.of_mem_visited hred hwithin hs
    have hlength := Tree.length_message_le hs_red hs_ne hs_within
    exact store_of_wrapped hfree hblobs (by omega) hmem
  rw [← entries.lookup_tree]
  refine (Reading.rskip107 (store blobs)).verify_eq_answer hred hne hwrapped hlong
    (fun s hs => ?_) (hstored _ (Tree.mem_visited hne) hroot) fun s hs => ?_
  · obtain ⟨hs_ne, hs_red, hs_within⟩ := Tree.of_mem_visited hred hwithin hs
    have hlen := Tree.length_path_toNode_le hs_red hs_ne hs_within
    change Node.ofMessage (store blobs) s.toNode.message = .ok (s.toNode.readBack (store blobs))
    rw [ofMessage_toNode hs_red hs_ne hs_within (by omega), if_pos hlen]
  · by_cases hinline : s.toChild.isInline
    · left
      have hred := Tree.reduced_of_mem_visited hred hs
      have hchild := Tree.readBack_toChild (store blobs) hred (Tree.ne_nil_of_mem_visited hs)
      rwa [if_pos hinline] at hchild
    · exact .inr (hstored s hs (hvisited s hs hinline))

end Honest

/-- A proof with the messages of the root and of all visited nodes that are not inline is accepted
for a key that is stored, or absent and as long as any that is stored. It agrees with what the trie
has for the key and with nothing else. -/
theorem verifyValue_complete (entries : Entries) (hne : entries.builder.tree ≠ .nil)
    (hkeys : ∀ k v, entries.value? k = some v → k.length ≤ 65535) (key : Bytes)
    (hkey : entries.value? key = none → ∀ k v, entries.value? k = some v → k.length ≤ key.length)
    (blobs : List Bytes) (hwrapped : WellWrapped blobs)
    (hroot : Rlp.encodeBytes entries.builder.build.message ∈ blobs)
    (hvisited : ∀ s ∈ entries.builder.tree.visited (BitPath.ofBytes key), ¬ s.toChild.isInline →
      Rlp.encodeBytes s.toNode.message ∈ blobs)
    (expected : Option Bytes)
    (hfree : CollisionFree (entries.builder.tree.hashed .rskip107 ++ messages blobs ++
      expected.toList)) :
    verifyValue (entries.builder.rootHash .rskip107) key blobs expected =
      .ok (decide (expected = entries.value? key)) := by
  let known := entries.builder.tree.hashed .rskip107 ++ messages blobs ++ expected.toList
  have htree : entries.builder.tree.hashed .rskip107 ⊆ known := by simp [known]
  have hblobs : messages blobs ⊆ known := by simp [known]
  have hexpected : ∀ v ∈ expected, v ∈ known := fun v hv =>
    List.mem_append_right _ (Option.mem_toList.mpr hv)
  have hvalue : ∀ v ∈ entries.value? key, v ∈ known := fun v hv =>
    htree (Tree.mem_hashed_of_lookup .rskip107 ((entries.lookup_tree key).trans hv))
  rw [verifyValue, verify_eq_ofValue hne hkeys hkey hwrapped hroot hvisited hfree hblobs,
    ok_bind, agrees_ofValue (fun v hv => Entries.accepted_of_value? hv)
      (fun v hv w hw => store_eq_value hfree hblobs htree hv hw) hfree hvalue hexpected]
  rfl

theorem verifyValue_complete_sample :
    verifyValue (Entries.sample.builder.rootHash .rskip107) (0x80 :: List.replicate 11 0)
        sampleProof (some (List.replicate 40 7)) = .ok true ∧
      verifyValue (Entries.sample.builder.rootHash .rskip107) (0xc0 :: List.replicate 11 0)
        sampleProof none = .ok true :=
  ⟨verifyValue_complete Entries.sample (by decide +kernel) (Entries.forall_value? (by decide)) _
      (fun h => absurd h (by decide +kernel)) sampleProof (by decide +kernel) (by decide +kernel)
      (by decide +kernel) (some (List.replicate 40 7)) (by decide +kernel),
    verifyValue_complete Entries.sample (by decide +kernel) (Entries.forall_value? (by decide)) _
      (fun _ => Entries.forall_value? (by decide)) sampleProof (by decide +kernel)
      (by decide +kernel) (by decide +kernel) none (by decide +kernel)⟩

end BlockAudit.Proof
