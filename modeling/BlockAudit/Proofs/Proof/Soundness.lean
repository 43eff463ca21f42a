import BlockAudit.Proofs.Proof.TreeWalk
import BlockAudit.Proofs.Trie.Entries

/-!
Whatever a proof consists of: if it is accepted under the root of a trie, its answer is true of the
entries of that trie.
-/
namespace BlockAudit.Proof

open Trie

/-- Whether an answer is true of a key with the given value. -/
def Lookup.TrueOf (value : Option Bytes) : Lookup → Prop
  | .found v => value = some v
  | .foundHashed hash length =>
    ∃ v, value = some v ∧ maxInlineValue < v.length ∧ keccak v = hash ∧ v.length = length.toNat
  | .notFound => value = none

theorem trueOf_ofValue {messages : Hash → Option Bytes} {value : Option Bytes}
    (hvalue : ∀ v ∈ value, Accepted v)
    (hmsg : ∀ v ∈ value, ∀ w, messages (keccak v) = some w → w = v) :
    (Lookup.ofValue messages value).TrueOf value := by
  cases value with
  | none => rfl
  | some v =>
    rw [Lookup.ofValue]
    by_cases hshort : v.length ≤ maxInlineValue
    · rw [if_pos hshort]
      rfl
    · rw [if_neg hshort]
      split
      · rename_i w hw
        rw [hmsg v rfl w hw]
        rfl
      · exact ⟨v, rfl, by omega, rfl, ((hvalue v rfl).toNat_length).symm⟩

section Honest

variable {entries : Entries} {key : Bytes} {blobs known : List Bytes} {a : Lookup}

theorem store_eq_value {layout : Layout} (hfree : CollisionFree known)
    (hblobs : messages blobs ⊆ known) (htree : entries.builder.tree.hashed layout ⊆ known)
    {v w : Bytes} (hv : entries.value? key = some v) (hw : store blobs (keccak v) = some w) :
    w = v := by
  have hvalue := Tree.mem_hashed_of_lookup layout ((entries.lookup_tree key).trans hv)
  exact eq_of_store hfree hblobs (htree hvalue) hw

/-- An accepted proof says what the trie has for the key. -/
theorem eq_ofValue_of_verify (hkeys : ∀ k v, entries.value? k = some v → 8 * k.length < 2 ^ 64)
    (hfree : CollisionFree known) (hblobs : messages blobs ⊆ known)
    (htree : entries.builder.tree.hashed .rskip107 ⊆ known) (hempty : [0x80] ∈ known)
    (h : verify (entries.builder.rootHash .rskip107) key blobs = .ok a) :
    a = .ofValue (store blobs) (entries.value? key) := by
  have hred := entries.reduced_tree
  have hwithin : entries.builder.tree.Within (2 ^ 64 - 1) :=
    Entries.within_tree fun k v hk => Nat.le_pred_of_lt (hkeys k v hk)
  rw [← entries.lookup_tree]
  refine (Reading.rskip107 (store blobs)).eq_answer_of_verify hred hfree hblobs htree hempty
    (fun s hs next hread => ?_) h
  obtain ⟨hs_ne, hs_red, hs_within⟩ := Tree.of_mem_visited hred hwithin hs
  change Node.ofMessage (store blobs) s.toNode.message = .ok next at hread
  rw [ofMessage_toNode hs_red hs_ne hs_within (by omega)] at hread
  split at hread
  · exact (Except.ok.inj hread).symm
  · cases hread

end Honest

/-- An answer under the root of a trie is true of its entries, whoever made the proof. Keys are of a
size that a memory can hold: messages count their bits in a machine word. -/
theorem verify_sound (entries : Entries)
    (hkeys : ∀ k v, entries.value? k = some v → 8 * k.length < 2 ^ 64) (key : Bytes)
    (blobs : List Bytes)
    (hfree : CollisionFree
      (entries.builder.tree.hashed .rskip107 ++ messages blobs ++ [[0x80]]))
    {answer : Lookup} (h : verify (entries.builder.rootHash .rskip107) key blobs = .ok answer) :
    answer.TrueOf (entries.value? key) := by
  have hblobs : messages blobs ⊆
      entries.builder.tree.hashed .rskip107 ++ messages blobs ++ [[0x80]] := by simp
  have htree : entries.builder.tree.hashed .rskip107 ⊆
      entries.builder.tree.hashed .rskip107 ++ messages blobs ++ [[0x80]] := by simp
  rw [eq_ofValue_of_verify hkeys hfree hblobs htree (by simp) h]
  refine trueOf_ofValue (fun v hv => Entries.accepted_of_value? hv) fun v hv w hw => ?_
  exact store_eq_value hfree hblobs htree hv hw

/-- All nodes of the sample, without the long value. -/
def sampleProof : List Bytes :=
  (Entries.sample.builder.tree.messages .rskip107).map Rlp.encodeBytes

theorem verify_sound_long_value :
    (Lookup.foundHashed (keccak (List.replicate 40 7)) 40).TrueOf
      (Entries.sample.value? (0x80 :: List.replicate 11 0)) :=
  verify_sound Entries.sample (Entries.forall_value? (by decide)) (0x80 :: List.replicate 11 0)
    sampleProof (by decide +kernel) (by decide +kernel)

end BlockAudit.Proof
