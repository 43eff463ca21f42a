import BlockAudit.Proofs.Proof.Agreement
import BlockAudit.Proofs.Proof.Orchid

/-!
The verdict on an expected value, from a proof that has the bytes of the value and from one that has not.
Bytes are compared with bytes. A hash goes with a length that the node records, and the two verdicts are
the same exactly if this is the length of the value.
-/
namespace BlockAudit.Proof

open Trie

/-- An answer after the bytes of `v` have become known. -/
def Lookup.supplied (v : Bytes) : Lookup → Lookup
  | .foundHashed hash length => if hash = keccak v then .found v else .foundHashed hash length
  | lookup => lookup

/-- The bytes change the verdict only where they differ in length from what is recorded. -/
theorem Lookup.agrees_supplied_eq_iff (v : Bytes) (a : Lookup) :
    (a.supplied v).agrees (some v) = a.agrees (some v) ↔
      ∀ length, a = .foundHashed (keccak v) length → length.toNat = v.length := by
  cases a with
  | found w => simp [supplied]
  | notFound => simp [supplied]
  | foundHashed hash length =>
    rw [supplied]
    by_cases hhash : hash = keccak v
    · subst hhash
      have hfound : (Lookup.found v).agrees (some v) = true := by simp [agrees]
      have hhashed : (Lookup.foundHashed (keccak v) length).agrees (some v) =
          (v.length == length.toNat) := by simp [agrees]
      rw [if_pos rfl, hfound, hhashed]
      constructor
      · rintro hlength _ ⟨⟩
        exact (beq_iff_eq.mp hlength.symm).symm
      · intro hlength
        exact (beq_iff_eq.mpr (hlength length rfl).symm).symm
    · rw [if_neg hhash]
      simp [hhash]

/-- An answer without the bytes of a value is read with a store that has not got them. -/
theorem Lookup.Alike.store_eq_none {s t : Hash → Option Bytes} {a : Lookup} {hash : Hash}
    {length : UInt32} (h : a.Alike s t (.foundHashed hash length)) : t hash = none := by
  generalize hb : Lookup.foundHashed hash length = b at h
  cases h with
  | notFound => cases hb
  | @ofLabel x y hlabel =>
    unfold Lookup.ofLabel at hb
    split at hb
    · cases hb
    · rename_i hvalue hhash
      cases hb
      obtain ⟨-, hstored⟩ := hlabel.long hash (hlabel.hash.trans hhash)
      rw [← hstored, hvalue]
    · cases hb

section Supplied

variable {root : Hash} {key v : Bytes} {blobs : List Bytes} {answer : Lookup}

theorem messages_append_value (hlt : v.length < 2 ^ 64) :
    messages (blobs ++ [Rlp.encodeBytes v]) = messages blobs ++ [v] := by
  have hunwrap := unwrap_encodeBytes (show v.length < 256 ^ 8 by omega)
  simp [messages, List.filterMap_append, hunwrap, Except.toOption]

theorem wellWrapped_append_value (hlt : v.length < 2 ^ 64) (h : WellWrapped blobs) :
    WellWrapped (blobs ++ [Rlp.encodeBytes v]) := by
  intro blob hblob
  rcases List.mem_append.mp hblob with hblob | hblob
  · exact h blob hblob
  · rw [List.mem_singleton.mp hblob]
    exact ⟨v, unwrap_encodeBytes (by omega)⟩

/-- With the bytes of a value added to it, an accepted proof is accepted, and its answer is the same one
but for these bytes. -/
theorem verify_append_value (hlt : v.length < 2 ^ 64) (hfree : CollisionFree (messages blobs ++ [v]))
    (h : verify root key blobs = .ok answer) :
    verify root key (blobs ++ [Rlp.encodeBytes v]) = .ok (answer.supplied v) := by
  let others := blobs ++ [Rlp.encodeBytes v]
  have hmessages : messages others = messages blobs ++ [v] := messages_append_value hlt
  have hfree_others : CollisionFree (messages others) := hmessages ▸ hfree
  have hfree_both : CollisionFree (messages blobs ++ messages others) :=
    hfree_others.mono (by rw [hmessages]; simp)
  have hstored : store others (keccak v) = some v :=
    Index.get?_keccak hfree_others (by rw [hmessages]; simp)
  have hmono : ∀ {hash m}, store blobs hash = some m → store others hash = some m :=
    store_mono hfree_others (List.subset_append_left _ _)
  have hst := compatible_store hfree_both
  have hwrapped := wellWrapped_append_value hlt (verify_eq_ok_iff.mp h).1
  rcases verify_follows hfree_both h with ⟨b, hb, halike⟩ | ⟨hash, m, hs, ht, -⟩
  · suffices hanswer : b = answer.supplied v by
      rw [← hanswer]
      exact verify_eq_ok_iff.mpr ⟨hwrapped, hb⟩
    rcases alike_cases hst halike with rfl | ⟨hash, length, w, hs, ht, rfl, rfl⟩ |
      ⟨hash, length, w, hs, ht, -, -⟩
    · cases answer with
      | found w => rfl
      | notFound => rfl
      | foundHashed hash length =>
        have hnone := halike.store_eq_none
        have hne : hash ≠ keccak v := by
          rintro rfl
          rw [hstored] at hnone
          cases hnone
        rw [Lookup.supplied, if_neg hne]
    · -- The bytes are new with the longer proof, so that they are those of the value.
      obtain ⟨hmem, rfl⟩ := Index.mem_of_get? ht
      rw [hmessages] at hmem
      rcases List.mem_append.mp hmem with hmem | hmem
      · obtain ⟨m, hm⟩ := Index.exists_get? hmem
        cases hs.symm.trans hm
      · obtain rfl := List.mem_singleton.mp hmem
        rw [Lookup.supplied, if_pos rfl]
    · rw [hmono hs] at ht
      cases ht
  · rw [hmono hs] at ht
    cases ht

/-- Under the root of a trie in the current layout, the length that goes with the hash of a value is its
length. -/
theorem length_of_verify_foundHashed {entries : Entries} {length : UInt32}
    (hkeys : ∀ k v, entries.value? k = some v → 8 * k.length < 2 ^ 64)
    (hfree : CollisionFree
      (entries.builder.tree.hashed .rskip107 ++ (messages blobs ++ [v]) ++ [[0x80]]))
    (h : verify (entries.builder.rootHash .rskip107) key blobs =
      .ok (.foundHashed (keccak v) length)) : length.toNat = v.length := by
  let known := entries.builder.tree.hashed .rskip107 ++ (messages blobs ++ [v]) ++ [[0x80]]
  have hblobs : messages blobs ⊆ known := fun m hm => by simp [known, hm]
  have htree : entries.builder.tree.hashed .rskip107 ⊆ known := fun m hm => by simp [known, hm]
  have htrue : (Lookup.foundHashed (keccak v) length).TrueOf (entries.value? key) := by
    rw [eq_ofValue_of_verify hkeys hfree hblobs htree (by simp) h]
    exact trueOf_ofValue (fun v hv => Entries.accepted_of_value? hv)
      fun v hv w hw => store_eq_value hfree hblobs htree hv hw
  obtain ⟨w, hw, -, hhash, hlength⟩ := htrue
  have hmem : w ∈ known :=
    htree (Tree.mem_hashed_of_lookup .rskip107 ((entries.lookup_tree key).trans hw))
  rw [← hlength, hfree w hmem v (by simp) hhash]

end Supplied

/-- The verdict on a value is the same with its bytes in the proof and without, except where the answer
has only its hash, with a length that is not that of the value. The length of an entry is counted in a
machine word. -/
theorem verifyValue_append_eq_iff (root : Hash) (key v : Bytes) (blobs : List Bytes)
    (hlt : v.length < 2 ^ 64) (hfree : CollisionFree (messages blobs ++ [v])) {answer : Lookup}
    (h : verify root key blobs = .ok answer) :
    verifyValue root key (blobs ++ [Rlp.encodeBytes v]) (some v) =
        verifyValue root key blobs (some v) ↔
      ∀ length, answer = .foundHashed (keccak v) length → length.toNat = v.length := by
  have hsupplied := verify_append_value hlt hfree h
  rw [verifyValue, verifyValue, h, hsupplied, ok_bind, ok_bind, pure_eq_ok, pure_eq_ok,
    Except.ok.injEq]
  exact answer.agrees_supplied_eq_iff v

theorem verifyValue_append_eq_iff_long_value :
    verifyValue (Entries.sample.builder.rootHash .rskip107) (0x80 :: List.replicate 11 0)
        (sampleProof ++ [Rlp.encodeBytes (List.replicate 40 7)]) (some (List.replicate 40 7)) =
      verifyValue (Entries.sample.builder.rootHash .rskip107) (0x80 :: List.replicate 11 0)
        sampleProof (some (List.replicate 40 7)) := by
  have hanswer : verify (Entries.sample.builder.rootHash .rskip107) (0x80 :: List.replicate 11 0)
      sampleProof = .ok (.foundHashed (keccak (List.replicate 40 7)) 40) := by
    decide +kernel
  refine (verifyValue_append_eq_iff _ _ (List.replicate 40 7) sampleProof (by simp)
    (by decide +kernel) hanswer).mpr fun length hlength => ?_
  cases hlength
  rfl

/-- A single long value. -/
def soleLong : Entries :=
  [([], List.replicate 33 7)]

/-- A leaf with the hash of one byte and a length of five. -/
def misstatedLeaf : Bytes :=
  0x60 :: (keccak [1]).toBytes ++ Uint24.bytes 5

/-- The older layout records no length, and the true value of a key is turned down until its bytes are in
the proof. So is a value whose length a node of the current layout misstates. -/
theorem verifyValue_append_ne :
    (verifyValue (soleLong.builder.rootHash .orchid) []
          [Rlp.encodeBytes soleLong.builder.build.orchidMessage] (some (List.replicate 33 7)) =
        .ok false ∧
      verifyValue (soleLong.builder.rootHash .orchid) []
          ([Rlp.encodeBytes soleLong.builder.build.orchidMessage] ++
            [Rlp.encodeBytes (List.replicate 33 7)]) (some (List.replicate 33 7)) = .ok true) ∧
      verifyValue (keccak misstatedLeaf) [] [Rlp.encodeBytes misstatedLeaf] (some [1]) =
          .ok false ∧
        verifyValue (keccak misstatedLeaf) []
          ([Rlp.encodeBytes misstatedLeaf] ++ [Rlp.encodeBytes [1]]) (some [1]) = .ok true := by
  decide +kernel

end BlockAudit.Proof
