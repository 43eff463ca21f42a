import BlockAudit.Proofs.Proof.Soundness

/-!
A proof is a set of entries. In what order they come and how often each of them does cannot be told from
what is found in the proof, nor from the reason why it is refused.
-/
namespace BlockAudit.Proof

open Trie

namespace Index

variable {messages others : List Bytes} {hash : Hash} {message : Bytes}

/-- Without collisions, what is found under a hash is the message that has it. -/
theorem get?_ofMessages_eq_some_iff (hfree : CollisionFree messages) :
    (ofMessages messages).get? hash = some message ↔ message ∈ messages ∧ keccak message = hash := by
  constructor
  · exact mem_of_get?
  · rintro ⟨hmem, rfl⟩
    exact get?_keccak hfree hmem

theorem get?_ofMessages_congr (hfree : CollisionFree messages)
    (hsame : ∀ message, message ∈ messages ↔ message ∈ others) :
    (ofMessages messages).get? = (ofMessages others).get? := by
  have hfree_others : CollisionFree others := hfree.mono fun message => (hsame message).mpr
  funext hash
  ext message
  rw [get?_ofMessages_eq_some_iff hfree, get?_ofMessages_eq_some_iff hfree_others, hsame]

/-- An index without entries is one in which nothing is found. -/
theorem isEmpty_iff {index : Index} : index.isEmpty ↔ ∀ hash, index.get? hash = none := by
  obtain ⟨entries⟩ := index
  cases entries with
  | nil => simp [isEmpty, get?]
  | cons entry entries =>
    refine iff_of_false (by simp [isEmpty]) fun h => ?_
    have hfirst := h entry.1
    simp [get?] at hfirst

/-- The walk asks an index for nothing but what is found under a hash. -/
theorem lookup_congr {index other : Index} (h : index.get? = other.get?) (root : Hash) (key : Bytes) :
    index.lookup root key = other.lookup root key := by
  have hempty : index.isEmpty = other.isEmpty := by
    rw [Bool.eq_iff_iff, isEmpty_iff, isEmpty_iff, h]
  unfold lookup
  rw [hempty, h]

end Index

variable {blobs others : List Bytes} {root : Hash} {key : Bytes}

theorem mem_messages_iff {message : Bytes} :
    message ∈ messages blobs ↔ ∃ blob ∈ blobs, unwrap blob = .ok message := by
  rw [messages, List.mem_filterMap]
  refine exists_congr fun blob => and_congr_right fun _ => ?_
  cases unwrap blob <;> simp [Except.toOption]

theorem mem_messages_congr (hsame : ∀ blob, blob ∈ blobs ↔ blob ∈ others) (message : Bytes) :
    message ∈ messages blobs ↔ message ∈ messages others := by
  simp only [mem_messages_iff, hsame]

theorem wellWrapped_congr (hsame : ∀ blob, blob ∈ blobs ↔ blob ∈ others) :
    WellWrapped blobs ↔ WellWrapped others := by
  simp only [WellWrapped, hsame]

/-- An entry that is no wrapped message is refused as such. -/
theorem exists_cause_of_unwrap {blob : Bytes} {e : ProofError} (h : unwrap blob = .error e) :
    ∃ cause, e = .invalidWrapping cause := by
  unfold unwrap at h
  cases hextent : Rlp.extent blob with
  | error cause =>
    rw [hextent] at h
    cases h
    exact ⟨.rlp cause, rfl⟩
  | ok extent =>
    rw [hextent, mapError_ok, ok_bind] at h
    split at h
    · cases h
      exact ⟨.notOneString blob.length, rfl⟩
    · cases h

/-- A proof with an entry that is no wrapped message is refused because of such an entry. -/
theorem verify_of_not_wellWrapped (h : ¬ WellWrapped blobs) :
    ∃ blob ∈ blobs, ∃ cause, unwrap blob = .error (.invalidWrapping cause) ∧
      verify root key blobs = .error (.invalidWrapping cause) := by
  have hsome : ∃ blob ∈ blobs, ∀ message, unwrap blob ≠ .ok message := by
    simpa [WellWrapped] using h
  obtain ⟨blob, hblob, e, hunwrap, hall⟩ := exists_mapM_eq_error hsome
  obtain ⟨cause, rfl⟩ := exists_cause_of_unwrap hunwrap
  refine ⟨blob, hblob, cause, hunwrap, ?_⟩
  rw [verify, Index.ofBlobs, hall, error_bind, error_bind]

/-- Proofs with the same entries, whatever their order and their number, give the same result if all
entries are wrapped messages, no two of which have the same hash, and are both refused for an entry that is
none otherwise. -/
theorem verify_congr_of_mem_iff (root : Hash) (key : Bytes)
    (hsame : ∀ blob, blob ∈ blobs ↔ blob ∈ others) :
    (WellWrapped blobs → CollisionFree (messages blobs) →
        verify root key blobs = verify root key others) ∧
      (¬ WellWrapped blobs →
        ∃ cause cause', verify root key blobs = .error (.invalidWrapping cause) ∧
          verify root key others = .error (.invalidWrapping cause')) := by
  constructor
  · intro hwrapped hfree
    have hwrapped_others := (wellWrapped_congr hsame).mp hwrapped
    have hget := Index.get?_ofMessages_congr hfree (mem_messages_congr hsame)
    rw [verify_of_wellWrapped hwrapped, verify_of_wellWrapped hwrapped_others]
    exact Index.lookup_congr hget root key
  · intro hwrapped
    have hwrapped_others := mt (wellWrapped_congr hsame).mpr hwrapped
    obtain ⟨-, -, cause, -, hverify⟩ := verify_of_not_wellWrapped hwrapped
    obtain ⟨-, -, cause', -, hverify'⟩ := verify_of_not_wellWrapped hwrapped_others
    exact ⟨cause, cause', hverify, hverify'⟩

/-- An honest proof, turned around and repeated, and two lists of which neither is a proof. -/
theorem verify_reverse_append_sample :
    (∀ blob, blob ∈ sampleProof ↔ blob ∈ sampleProof.reverse ++ sampleProof) ∧
      WellWrapped sampleProof ∧ CollisionFree (messages sampleProof) ∧
      verify (Entries.sample.builder.rootHash .rskip107) (0x80 :: List.replicate 11 0) sampleProof =
        verify (Entries.sample.builder.rootHash .rskip107) (0x80 :: List.replicate 11 0)
          (sampleProof.reverse ++ sampleProof) ∧
      ∃ cause cause', verify (.zero 32) [] [[], [0xc0]] = .error (.invalidWrapping cause) ∧
        verify (.zero 32) [] [[0xc0], [], [0xc0]] = .error (.invalidWrapping cause') := by
  have hsame : ∀ blob, blob ∈ sampleProof ↔ blob ∈ sampleProof.reverse ++ sampleProof := by simp
  have hwrapped : WellWrapped sampleProof := by decide +kernel
  have hfree : CollisionFree (messages sampleProof) := by decide +kernel
  have hsame_bad : ∀ blob : Bytes, blob ∈ [[], [0xc0]] ↔ blob ∈ [[0xc0], [], [0xc0]] := by
    simp [or_comm]
  have hbad : ¬ WellWrapped [[], [0xc0]] := by decide +kernel
  exact ⟨hsame, hwrapped, hfree,
    (verify_congr_of_mem_iff _ (0x80 :: List.replicate 11 0) hsame).1 hwrapped hfree,
    (verify_congr_of_mem_iff (.zero 32) [] hsame_bad).2 hbad⟩

end BlockAudit.Proof
