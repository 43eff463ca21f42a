import BlockAudit.Proof.Index
import BlockAudit.Proofs.Keccak
import BlockAudit.Proofs.Outcome
import BlockAudit.Proofs.Rlp.Payload
import Mathlib.Data.List.Induction

/-!
The messages of a proof as a map from hashes. Under a hash stands the last message that has it, and
so, where there are no collisions, the only one.
-/
namespace BlockAudit.Proof

namespace Index

theorem get?_insert (index : Index) (message : Bytes) (hash : Hash) :
    (index.insert message).get? hash =
      if keccak message = hash then some message else index.get? hash := by
  by_cases h : keccak message = hash
  · simp [insert, get?, h]
  · have hfilter : (index.entries.filter (·.1 != keccak message)).find? (·.1 == hash) =
        index.entries.find? (·.1 == hash) := by
      rw [List.find?_filter]
      congr 1
      funext e
      by_cases he : e.1 = hash
      · simp [he, Ne.symm h]
      · simp [he]
    simp [insert, get?, h, hfilter]

theorem get?_ofMessages (messages : List Bytes) (hash : Hash) :
    (ofMessages messages).get? hash = messages.reverse.find? fun m => keccak m == hash := by
  induction messages using List.reverseRecOn with
  | nil => rfl
  | append_singleton messages message ih =>
    rw [ofMessages, List.foldl_append, ← ofMessages, List.foldl_cons, List.foldl_nil, get?_insert,
      ih]
    by_cases h : keccak message = hash <;> simp [h]

theorem mem_of_get? {messages : List Bytes} {hash : Hash} {message : Bytes}
    (h : (ofMessages messages).get? hash = some message) :
    message ∈ messages ∧ keccak message = hash := by
  rw [get?_ofMessages] at h
  have hmem := List.mem_of_find?_eq_some h
  have hhash := List.find?_some h
  exact ⟨by simpa using hmem, by simpa using hhash⟩

theorem exists_get? {messages : List Bytes} {message : Bytes} (h : message ∈ messages) :
    ∃ m, (ofMessages messages).get? (keccak message) = some m := by
  rw [← Option.isSome_iff_exists, get?_ofMessages, List.find?_isSome]
  exact ⟨message, by simpa using h, by simp⟩

/-- Without collisions, every message is found. -/
theorem get?_keccak {messages : List Bytes} (hfree : CollisionFree messages) {message : Bytes}
    (h : message ∈ messages) : (ofMessages messages).get? (keccak message) = some message := by
  obtain ⟨m, hm⟩ := exists_get? h
  obtain ⟨hmem, hhash⟩ := mem_of_get? hm
  rw [hm, hfree m hmem message h hhash]

end Index

theorem unwrap_encodeBytes {message : Bytes} (hlt : message.length < 256 ^ 8) :
    unwrap (Rlp.encodeBytes message) = .ok message := by
  obtain ⟨front, heq, hlist, hextent⟩ := Rlp.extent_encodeBytes hlt
  have hlen : (Rlp.encodeBytes message).length = front.length + message.length := by
    rw [heq, List.length_append]
  rw [unwrap, hextent, hlist, hlen]
  simp [Rlp.Extent.total, heq]

/-- The messages inside the entries that are wrapped as they should be. -/
def messages (blobs : List Bytes) : List Bytes :=
  blobs.filterMap fun blob => (unwrap blob).toOption

/-- What stands in a proof under a hash. -/
abbrev store (blobs : List Bytes) : Hash → Option Bytes :=
  (Index.ofMessages (messages blobs)).get?

def WellWrapped (blobs : List Bytes) : Prop :=
  ∀ blob ∈ blobs, ∃ message, unwrap blob = .ok message

instance (blobs : List Bytes) : Decidable (WellWrapped blobs) :=
  decidable_of_iff (∀ blob ∈ blobs, (unwrap blob).toOption.isSome) <|
    forall₂_congr fun blob _ => by cases unwrap blob <;> simp [Except.toOption]

theorem mem_messages {blobs : List Bytes} {blob message : Bytes} (hmem : blob ∈ blobs)
    (h : unwrap blob = .ok message) : message ∈ messages blobs :=
  List.mem_filterMap.mpr ⟨blob, hmem, by rw [h, Except.toOption]⟩

theorem mapM_unwrap_eq_ok_iff {blobs ms : List Bytes} :
    blobs.mapM unwrap = .ok ms ↔ WellWrapped blobs ∧ ms = messages blobs := by
  induction blobs generalizing ms with
  | nil => simp [WellWrapped, messages, eq_comm]
  | cons blob blobs ih =>
    rw [List.mapM_cons, bind_eq_ok_iff]
    constructor
    · rintro ⟨message, hblob, hrest⟩
      obtain ⟨rest, hrest, hms⟩ := bind_eq_ok_iff.mp hrest
      obtain ⟨hwrapped, rfl⟩ := ih.mp hrest
      cases hms
      constructor
      · simpa [WellWrapped, hblob] using hwrapped
      · simp [messages, hblob, Except.toOption]
    · rintro ⟨hwrapped, rfl⟩
      obtain ⟨message, hblob⟩ := hwrapped blob (by simp)
      have hrest := ih.mpr ⟨fun b hb => hwrapped b (by simp [hb]), rfl⟩
      exact ⟨message, hblob, by simp [hrest, messages, hblob, Except.toOption]⟩

theorem ofBlobs_eq_ok_iff {blobs : List Bytes} {index : Index} :
    Index.ofBlobs blobs = .ok index ↔
      WellWrapped blobs ∧ index = Index.ofMessages (messages blobs) := by
  rw [Index.ofBlobs, bind_eq_ok_iff]
  simp only [mapM_unwrap_eq_ok_iff, pure_eq_ok, Except.ok.injEq]
  grind

end BlockAudit.Proof
