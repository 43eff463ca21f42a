import BlockAudit.Proof.Lookup
import BlockAudit.Proofs.BitPath
import BlockAudit.Proofs.Proof.Index

/-! One step of a walk at a time, by the way in which the key meets the path of the node. -/
namespace BlockAudit.Proof

open Trie

/-- What a walk does on the side that the next bit selects. -/
def descend (messages : Hash → Option Bytes) (child : Child) (rest : BitPath) :
    Except ProofError Lookup :=
  match child with
  | .absent => .ok .notFound
  | .inMemory label left right => walk messages ⟨label, left, right⟩ rest
  | .hashed hash =>
    match resolve messages hash with
    | .error error => .error error
    | .ok none => .error (.missingNode hash)
    | .ok (some next) => walk messages next rest

/-- A key is shorter than a path, or leaves it, or ends with it, or goes on after it. -/
theorem key_cases (path key : BitPath) :
    key.length < path.length ∨ (path.length ≤ key.length ∧ ¬ path <+: key) ∨ key = path ∨
      ∃ bit rest, key = path ++ bit :: rest := by
  rcases BitPath.front_cases path key with hp | rfl | h
  · rcases Nat.lt_or_ge key.length path.length with hshort | hlong
    · exact .inl hshort
    · exact .inr (.inl ⟨hlong, hp⟩)
  · exact .inr (.inr (.inl rfl))
  · exact .inr (.inr (.inr h))

variable {messages : Hash → Option Bytes} {node : Node} {key : BitPath}

theorem walk_of_short (h : key.length < node.path.length) :
    walk messages node key = .error (.keyTooShort key.length node.path.length) := by
  rw [walk, if_pos h]

theorem walk_of_left (hlen : node.path.length ≤ key.length) (hp : ¬ node.path <+: key) :
    walk messages node key = .ok .notFound := by
  rw [walk, if_neg (by omega), if_pos (by simpa [← List.isPrefixOf_iff_prefix] using hp)]

theorem walk_path : walk messages node node.path = .ok (.ofLabel node.toLabel) := by
  rw [walk, if_neg (by omega), if_neg (by simp)]
  split
  · rfl
  · rename_i h
    rw [List.drop_length] at h
    cases h

theorem walk_append_cons (bit : Bool) (rest : BitPath) :
    walk messages node (node.path ++ bit :: rest) = descend messages (node.child bit) rest := by
  rw [walk, if_neg (by simp), if_neg (by simp)]
  split
  · rename_i h
    rw [List.drop_left'] at h <;> simp at h
  · rename_i b r h
    rw [List.drop_left' rfl] at h
    cases h
    cases node.child bit with
    | absent => rfl
    | inMemory label left right => rfl
    | hashed hash =>
      cases hr : resolve messages hash with
      | error error => simp only [descend, hr]
      | ok found => cases found <;> simp only [descend, hr]

theorem resolve_of_none {hash : Hash} (h : messages hash = none) :
    resolve messages hash = .ok none := by
  simp only [resolve, h]

theorem resolve_of_some {hash : Hash} {message : Bytes} (h : messages hash = some message) :
    resolve messages hash =
      ((Node.ofMessage messages message).mapError .malformedNode).map some := by
  simp only [resolve, h]

/-- A walk goes on behind a hash if its message is there and can be read. -/
theorem descend_hashed_eq_ok_iff {hash : Hash} {a : Lookup} :
    descend messages (.hashed hash) key = .ok a ↔
      ∃ message next, messages hash = some message ∧ Node.ofMessage messages message = .ok next ∧
        walk messages next key = .ok a := by
  cases hm : messages hash with
  | none => simp [descend, resolve_of_none hm]
  | some message =>
    cases hn : Node.ofMessage messages message with
    | error e => simp [descend, resolve_of_some hm, hn, Except.map]
    | ok next => simp [descend, resolve_of_some hm, hn, Except.map]

/-- What a walk goes on with behind a reference: the node in memory, or the one read under the hash. -/
inductive Enters (messages : Hash → Option Bytes) : Child → Node → Prop where
  | inMemory (label : Label) (left right : Child) :
      Enters messages (.inMemory label left right) ⟨label, left, right⟩
  | hashed {hash : Hash} {message : Bytes} {next : Node} (hfound : messages hash = some message)
      (hread : Node.ofMessage messages message = .ok next) : Enters messages (.hashed hash) next

/-- A walk ends where nothing is, or goes on with a node behind the reference. -/
theorem descend_eq_ok_iff {child : Child} {a : Lookup} :
    descend messages child key = .ok a ↔
      (child = .absent ∧ a = .notFound) ∨
        ∃ next, Enters messages child next ∧ walk messages next key = .ok a := by
  cases child with
  | absent =>
    constructor
    · intro h
      cases h
      exact .inl ⟨rfl, rfl⟩
    · rintro (⟨-, rfl⟩ | ⟨next, hnext, -⟩)
      · rfl
      · cases hnext
  | inMemory label left right =>
    constructor
    · intro h
      exact .inr ⟨_, .inMemory label left right, h⟩
    · rintro (⟨habsent, -⟩ | ⟨next, hnext, h⟩)
      · cases habsent
      · cases hnext
        exact h
  | hashed hash =>
    rw [descend_hashed_eq_ok_iff]
    constructor
    · rintro ⟨message, next, hfound, hread, h⟩
      exact .inr ⟨next, .hashed hfound hread, h⟩
    · rintro (⟨habsent, -⟩ | ⟨next, hnext, h⟩)
      · cases habsent
      · cases hnext with
        | hashed hfound hread => exact ⟨_, next, hfound, hread, h⟩

section Lookup

variable {index : Index} {root : Hash} {key : Bytes} {a : Lookup}

/-- Looking a key up is going on behind the hash of the root, if its message is there. -/
theorem lookup_of_some {message : Bytes} (h : index.get? root = some message) :
    index.lookup root key = descend index.get? (.hashed root) (BitPath.ofBytes key) := by
  have hne : ¬ index.isEmpty := by
    intro hempty
    rw [Index.isEmpty, List.isEmpty_iff] at hempty
    simp [Index.get?, hempty] at h
  unfold Index.lookup descend
  rw [if_neg hne]
  dsimp only
  rw [resolve_of_some h]
  cases Node.ofMessage index.get? message <;> rfl

theorem lookup_eq_ok_iff :
    index.lookup root key = .ok a ↔
      descend index.get? (.hashed root) (BitPath.ofBytes key) = .ok a := by
  cases hm : index.get? root with
  | some message => rw [lookup_of_some hm]
  | none =>
    rw [descend_hashed_eq_ok_iff, hm]
    unfold Index.lookup
    split <;> simp [resolve_of_none hm]

theorem verify_of_wellWrapped {blobs : List Bytes} (h : WellWrapped blobs) :
    verify root key blobs = (Index.ofMessages (Proof.messages blobs)).lookup root key := by
  rw [verify, ofBlobs_eq_ok_iff.mpr ⟨h, rfl⟩, ok_bind]

end Lookup

/-- An accepted proof is well wrapped, has the message of the root, and its walk ends. -/
theorem verify_eq_ok_iff {root : Hash} {key : Bytes} {blobs : List Bytes} {a : Lookup} :
    verify root key blobs = .ok a ↔
      WellWrapped blobs ∧
        descend (store blobs) (.hashed root) (BitPath.ofBytes key) = .ok a := by
  rw [verify, bind_eq_ok_iff]
  constructor
  · rintro ⟨index, hindex, h⟩
    obtain ⟨hwrapped, rfl⟩ := ofBlobs_eq_ok_iff.mp hindex
    exact ⟨hwrapped, lookup_eq_ok_iff.mp h⟩
  · rintro ⟨hwrapped, h⟩
    exact ⟨_, ofBlobs_eq_ok_iff.mpr ⟨hwrapped, rfl⟩, lookup_eq_ok_iff.mpr h⟩

end BlockAudit.Proof
