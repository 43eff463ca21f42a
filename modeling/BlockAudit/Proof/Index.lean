import BlockAudit.Keccak
import BlockAudit.Proof.Error

/-! The messages of a proof, found by their hashes. -/
namespace BlockAudit.Proof

/-- The message inside a proof entry, which is one byte string from end to end. -/
def unwrap (blob : Bytes) : Except ProofError Bytes := do
  let extent ← (Rlp.extent blob).mapError fun e => .invalidWrapping (.rlp e)
  if Rlp.isList blob || extent.total != blob.length then
    throw (.invalidWrapping (.notOneString blob.length))
  return blob.drop extent.header

/-- Messages with their hashes, every hash once. -/
structure Index where
  entries : List (Hash × Bytes) := []
deriving DecidableEq

namespace Index

def get? (index : Index) (hash : Hash) : Option Bytes :=
  (index.entries.find? fun (h, _) => h == hash).map Prod.snd

def size (index : Index) : Nat :=
  index.entries.length

def isEmpty (index : Index) : Bool :=
  index.entries.isEmpty

/-- Adds a message in place of any other with its hash. -/
def insert (index : Index) (message : Bytes) : Index :=
  let hash := keccak message
  ⟨(hash, message) :: index.entries.filter fun (h, _) => h != hash⟩

def ofMessages (messages : List Bytes) : Index :=
  messages.foldl insert {}

/-- The messages inside the entries of a proof. -/
def ofBlobs (blobs : List Bytes) : Except ProofError Index := do
  return ofMessages (← blobs.mapM unwrap)

end Index

end BlockAudit.Proof
