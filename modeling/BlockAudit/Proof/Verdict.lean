import BlockAudit.Proof.Lookup

/-! What the proof of an account or of a storage slot comes to. -/
namespace BlockAudit

open Proof (Lookup ProofError)

/-- What a proof comes to: a value, the hash of one, nothing at all, or an error. -/
structure Verdict where
  isValid : Bool
  value? : Option Bytes
  /-- The hash of a long value that the proof does not have. -/
  valueHash? : Option Hash
  /-- Why the proof cannot be used. -/
  error? : Option ProofError
deriving DecidableEq

def Verdict.ofResult (result : Except ProofError Lookup) : Verdict where
  isValid := result.isOk
  value? := result.toOption.bind Lookup.value?
  valueHash? := result.toOption.bind Lookup.valueHash?
  error? :=
    match result with
    | .ok _ => none
    | .error error => some error

namespace Proof

open Trie

/-- What a proof says about an account. -/
def verifyAccount (root : Hash) (address : Address) (blobs : List Bytes) : Verdict :=
  .ofResult (verify root (Key.account address) blobs)

/-- What a proof says about a storage slot. -/
def verifyStorage (zeroSlot : ZeroSlot) (root : Hash) (address : Address) (slot : Hash)
    (blobs : List Bytes) : Verdict :=
  .ofResult (verify root (Key.storage zeroSlot address slot) blobs)

end Proof

end BlockAudit
