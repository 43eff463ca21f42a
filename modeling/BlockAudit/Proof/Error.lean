import BlockAudit.Rlp.Payload
import BlockAudit.Trie.DecodeError
import BlockAudit.Hex

/-! Why a proof cannot be used. That a key is absent is an answer and no error. -/
namespace BlockAudit.Proof

/-- Why a proof entry is no wrapped message. -/
inductive WrappingError where
  | rlp (cause : Rlp.RlpError)
  /-- The entry of `length` bytes is no single byte string, or goes on after it. -/
  | notOneString (length : Nat)
deriving DecidableEq

def WrappingError.message : WrappingError → String
  | .rlp cause => cause.name
  | .notOneString length =>
    "expected one byte string spanning all " ++ toString length ++ " bytes"

inductive ProofError where
  | emptyProof
  | rootNotFound (root : Hash)
  | missingNode (hash : Hash)
  /-- A node's path is longer than what is left of the key. -/
  | keyTooShort (bitsLeft pathLength : Nat)
  | invalidWrapping (cause : WrappingError)
  | malformedNode (cause : Trie.DecodeError)
deriving DecidableEq

def ProofError.message : ProofError → String
  | .emptyProof => "Proof contains no nodes"
  | .rootNotFound root => "No proof node hashes to the root " ++ root.hex
  | .missingNode hash => "Proof is missing the node with hash " ++ hash.hex
  | .keyTooShort bitsLeft pathLength =>
    "Key has " ++ toString bitsLeft ++ " bits left but the node's shared path is " ++
      toString pathLength ++ " bits long"
  | .invalidWrapping cause =>
    "Proof node is not wrapped in an RLP byte string: " ++ cause.message
  | .malformedNode cause => cause.message

end BlockAudit.Proof
