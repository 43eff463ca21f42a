import BlockAudit.BitPath
import BlockAudit.Field

/-! Why a node message cannot be read. -/
namespace BlockAudit.Trie

inductive DecodeError where
  | emptyMessage
  | truncated (cause : FieldError)
  /-- A message of the older layout that does not begin with 2. -/
  | invalidArity (arity : UInt8)
  | invalidFlags (flags : Nat)
  | pathTooLong (length : UInt64)
  | path (cause : BitPathError)
  /-- A message of `declared` bytes that does not end where its last field does. -/
  | lengthMismatch (declared : Nat)
deriving DecidableEq

/-- The binary digits of a number, at least eight of them. -/
def binary (n : Nat) : String :=
  let digits := Nat.toDigits 2 n
  "0b" ++ String.ofList (List.replicate (8 - digits.length) '0' ++ digits)

def DecodeError.message : DecodeError → String
  | .emptyMessage => "Node message is empty"
  | .truncated cause => "Node message is truncated: " ++ cause.message
  | .invalidArity arity => "Orchid node has arity " ++ toString arity.toNat ++ ", expected 2"
  | .invalidFlags flags => "Node has an invalid flag combination (" ++ binary flags ++ ")"
  | .pathTooLong length => "Shared path of " ++ toString length.toNat ++ " bits is too long"
  | .path cause => cause.message
  | .lengthMismatch declared =>
    "Embedded node of " ++ toString declared ++ " bytes has an inconsistent layout"

instance : MonadLift (Except FieldError) (Except DecodeError) where
  monadLift := Except.mapError .truncated

instance : MonadLift (Except BitPathError) (Except DecodeError) where
  monadLift := Except.mapError .path

end BlockAudit.Trie
