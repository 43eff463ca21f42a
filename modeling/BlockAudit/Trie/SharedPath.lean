import BlockAudit.BitPath
import BlockAudit.VarInt
import BlockAudit.Trie.DecodeError

/-!
The path inside a node message: its length, then its bits packed into bytes. Lengths from 1 to 32 and
from 160 to 382 take one byte, all others a marker and a variable integer.
-/
namespace BlockAudit.Trie.SharedPath

/-- The longest path that a message may announce, in bits. -/
def maxLength : Nat := 65535 * 8

def marker : UInt8 := 255

/-- The bytes that announce a path of `length` bits. -/
def encodeLength (length : Nat) : Bytes :=
  if 1 ≤ length ∧ length ≤ 32 then [.ofNat (length - 1)]
  else if 160 ≤ length ∧ length ≤ 382 then [.ofNat (length - 128)]
  else marker :: (VarInt.ofValue (.ofNat length)).encode

/-- An empty path takes no bytes at all. -/
def encode (path : BitPath) : Bytes :=
  if path.isEmpty then [] else encodeLength path.length ++ path.pack

/-- Reads a length at `offset`, and where the bits begin. -/
def decodeLength (message : Bytes) (offset : Nat) : Except DecodeError (Nat × Nat) := do
  let first ← byteField message offset
  if first < 32 then return (first.toNat + 1, offset + 1)
  else if first = marker then
    let length ← VarInt.read message (offset + 1)
    if length.value.toNat > maxLength then throw (.pathTooLong length.value)
    return (length.value.toNat, offset + 1 + length.size)
  else return (first.toNat + 128, offset + 1)

/-- Reads a path at `offset`, and where it ends. -/
def decode (message : Bytes) (offset : Nat) : Except DecodeError (BitPath × Nat) := do
  let (length, start) ← decodeLength message offset
  let packed ← field message start (BitPath.packedLength length)
  let path ← BitPath.ofPacked packed length
  return (path, start + BitPath.packedLength length)

end BlockAudit.Trie.SharedPath
