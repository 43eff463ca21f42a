import BlockAudit.Trie.Rskip107.Message

/-! Reading nodes back from messages of the current layout. -/
namespace BlockAudit.Trie

/-- Where the bytes of long values are looked up by their hash. -/
abbrev ValueStore := Hash → Option Bytes

/-- The store that knows no value. -/
def ValueStore.none : ValueStore := fun _ => .none

/-- What the reader of an inline message of `declared` bytes reports when the message is too short. -/
def DecodeError.atInline (declared : Nat) : DecodeError → DecodeError
  | .truncated _ | .emptyMessage => .lengthMismatch declared
  | error => error

/-- A value that fills the rest of a message. -/
def Label.withInlineValue (label : Label) (rest : Bytes) : Label :=
  if rest.isEmpty then label
  else { label with value := some rest, valueLength := .ofNat rest.length }

namespace Rskip107

theorem length_lt_of_field {message bytes : Bytes} {offset needed : Nat}
    (h : field message (offset + 1) needed = .ok bytes) : bytes.length < message.length := by
  have := length_of_field h
  omega

/-- Reads a child at `offset`, and where it ends. Messages inside are left to `inner`. -/
def decodeChild (message : Bytes)
    (inner : (m : Bytes) → m.length < message.length → Except DecodeError Node)
    (present inlined : Bool) (offset : Nat) : Except DecodeError (Child × Nat) :=
  match present, inlined with
  | false, _ => .ok (.absent, offset)
  | true, false => do
    let hash ← field message offset 32
    return (.hashed (.takeFrom 32 hash), offset + 32)
  | true, true => do
    let declared := (← byteField message offset).toNat
    match h : field message (offset + 1) declared with
    | .error error => throw (.truncated error)
    | .ok bytes =>
      let node ← (inner bytes (length_lt_of_field h)).mapError (.atInline declared)
      return (node.toChild, offset + 1 + declared)

/-- Adds the value at `offset` to a label. A hash and a length must end the message. -/
def decodeValue (store : ValueStore) (message : Bytes) (isLong : Bool) (offset : Nat)
    (label : Label) : Except DecodeError Label := do
  if isLong then
    let hash := FixedBytes.takeFrom 32 (← field message offset 32)
    let length ← Uint24.decode message (offset + 32)
    if offset + 35 < message.length then throw (.lengthMismatch message.length)
    return { label with
      value := store hash, valueLength := .ofNat length, valueHash := some hash }
  else return label.withInlineValue (message.drop offset)

/-- Reads a message, given a reader for the shorter messages inside it. -/
def decodeWith (store : ValueStore) (message : Bytes)
    (inner : (m : Bytes) → m.length < message.length → Except DecodeError Node) :
    Except DecodeError Node := do
  let flags := Flags.ofByte (← byteField message 0)
  let (path, offset) ← if flags.sharedPath then SharedPath.decode message 1 else pure ([], 1)
  let (left, offset) ← decodeChild message inner flags.leftPresent flags.leftInline offset
  let (right, offset) ← decodeChild message inner flags.rightPresent flags.rightInline offset
  let (size, offset) ←
    if flags.leftPresent || flags.rightPresent then do
      let v ← VarInt.read message offset
      pure (some v.value, offset + v.size)
    else pure (none, offset)
  let label ← decodeValue store message flags.longValue offset { path, childrenSize := size }
  return ⟨label, left, right⟩

def decode (store : ValueStore) (message : Bytes) : Except DecodeError Node :=
  decodeWith store message fun m _ => decode store m
termination_by message.length

end Rskip107

end BlockAudit.Trie
