import BlockAudit.Bytes

/-! Fields of a buffer: runs of bytes at an offset. -/
namespace BlockAudit

inductive FieldError where
  /-- The buffer of `length` bytes ends before the field does. -/
  | truncated (offset needed length : Nat)
  | exceeds24Bits (value : Nat)
deriving DecidableEq

def FieldError.message : FieldError → String
  | .truncated offset needed length =>
    "Needed " ++ toString needed ++ " bytes at offset " ++ toString offset ++
      " but the buffer is only " ++ toString length ++ " bytes long"
  | .exceeds24Bits value =>
    "Value " ++ toString value ++ " does not fit in an unsigned 24 bit integer"

/-- The `needed` bytes at `offset`. -/
def field (buffer : Bytes) (offset needed : Nat) : Except FieldError Bytes :=
  if offset + needed ≤ buffer.length then .ok ((buffer.drop offset).take needed)
  else .error (.truncated offset needed buffer.length)

/-- The byte at `offset`. -/
def byteField (buffer : Bytes) (offset : Nat) : Except FieldError UInt8 :=
  match buffer[offset]? with
  | some byte => .ok byte
  | none => .error (.truncated offset 1 buffer.length)

/-- The sum of two numbers of 64 bits, unless it has more. -/
def checkedAdd? (a b : UInt64) : Option UInt64 :=
  if a.toNat + b.toNat < UInt64.size then some (a + b) else none

/-- The bytes from `start` up to `stop`, if the buffer has them. -/
def range? (buffer : Bytes) (start stop : UInt64) : Option Bytes :=
  if start ≤ stop ∧ stop.toNat ≤ buffer.length then
    some ((buffer.take stop.toNat).drop start.toNat)
  else none

/-- A field at an offset of 64 bits. Its end may be out of their reach. -/
def fieldAt (buffer : Bytes) (offset needed : UInt64) : Except FieldError Bytes :=
  match (checkedAdd? offset needed).bind (range? buffer offset) with
  | some bytes => .ok bytes
  | none => .error (.truncated offset.toNat needed.toNat buffer.length)

theorem length_of_field {buffer bytes : Bytes} {offset needed : Nat}
    (h : field buffer offset needed = .ok bytes) :
    bytes.length = needed ∧ offset + needed ≤ buffer.length := by
  unfold field at h
  split at h
  · cases h
    simp
    omega
  · cases h

end BlockAudit
