import BlockAudit.Field

/-! Numbers of 24 bits as three big-endian bytes. -/
namespace BlockAudit.Uint24

def max : Nat := 0xffffff

def size : Nat := 3

/-- Writes the low 24 bits. -/
def bytes (value : Nat) : Bytes :=
  bigEndianFixed size value

def encode (value : Nat) : Except FieldError Bytes :=
  if value ≤ max then .ok (bytes value) else .error (.exceeds24Bits value)

def decode (buffer : Bytes) (offset : Nat) : Except FieldError Nat :=
  (field buffer offset size).map ofBigEndian

/-- A number at an offset of 64 bits. -/
def decodeAt (buffer : Bytes) (offset : UInt64) : Except FieldError Nat :=
  (fieldAt buffer offset 3).map ofBigEndian

end BlockAudit.Uint24
