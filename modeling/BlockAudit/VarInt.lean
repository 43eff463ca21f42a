import BlockAudit.Field

/-! Integers of 1, 3, 5 or 9 bytes: a marker that tells the width, then little-endian bytes. -/
namespace BlockAudit

/-- A number and the number of bytes its encoding takes. -/
structure VarInt where
  value : UInt64
  size : Nat
deriving DecidableEq

namespace VarInt

/-- The size of the shortest encoding. -/
def sizeOf (value : UInt64) : Nat :=
  if value ≤ 0xfc then 1
  else if value ≤ 0xffff then 3
  else if value ≤ 0xffffffff then 5
  else 9

def ofValue (value : UInt64) : VarInt :=
  ⟨value, sizeOf value⟩

/-- Writes the value in the width that the size asks for. -/
def encode (v : VarInt) : Bytes :=
  match v.size with
  | 1 => [v.value.toUInt8]
  | 3 => 0xfd :: littleEndianFixed 2 v.value.toNat
  | 5 => 0xfe :: littleEndianFixed 4 v.value.toNat
  | _ => 0xff :: littleEndianFixed 8 v.value.toNat

/-- The bytes after a marker. -/
def payloadSize (marker : UInt8) : Nat :=
  if marker = 0xfd then 2 else if marker = 0xfe then 4 else if marker = 0xff then 8 else 0

/-- Reads the encoding at `offset`. Any width is accepted for any value. -/
def read (buffer : Bytes) (offset : Nat) : Except FieldError VarInt := do
  let marker ← byteField buffer offset
  match payloadSize marker with
  | 0 => return ⟨marker.toUInt64, 1⟩
  | n => return ⟨.ofNat (ofLittleEndian (← field buffer (offset + 1) n)), n + 1⟩

/-- A number at an offset of 64 bits. The payload begins behind the marker. -/
def readAt (buffer : Bytes) (offset : UInt64) : Except FieldError VarInt := do
  let marker := (← fieldAt buffer offset 1).headD 0
  match payloadSize marker with
  | 0 => return ⟨marker.toUInt64, 1⟩
  | n => return ⟨.ofNat (ofLittleEndian (← fieldAt buffer (offset + 1) (.ofNat n))), n + 1⟩

end VarInt

end BlockAudit
