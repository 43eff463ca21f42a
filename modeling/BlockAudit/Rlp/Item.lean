import BlockAudit.Bytes

/-! Nested lists of byte strings and their canonical encoding. -/
namespace BlockAudit.Rlp

inductive Item where
  | string (bytes : Bytes)
  | list (items : List Item)

/-- The bytes in front of a payload. Payloads of up to 55 bytes have a single one. -/
def header (base : UInt8) (length : Nat) : Bytes :=
  if length ≤ 55 then [base + .ofNat length]
  else
    let digits := bigEndian length
    (base + 55 + .ofNat digits.length) :: digits

/-- A single byte below 0x80 stands for itself. -/
def encodeBytes (bytes : Bytes) : Bytes :=
  match bytes with
  | [byte] => if byte < 0x80 then [byte] else header 0x80 1 ++ [byte]
  | _ => header 0x80 bytes.length ++ bytes

namespace Item

mutual

def encode : Item → Bytes
  | .string bytes => encodeBytes bytes
  | .list items =>
    let payload := encodeAll items
    header 0xc0 payload.length ++ payload

def encodeAll : List Item → Bytes
  | [] => []
  | item :: items => item.encode ++ encodeAll items

end

/-- A number as its shortest big-endian form. -/
def ofNat (n : Nat) : Item :=
  .string (bigEndian n)

def ofWord (w : Word) : Item :=
  ofNat w.toNat

def ofUInt64 (n : UInt64) : Item :=
  ofNat n.toNat

/-- Truth is the number 1 and falsehood the number 0. -/
def ofBool (b : Bool) : Item :=
  ofNat b.toNat

def ofFixed {size : Nat} (b : FixedBytes size) : Item :=
  .string b.toBytes

end Item

end BlockAudit.Rlp
