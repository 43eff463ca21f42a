import BlockAudit.Hex
import BlockAudit.Json.Record

/-! How the node writes hashes, numbers and byte strings in JSON. -/
namespace BlockAudit.Rpc

open Json (Reader)

/-- Exactly `size` bytes in digits. The mark `0x` may be left out. -/
def fixed? (size : Nat) (s : String) : Option (FixedBytes size) :=
  match Hex.decodeText (stripHexMark s) with
  | .ok bytes => FixedBytes.ofBytes? size bytes
  | .error _ => none

/-- The number written by one digit at least and `digits` at most. The mark `0x` may be left out. -/
def number? (digits : Nat) (s : String) : Option Nat :=
  let text := utf8 (stripHexMark s)
  if text.isEmpty || digits < text.length then none
  else
    match Hex.decode (if text.length % 2 = 1 then 0x30 :: text else text) with
    | .ok bytes => some (ofBigEndian bytes)
    | .error _ => none

def word? (s : String) : Option Word :=
  (number? 64 s).map (BitVec.ofNat 256)

def uint64? (s : String) : Option UInt64 :=
  (number? 16 s).map UInt64.ofNat

/-- Bytes in digits. The mark `0x` may be left out. -/
def bytes? (s : String) : Option Bytes :=
  (Hex.decodeText (stripHexMark s)).toOption

/-- The bytes of a number of any length without zeros in front. An odd number of digits and no digits at
all are allowed. -/
def quantity? (s : String) : Except HexError Bytes :=
  let text := utf8 (stripHexMark s)
  (Hex.decode (if text.length % 2 = 1 then 0x30 :: text else text)).map stripLeadingZeros

/-- A slot, written as a number. -/
def slot? (s : String) : Option Hash :=
  match quantity? s with
  | .ok bytes => if bytes.length ≤ 32 then some (.padLeft 32 bytes) else none
  | .error _ => none

def hash : Reader Hash := .ofString (fixed? 32)
def address : Reader Address := .ofString (fixed? 20)
def bloom : Reader Bloom := .ofString (fixed? 256)
def word : Reader Word := .ofString word?
def uint64 : Reader UInt64 := .ofString uint64?
def slot : Reader Hash := .ofString slot?

/-- Bytes, or null for none. -/
def bytes : Reader Bytes := .nullAs [] (.ofString bytes?)

/-- The bytes of a number, or null for zero. -/
def quantity : Reader Bytes := .nullAs [] (.ofString fun s => (quantity? s).toOption)

def ofFixed {size : Nat} (b : FixedBytes size) : Json := .string b.markedHex
def ofBytes (b : Bytes) : Json := .string (Hex.encodeMarked b)
def ofWord (w : Word) : Json := .string (Hex.quantity w.toNat)
def ofUInt64 (n : UInt64) : Json := .string (Hex.quantity n.toNat)

/-- An absent value is null. -/
def ofOption {α : Type} (write : α → Json) (value : Option α) : Json :=
  value.elim .null write

def ofList {α : Type} (write : α → Json) (values : List α) : Json :=
  .array (values.map write)

end BlockAudit.Rpc
