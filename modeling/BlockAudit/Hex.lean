import BlockAudit.Bytes
import BlockAudit.Text.Quoted

/-! Byte strings as hexadecimal text. -/
namespace BlockAudit

inductive HexError where
  | oddLength
  | invalidCharacter (byte : UInt8) (position : Nat)
deriving DecidableEq

/-- The byte is shown as the character of that code point. -/
def HexError.message : HexError → String
  | .oddLength => "Odd number of digits"
  | .invalidCharacter byte position =>
    "Invalid character " ++ Text.quoteChar (Char.ofUInt8 byte) ++ " at position " ++
      toString position

/-- The bytes of a text in UTF-8. -/
def utf8 (s : String) : Bytes :=
  s.toList.flatMap String.utf8EncodeChar

/-- The text without a `0x` in front. -/
def stripHexMark (s : String) : String :=
  match s.toList with
  | '0' :: 'x' :: rest => String.ofList rest
  | _ => s

namespace Hex

/-- The value of an ASCII digit, in either case. -/
def digit? (byte : UInt8) : Option UInt8 :=
  if 0x30 ≤ byte && byte ≤ 0x39 then some (byte - 0x30)
  else if 0x61 ≤ byte && byte ≤ 0x66 then some (byte - 0x61 + 10)
  else if 0x41 ≤ byte && byte ≤ 0x46 then some (byte - 0x41 + 10)
  else none

/-- Joins digit values two by two. A digit without a partner is dropped. -/
def pairs : Bytes → Bytes
  | high :: low :: rest => (high <<< 4 ||| low) :: pairs rest
  | _ => []

/-- Reads digits given as ASCII bytes. An odd length is reported before a bad digit. -/
def decode (digits : Bytes) : Except HexError Bytes :=
  if digits.length % 2 = 1 then .error .oddLength
  else
    match digits.findIdx? fun d => (digit? d).isNone with
    | some i => .error (.invalidCharacter (digits.getD i 0) i)
    | none => .ok (pairs (digits.filterMap digit?))

/-- Reads a text that is made of digits only. -/
def decodeText (s : String) : Except HexError Bytes :=
  decode (utf8 s)

/-- Lower-case digits, two for each byte. -/
def encode (bytes : Bytes) : String :=
  String.ofList (bytes.flatMap fun b => [Nat.digitChar (b.toNat / 16), Nat.digitChar (b.toNat % 16)])

/-- Lower-case digits after `0x`. -/
def encodeMarked (bytes : Bytes) : String :=
  "0x" ++ encode bytes

/-- The shortest digits of a number after `0x`. -/
def quantity (n : Nat) : String :=
  "0x" ++ String.ofList (Nat.toDigits 16 n)

end Hex

namespace FixedBytes

variable {size : Nat}

def hex (b : FixedBytes size) : String :=
  Hex.encode b.toBytes

def markedHex (b : FixedBytes size) : String :=
  Hex.encodeMarked b.toBytes

end FixedBytes

end BlockAudit
