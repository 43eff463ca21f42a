import BlockAudit.Hex

/-! Addresses and storage slots as users type them. -/
namespace BlockAudit.Argument

inductive ArgumentError where
  | digitRange (text : String) (max : Nat)
  | digitCount (text : String) (count : Nat)
  | hex (text : String) (cause : HexError)
deriving DecidableEq

def ArgumentError.message : ArgumentError → String
  | .digitRange text max =>
    "expected 1 to " ++ toString max ++ " hex digits, got " ++ Text.quote text
  | .digitCount text count =>
    "expected " ++ toString count ++ " hex digits, got " ++ Text.quote text
  | .hex text cause => Text.quote text ++ ": " ++ cause.message

/-- Up to `2 * size` digits, filled up with zeros in front. Lengths are checked in bytes, zeros are added
by characters, so digits outside ASCII can leave an odd number of bytes. -/
def padded (size : Nat) (text : String) : Except ArgumentError Bytes :=
  let digits := stripHexMark text
  let length := (utf8 digits).length
  if length = 0 ∨ 2 * size < length then .error (.digitRange text (2 * size))
  else
    (Hex.decode (List.replicate (2 * size - digits.length) 0x30 ++ utf8 digits)).mapError
      (.hex text)

def address (text : String) : Except ArgumentError Address := do
  if (utf8 (stripHexMark text)).length ≠ 40 then throw (.digitCount text 40)
  return .padLeft 20 (← padded 20 text)

/-- A slot. Short forms are numbers. -/
def slot (text : String) : Except ArgumentError Hash := do
  return .padLeft 32 (← padded 32 text)

end BlockAudit.Argument
