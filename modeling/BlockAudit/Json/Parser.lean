import BlockAudit.Json.Value

/-! Reading the JSON value at the front of a text. -/
namespace BlockAudit.Json.Parser

def isBlank (c : Char) : Bool :=
  c == ' ' || c == '\n' || c == '\t' || c == '\r'

def skipBlanks (chars : List Char) : List Char :=
  chars.dropWhile isBlank

def hexDigit? (c : Char) : Option Nat :=
  if '0' ≤ c && c ≤ '9' then some (c.toNat - '0'.toNat)
  else if 'a' ≤ c && c ≤ 'f' then some (c.toNat - 'a'.toNat + 10)
  else if 'A' ≤ c && c ≤ 'F' then some (c.toNat - 'A'.toNat + 10)
  else none

def codeUnit? (a b c d : Char) : Option Nat :=
  [a, b, c, d].foldlM (fun n digit => (hexDigit? digit).map (16 * n + ·)) 0

def simpleEscape? (c : Char) : Option Char :=
  if c == '"' || c == '\\' || c == '/' then some c
  else if c == 'b' then some '\x08'
  else if c == 'f' then some '\x0c'
  else if c == 'n' then some '\n'
  else if c == 'r' then some '\r'
  else if c == 't' then some '\t'
  else none

def isHighSurrogate (unit : Nat) : Bool :=
  0xd800 ≤ unit && unit < 0xdc00

def isLowSurrogate (unit : Nat) : Bool :=
  0xdc00 ≤ unit && unit < 0xe000

/-- The rest of a string after its opening quote, and what follows it. `high` is the first half of a
character beyond the basic plane that waits for its second half. -/
def stringBody (high : Option Nat) (read : List Char) : List Char → Option (String × List Char)
  | [] => none
  | '\\' :: 'u' :: a :: b :: c :: d :: rest =>
    match codeUnit? a b c d, high with
    | none, _ => none
    | some unit, some first =>
      if isLowSurrogate unit then
        let code := 0x10000 + (first - 0xd800) * 0x400 + (unit - 0xdc00)
        stringBody none (Char.ofNat code :: read) rest
      else none
    | some unit, none =>
      if isHighSurrogate unit then stringBody (some unit) read rest
      else if isLowSurrogate unit then none
      else stringBody none (Char.ofNat unit :: read) rest
  | '\\' :: c :: rest =>
    match simpleEscape? c, high with
    | some escaped, none => stringBody none (escaped :: read) rest
    | _, _ => none
  | '"' :: rest => if high.isSome then none else some (String.ofList read.reverse, rest)
  | c :: rest => if high.isSome || c.toNat < 0x20 then none else stringBody none (c :: read) rest

def digitsValue (digits : List Char) : Nat :=
  digits.foldl (fun n c => 10 * n + (c.toNat - '0'.toNat)) 0

/-- The least magnitude that is rounded to infinity. -/
def overflowThreshold : Nat := Nat.pow 2 1024 - Nat.pow 2 970

/-- Whether `digits`, followed by a point and moved by `exponent` places, is a finite double. -/
def isFinite (digits : List Char) (exponent : Int) : Bool :=
  let significant := digits.dropWhile (· == '0')
  let magnitude := significant.length + exponent
  if significant.isEmpty || magnitude ≤ 308 then true
  else if magnitude ≥ 310 then false
  else
    digitsValue significant * Nat.pow 10 exponent.toNat <
      overflowThreshold * Nat.pow 10 (-exponent).toNat

/-- The digits after a decimal point, if there is one, and what follows them. -/
def fraction? (chars : List Char) : Option (List Char × List Char) :=
  match chars with
  | '.' :: rest =>
    let digits := rest.takeWhile Char.isDigit
    if digits.isEmpty then none else some (digits, rest.dropWhile Char.isDigit)
  | _ => some ([], chars)

/-- The exponent, if there is one, whether it is there, and what follows it. -/
def exponent? (chars : List Char) : Option (Int × Bool × List Char) :=
  match chars with
  | c :: rest =>
    if c == 'e' || c == 'E' then
      let (negative, rest) := match rest with
        | '+' :: rest => (false, rest)
        | '-' :: rest => (true, rest)
        | rest => (false, rest)
      let digits := rest.takeWhile Char.isDigit
      if digits.isEmpty then none
      else
        let n : Int := digitsValue digits
        some (if negative then -n else n, true, rest.dropWhile Char.isDigit)
    else some (0, false, chars)
  | [] => some (0, false, [])

/-- A number: no leading zeros, no value that is too large for a double. -/
def number? (chars : List Char) : Option (Json × List Char) := do
  let (negative, unsigned) := match chars with
    | '-' :: rest => (true, rest)
    | _ => (false, chars)
  let whole := unsigned.takeWhile Char.isDigit
  if whole.isEmpty || (whole.head? == some '0' && whole.length > 1) then none
  let (places, rest) ← fraction? (unsigned.dropWhile Char.isDigit)
  let (exponent, hasExponent, rest) ← exponent? rest
  if !isFinite (whole ++ places) (exponent - places.length) then none
  if negative || !places.isEmpty || hasExponent then
    return (.decimal (String.ofList (chars.take (chars.length - rest.length))), rest)
  return (.natural (digitsValue whole), rest)

/-- A value that holds no other values. -/
def scalar? (chars : List Char) : Option (Json × List Char) :=
  match chars with
  | 'n' :: 'u' :: 'l' :: 'l' :: rest => some (.null, rest)
  | 't' :: 'r' :: 'u' :: 'e' :: rest => some (.bool true, rest)
  | 'f' :: 'a' :: 'l' :: 's' :: 'e' :: rest => some (.bool false, rest)
  | '"' :: rest => (stringBody none [] rest).map fun (s, rest) => (.string s, rest)
  | _ => number? chars

/-- The items of an array after its bracket, read by `item`, `limit` of them at most. -/
def items? (item : List Char → Option (Json × List Char)) :
    (limit : Nat) → (read : List Json) → List Char → Option (Json × List Char)
  | 0, _, _ => none
  | limit + 1, read, chars =>
    match item (skipBlanks chars) with
    | none => none
    | some (value, rest) =>
      match skipBlanks rest with
      | ',' :: rest => items? item limit (value :: read) rest
      | ']' :: rest => some (.array (value :: read).reverse, rest)
      | _ => none

/-- A name, a colon and a value that is read by `item`. -/
def field? (item : List Char → Option (Json × List Char)) (chars : List Char) :
    Option ((String × Json) × List Char) :=
  match skipBlanks chars with
  | '"' :: rest =>
    match stringBody none [] rest with
    | none => none
    | some (name, rest) =>
      match skipBlanks rest with
      | ':' :: rest => (item (skipBlanks rest)).map fun (value, rest) => ((name, value), rest)
      | _ => none
  | _ => none

/-- The fields of an object after its brace, `limit` of them at most. -/
def fields? (item : List Char → Option (Json × List Char)) :
    (limit : Nat) → (read : List (String × Json)) → List Char → Option (Json × List Char)
  | 0, _, _ => none
  | limit + 1, read, chars =>
    match field? item chars with
    | none => none
    | some (field, rest) =>
      match skipBlanks rest with
      | ',' :: rest => fields? item limit (field :: read) rest
      | '\x7d' :: rest => some (.object (field :: read).reverse, rest)
      | _ => none

/-- A value that holds others no more than `depth` levels deep. -/
def value? (limit : Nat) : (depth : Nat) → List Char → Option (Json × List Char)
  | 0, chars => scalar? chars
  | depth + 1, chars =>
    match chars with
    | '[' :: rest =>
      match skipBlanks rest with
      | ']' :: rest => some (.array [], rest)
      | rest => items? (value? limit depth) limit [] rest
    | '\x7b' :: rest =>
      match skipBlanks rest with
      | '\x7d' :: rest => some (.object [], rest)
      | rest => fields? (value? limit depth) limit [] rest
    | _ => scalar? chars

end Parser

/-- The deepest nesting of arrays and objects that is read. -/
def maxDepth : Nat := 127

/-- The value at the front of a text. What follows it is not looked at. -/
def ofText? (text : String) : Option Json :=
  let chars := text.toList
  (Parser.value? chars.length maxDepth (Parser.skipBlanks chars)).map Prod.fst

end BlockAudit.Json
