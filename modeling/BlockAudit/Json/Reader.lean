import BlockAudit.Json.Parser

/-! Reading typed data out of JSON values, with the place of whatever does not fit. -/
namespace BlockAudit.Json

/-- A step from a value to a part of it. -/
inductive Step where
  | field (name : String)
  | element (index : Nat)
deriving DecidableEq

/-- What is wrong with the names of an object's fields. -/
inductive FieldFault where
  | missing (name : String)
  | duplicate (name : String)
  | unknown (name : String) (expected : List String)
deriving DecidableEq

/-- A name between backticks. -/
def ticked (name : String) : String :=
  "`" ++ name ++ "`"

def FieldFault.message : FieldFault → String
  | .missing name => "missing field " ++ ticked name
  | .duplicate name => "duplicate field " ++ ticked name
  | .unknown name expected =>
    "unknown field " ++ ticked name ++ ", expected one of " ++
      String.intercalate ", " (expected.map ticked)

/-- The place of a value that does not fit. Without a fault, its kind or content is wrong. -/
structure Mismatch where
  path : List Step := []
  fault : Option FieldFault := none
deriving DecidableEq

namespace Mismatch

/-- A mismatch seen from one step further out. -/
def within (step : Step) (m : Mismatch) : Mismatch :=
  { m with path := step :: m.path }

/-- Names are set apart by points, positions stand in brackets. -/
def pathTail : List Step → String
  | [] => ""
  | .field name :: rest => "." ++ name ++ pathTail rest
  | .element index :: rest => "[" ++ toString index ++ "]" ++ pathTail rest

/-- The whole value is a lone point. -/
def pathText (m : Mismatch) : String :=
  match m.path with
  | [] => "."
  | .field name :: rest => name ++ pathTail rest
  | steps => pathTail steps

end Mismatch

abbrev Reader (α : Type) := Json → Except Mismatch α

namespace Reader

variable {α : Type}

def string : Reader String
  | .string s => .ok s
  | _ => .error {}

/-- A string of a certain form. -/
def ofString (parse : String → Option α) : Reader α
  | .string s => match parse s with
    | some a => .ok a
    | none => .error {}
  | _ => .error {}

/-- A number below `bound` without sign, fraction and exponent. -/
def naturalBelow (bound : Nat) : Reader Nat
  | .natural n => if n < bound then .ok n else .error {}
  | _ => .error {}

def nullable (reader : Reader α) : Reader (Option α)
  | .null => .ok none
  | value => (reader value).map some

/-- Reads a value with `default` in place of null. -/
def nullAs (default : α) (reader : Reader α) : Reader α
  | .null => .ok default
  | value => reader value

def listFrom (reader : Reader α) (index : Nat) : List Json → Except Mismatch (List α)
  | [] => .ok []
  | item :: items => do
    let a ← (reader item).mapError (·.within (.element index))
    return a :: (← listFrom reader (index + 1) items)

def list (reader : Reader α) : Reader (List α)
  | .array items => listFrom reader 0 items
  | _ => .error {}

/-- Tries two readers in turn. What either of them finds wrong is not kept. -/
def either (first second : Reader α) : Reader α := fun value =>
  match first value with
  | .ok a => .ok a
  | .error _ =>
    match second value with
    | .ok a => .ok a
    | .error _ => .error {}

end Reader

/-- Why a document cannot be used. -/
inductive DocumentError where
  /-- The text does not begin with a value. -/
  | malformed
  | mismatch (cause : Mismatch)
deriving DecidableEq

/-- Reads the value at the front of a text. -/
def Reader.ofText {α : Type} (reader : Reader α) (text : String) : Except DocumentError α :=
  match Json.ofText? text with
  | none => .error .malformed
  | some value => (reader value).mapError .mismatch

end BlockAudit.Json
