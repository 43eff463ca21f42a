import BlockAudit.Json.Reader

/-!
Records: objects whose fields are known by name. Fields are looked at in document order, so the first
that does not fit is reported. Missing fields come after that, in the order of the record.
-/
namespace BlockAudit.Json

/-- A field by its names, the first of them for messages, and what its value has to be. -/
structure FieldSpec where
  name : String
  otherName : Option String
  check : Json → Except Mismatch Unit

def FieldSpec.answersTo (spec : FieldSpec) (name : String) : Bool :=
  spec.name == name || spec.otherName == some name

/-- A description of records: their fields, and the value made of what stands under their names. -/
structure Record (α : Type) where
  fields : List FieldSpec
  build : (String → Option Json) → Except Mismatch α

namespace Record

variable {α β : Type}

instance : Applicative Record where
  pure a := ⟨[], fun _ => .ok a⟩
  seq f x :=
    let x := x ()
    ⟨f.fields ++ x.fields, fun get => do return (← f.build get) (← x.build get)⟩

/-- One field, with `absent` as the outcome where the record does not have it. -/
def field (name : String) (otherName : Option String) (reader : Reader α)
    (absent : Except Mismatch α) : Record α where
  fields := [⟨name, otherName, fun value => (reader value).map fun _ => ()⟩]
  build get := match get name with
    | some value => reader value
    | none => absent

def missing (name : String) : Mismatch :=
  { fault := some (.missing name) }

def required (name : String) (reader : Reader α) : Record α :=
  field name none reader (.error (missing name))

/-- A required field with a second name. -/
def requiredAs (name otherName : String) (reader : Reader α) : Record α :=
  field name (some otherName) reader (.error (missing name))

/-- A field that may be left out, but is not null. -/
def defaulting (name : String) (default : α) (reader : Reader α) : Record α :=
  field name none reader (.ok default)

/-- A field that may be left out or null. -/
def optional (name : String) (reader : Reader α) : Record (Option α) :=
  field name none reader.nullable (.ok none)

/-- Whether fields outside the description are refused. -/
inductive Extras where
  | ignored
  | refused
deriving DecidableEq

/-- Checks the fields of an object in document order and sets aside those that are known, under the
names of their descriptions. -/
def collect (record : Record α) (extras : Extras) (found : List (String × Json)) :
    List (String × Json) → Except Mismatch (List (String × Json))
  | [] => .ok found
  | (name, value) :: rest => do
    match record.fields.find? (·.answersTo name) with
    | some spec =>
      if (found.lookup spec.name).isSome then throw { fault := some (.duplicate spec.name) }
      (spec.check value).mapError (·.within (.field name))
      collect record extras ((spec.name, value) :: found) rest
    | none =>
      if extras = .refused then
        throw { path := [.field name]
                fault := some (.unknown name (record.fields.map (·.name))) }
      collect record extras found rest

/-- Checks values that stand for the fields in their order. -/
def collectItems (index : Nat) (found : List (String × Json)) :
    List FieldSpec → List Json → Except Mismatch (List (String × Json))
  | _, [] => .ok found
  | [], _ :: _ => .error {}
  | spec :: specs, value :: rest => do
    (spec.check value).mapError (·.within (.element index))
    collectItems (index + 1) ((spec.name, value) :: found) specs rest

/-- Reads an object, or an array of the values in the order of the fields. An array that ends too early
has no missing fields by name. -/
def reader (record : Record α) (extras : Extras) : Reader α
  | .object fields => do
    let found ← record.collect extras [] fields
    record.build fun name => found.lookup name
  | .array items => do
    let found ← collectItems 0 [] record.fields items
    (record.build fun name => found.lookup name).mapError fun m => { m with fault := none }
  | _ => .error {}

end Record

end BlockAudit.Json
