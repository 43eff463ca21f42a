import BlockAudit.Json.Value

/-! Objects with their fields in ascending order of names, each name once. -/
namespace BlockAudit.Json

/-- Puts a field in its place, instead of one with the same name. -/
def insertField (name : String) (value : Json) : List (String × Json) → List (String × Json)
  | [] => [(name, value)]
  | (n, v) :: rest =>
    if name < n then (name, value) :: (n, v) :: rest
    else if name == n then (name, value) :: rest
    else (n, v) :: insertField name value rest

mutual

/-- Sorts the fields at every level. Of several with one name the last is kept. -/
def sorted : Json → Json
  | .array items => .array (sortedItems items)
  | .object fields => .object (sortedFields [] fields)
  | value => value

def sortedItems : List Json → List Json
  | [] => []
  | item :: items => sorted item :: sortedItems items

def sortedFields (done : List (String × Json)) : List (String × Json) → List (String × Json)
  | [] => done
  | (name, value) :: fields => sortedFields (insertField name (sorted value) done) fields

end

end BlockAudit.Json
