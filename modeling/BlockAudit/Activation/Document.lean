import BlockAudit.Activation
import BlockAudit.Json.Record

/-! Schedules in JSON: an object with the heights of each network under its name. -/
namespace BlockAudit

open Json (Reader Record)

def height : Reader UInt64 := fun value =>
  (Reader.naturalBelow UInt64.size value).map UInt64.ofNat

namespace Heights

def record : Record Heights :=
  Heights.mk <$> .optional "rskip92" height <*> .optional "rskip126" height
    <*> .optional "rskip_umm" height <*> .optional "rskip144" height
    <*> .optional "rskip351" height

/-- A misspelt rule would be easy to overlook, so unknown names are refused. -/
def reader : Reader Heights :=
  record.reader .refused

end Heights

namespace Schedule

/-- Adds networks in document order, the last of a name winning. -/
def readFields (schedule : Schedule) : List (String × Json) → Except Json.Mismatch Schedule
  | [] => .ok schedule
  | (name, value) :: rest => do
    let heights ← (Heights.reader value).mapError (·.within (.field name))
    (schedule.insert name heights).readFields rest

def reader : Reader Schedule
  | .object fields => empty.readFields fields
  | _ => .error {}

def ofText (text : String) : Except Json.DocumentError Schedule :=
  reader.ofText text

/-- The builtin schedule with the networks of a document in place of its own. -/
def withOverrides (document : Option String) : Except Json.DocumentError Schedule :=
  match document with
  | none => .ok builtin
  | some text => (ofText text).map builtin.merge

end Schedule

end BlockAudit
