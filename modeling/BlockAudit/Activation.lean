import BlockAudit.Network
import BlockAudit.Trie.Layout

/-! The rules that decide how a block is hashed, and the heights at which networks adopt them. -/
namespace BlockAudit

/-- The rules in force for one block. -/
structure Rules where
  /-- The merged mining proof and coinbase are left out of the hash. -/
  rskip92 : Bool := false
  /-- Transaction and receipt roots use the current trie layout. -/
  rskip126 : Bool := false
  /-- The header carries a root of united merged mining. -/
  rskipUmm : Bool := false
  /-- Transactions may run in parallel. -/
  rskip144 : Bool := false
  /-- The logs bloom is hashed through a header extension. -/
  rskip351 : Bool := false
deriving DecidableEq

def Rules.layout (rules : Rules) : Trie.Layout :=
  if rules.rskip126 then .rskip107 else .orchid

/-- The first block at which each rule is in force, `none` for never. -/
structure Heights where
  rskip92 : Option UInt64 := none
  rskip126 : Option UInt64 := none
  rskipUmm : Option UInt64 := none
  rskip144 : Option UInt64 := none
  rskip351 : Option UInt64 := none
deriving DecidableEq

namespace Heights

def fromGenesis : Heights := ⟨some 0, some 0, some 0, some 0, some 0⟩

/-- Whether a rule adopted at `height` is in force at block `number`. -/
def isActive (height : Option UInt64) (number : UInt64) : Bool :=
  height.any (· ≤ number)

def rulesAt (heights : Heights) (number : UInt64) : Rules where
  rskip92 := isActive heights.rskip92 number
  rskip126 := isActive heights.rskip126 number
  rskipUmm := isActive heights.rskipUmm number
  rskip144 := isActive heights.rskip144 number
  rskip351 := isActive heights.rskip351 number

end Heights

inductive ScheduleError where
  | unknownNetwork (spelling : String)
deriving DecidableEq

def ScheduleError.message : ScheduleError → String
  | .unknownNetwork spelling => "Unknown network " ++ Text.quote spelling

/-- The heights of networks by name, every name once. -/
structure Schedule where
  entries : List (String × Heights)
deriving DecidableEq

namespace Schedule

def empty : Schedule := ⟨[]⟩

def get? (schedule : Schedule) (name : String) : Option Heights :=
  schedule.entries.lookup name

/-- Sets the heights of one network in place of any it had. -/
def insert (schedule : Schedule) (name : String) (heights : Heights) : Schedule :=
  ⟨(name, heights) :: schedule.entries.filter fun (n, _) => n != name⟩

/-- Every network of `other` replaces the one of that name. -/
def merge (schedule other : Schedule) : Schedule :=
  other.entries.foldr (fun (name, heights) s => s.insert name heights) schedule

/-- The heights of the public networks. -/
def builtin : Schedule where
  entries := [
    ("mainnet", { rskip92 := some 729000, rskip126 := some 729000, rskipUmm := some 2392700 }),
    ("testnet", { rskip92 := some 0, rskip126 := some 0, rskipUmm := some 863000 }),
    ("regtest", .fromGenesis)]

/-- The heights for a name of the schedule, or else for a spelling of a public network. -/
def heights (schedule : Schedule) (spelling : String) : Except ScheduleError Heights :=
  match schedule.get? spelling with
  | some heights => .ok heights
  | none =>
    match (Network.ofSpelling? spelling).bind fun network => schedule.get? network.name with
    | some heights => .ok heights
    | none => .error (.unknownNetwork spelling)

def rulesAt (schedule : Schedule) (number : UInt64) (spelling : String) :
    Except ScheduleError Rules :=
  (schedule.heights spelling).map (·.rulesAt number)

end Schedule

end BlockAudit
