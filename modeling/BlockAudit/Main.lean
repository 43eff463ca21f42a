import BlockAudit.Command

/-! The program: reads its input, prints the reports and tells by its exit code whether all is well. -/
namespace BlockAudit.Command

/-- The lines of a stream up to its end, without those that are blank. -/
partial def readLines (stream : IO.FS.Stream) (lines : Array String) : IO (Array String) := do
  let line ← stream.getLine
  if line.isEmpty then return lines
  readLines stream (if (Text.trim line).isEmpty then lines else lines.push line)

def fail (message : String) : IO UInt32 := do
  IO.eprintln ("error: " ++ message)
  return 1

def execute (options : Options) : IO UInt32 := do
  let lines ← readLines (← IO.getStdin) #[]
  match audit options lines.toList with
  | .error error => fail error.message
  | .ok result =>
    for finding in result.findings do
      IO.print finding.report
    match result.failure with
    | some error => fail error.message
    | none => if result.isValid then return 0 else fail "verification failed"

end BlockAudit.Command

def main (args : List String) : IO UInt32 := do
  match BlockAudit.Command.Options.ofArguments args with
  | .ok options => BlockAudit.Command.execute options
  | .error error =>
    IO.eprintln ("error: " ++ error.message)
    IO.eprintln BlockAudit.Command.usage
    return 2
