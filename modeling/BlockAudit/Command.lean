import BlockAudit.Activation.Document
import BlockAudit.Argument
import BlockAudit.Audit
import BlockAudit.Client.Transcript

/-!
The command line. Input is one document a line: the recorded exchanges with the node, after a line with
activation heights if the options say so.
-/
namespace BlockAudit.Command

structure Options where
  subject : Subject
  policy : Retry.Policy := { backoff := .ofMillis 0, maxRetries := 0 }
  /-- Whether the input starts with activation heights. -/
  activations : Bool := false

inductive UsageError where
  | missingNumber
  | invalidNumber (text : String)
  | invalidArgument (cause : Argument.ArgumentError)
  | missingValue (option : String)
  | unknownOption (option : String)
  | slotsWithoutAccount

def UsageError.message : UsageError → String
  | .missingNumber => "a block number is required"
  | .invalidNumber text => "not a number in range: " ++ Text.quote text
  | .invalidArgument cause => cause.message
  | .missingValue option => option ++ " needs a value"
  | .unknownOption option => "unknown option " ++ option
  | .slotsWithoutAccount => "--slot needs an --account"

def usage : String :=
  "usage: block-audit NUMBER [--network NAME] [--activations] [--skip-receipts] " ++
    "[--account ADDRESS]... [--slot SLOT]... [--backoff MS] [--max-retries COUNT]"

namespace Options

def number (text : String) : Except UsageError UInt64 :=
  match Text.unsigned? 10 text with
  | some n => .ok n
  | none => .error (.invalidNumber text)

/-- A count that fits into 32 bits. -/
def count (text : String) : Except UsageError Nat := do
  let n ← number text
  if n.toNat < UInt32.size then return n.toNat
  throw (.invalidNumber text)

/-- Takes up an option that has a value. -/
def withValue (options : Options) (name value : String) : Except UsageError Options := do
  let subject := options.subject
  match name with
  | "--network" => return { options with subject := { subject with network := value } }
  | "--account" =>
    let address ← (Argument.address value).mapError .invalidArgument
    return { options with subject := { subject with accounts := subject.accounts ++ [address] } }
  | "--slot" =>
    let slot ← (Argument.slot value).mapError .invalidArgument
    return { options with subject := { subject with slots := subject.slots ++ [slot] } }
  | "--backoff" =>
    return { options with policy := { options.policy with backoff := .ofMillis (← number value).toNat } }
  | "--max-retries" =>
    return { options with policy := { options.policy with maxRetries := ← count value } }
  | _ => throw (.unknownOption name)

/-- Takes up the arguments in turn. -/
def withArguments (options : Options) : List String → Except UsageError Options
  | [] =>
    if options.subject.accounts.isEmpty && !options.subject.slots.isEmpty then
      .error .slotsWithoutAccount
    else .ok options
  | "--activations" :: rest => withArguments { options with activations := true } rest
  | "--skip-receipts" :: rest =>
    withArguments { options with subject := { options.subject with skipReceipts := true } } rest
  | [name] => .error (.missingValue name)
  | name :: value :: rest => do (← options.withValue name value).withArguments rest

def ofArguments : List String → Except UsageError Options
  | [] => .error .missingNumber
  | text :: rest => do ({ subject := { number := ← number text } } : Options).withArguments rest

end Options

/-- A line of the input that cannot be used. -/
inductive LineError where
  | activations (cause : Json.DocumentError)
  | exchange (line : Nat) (cause : Json.DocumentError)

def LineError.message : LineError → String
  | .activations cause => "activation heights: " ++ place cause
  | .exchange line cause => "exchange " ++ toString line ++ ": " ++ place cause
where
  place : Json.DocumentError → String
    | .malformed => "not a JSON document"
    | .mismatch m => "invalid at " ++ m.pathText ++ (m.fault.elim "" fun f => ": " ++ f.message)

/-- Exchanges, one a line, counted from `line`. -/
def exchanges (line : Nat) : List String → Except LineError (List Client.Exchange)
  | [] => .ok []
  | text :: rest => do
    let exchange ← (Client.Exchange.reader.ofText text).mapError (.exchange line)
    return exchange :: (← exchanges (line + 1) rest)

/-- Audits what the options ask for with the lines of the input. -/
def audit (options : Options) (input : List String) : Except LineError Audit := do
  let (heights, rest) := match options.activations, input with
    | true, heights :: rest => (some heights, rest)
    | true, [] => (some "", [])
    | false, lines => (none, lines)
  let schedule ← (Schedule.withOverrides heights).mapError .activations
  let transport := Client.replay (← exchanges 1 rest)
  return Audit.run options.policy transport options.subject schedule

end BlockAudit.Command
