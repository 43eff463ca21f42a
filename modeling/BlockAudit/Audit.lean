import BlockAudit.Activation
import BlockAudit.Client.Fetch
import BlockAudit.Report

/-! Auditing a block and some of its accounts with what a node tells about them. -/
namespace BlockAudit

/-- What an audit is about. -/
structure Subject where
  number : UInt64
  network : String := "mainnet"
  skipReceipts : Bool := false
  accounts : List Address := []
  /-- The slots that are proven for every account. -/
  slots : List Hash := []

inductive AuditError where
  | rules (cause : ScheduleError)
  | client (cause : Client.ClientError)
  | input (cause : Rpc.InputError)

/-- The message, with the error behind it where there is one. -/
def AuditError.message : AuditError → String
  | .rules cause => cause.message
  | .client cause =>
    cause.message ++ (cause.cause?.elim "" fun c => ": " ++ c.message)
  | .input cause => cause.message

inductive Finding where
  | block (check : BlockCheck)
  | account (address : Address) (check : ResponseCheck)

namespace Finding

def isValid : Finding → Bool
  | .block check => check.isValid
  | .account _ check => check.isValid

def report : Finding → String
  | .block check => Report.block check
  | .account address check => Report.response address check

end Finding

/-- The findings up to an error, if there is one. -/
structure Audit where
  findings : List Finding := []
  failure : Option AuditError := none

namespace Audit

def isValid (audit : Audit) : Bool :=
  audit.failure.isNone && audit.findings.all Finding.isValid

variable (policy : Retry.Policy) (transport : Client.Transport) (subject : Subject)

/-- Fetches a block, and its receipts unless they are skipped, and checks it. -/
def checkedBlock (rules : Rules) : Except AuditError (Rpc.Block × BlockCheck) := do
  let block ← (Client.call policy transport (.block subject.number)).result.mapError .client
  let receipts ←
    if subject.skipReceipts then pure none
    else
      let hashes := block.transactions.txHashes
      (Client.receipts policy transport hashes).result.map some |>.mapError .client
  let check ← (checkBlock rules block receipts).mapError .input
  return (block, check)

/-- Fetches and checks what is reported of an account. -/
def checkedAccount (root : Hash) (address : Address) : Except AuditError ResponseCheck := do
  let response ← (Client.call policy transport
    (.proof address subject.slots subject.number)).result.mapError .client
  (checkResponse .empty root address response).mapError .input

/-- Audits accounts in turn up to the first error. -/
def ofAccounts (root : Hash) : List Address → Audit
  | [] => {}
  | address :: rest =>
    match checkedAccount policy transport subject root address with
    | .error error => { failure := some error }
    | .ok check =>
      let audit := ofAccounts root rest
      { audit with findings := .account address check :: audit.findings }

/-- Audits the block and then the accounts, whose proofs start at the state root of the block. -/
def run (schedule : Schedule) : Audit :=
  let rules := (schedule.rulesAt subject.number subject.network).mapError AuditError.rules
  match rules.bind (checkedBlock policy transport subject) with
  | .error error => { failure := some error }
  | .ok (block, check) =>
    let audit := ofAccounts policy transport subject block.stateRoot subject.accounts
    { audit with findings := .block check :: audit.findings }

end Audit

end BlockAudit
