import BlockAudit.BlockCheck
import BlockAudit.ResponseCheck

/-! Reports on checks for people to read. -/
namespace BlockAudit.Report

def verdict (ok : Bool) : String :=
  if ok then "ok" else "MISMATCH"

def truth (b : Bool) : String :=
  if b then "true" else "false"

/-- A name filled up with blanks to a column of 18 characters. -/
def column (name : String) : String :=
  name ++ String.ofList (List.replicate (18 - name.length) ' ')

def unlines (lines : List String) : String :=
  String.join (lines.map (· ++ "\n"))

def rulesLine (rules : Rules) : String :=
  "  rules: rskip92=" ++ truth rules.rskip92 ++ " rskip126=" ++ truth rules.rskip126 ++
    " umm=" ++ truth rules.rskipUmm ++ " rskip144=" ++ truth rules.rskip144 ++
    " rskip351=" ++ truth rules.rskip351 ++ " trie=" ++ rules.layout.name

def checkLine (name : String) (outcome : String) : String :=
  "  " ++ column name ++ " " ++ outcome

def blockLines (check : BlockCheck) : List String :=
  ["Block " ++ toString check.number.toNat, rulesLine check.rules] ++
    check.checks.map (fun (name, c) => checkLine name c.text) ++
    if check.receiptsRoot.isNone then [checkLine "receipts root" "not checked"] else []

def block (check : BlockCheck) : String :=
  unlines (blockLines check)

/-- What a proof says of a value. -/
def provenText (verdict : Verdict) : String :=
  match verdict.value?, verdict.valueHash? with
  | some value, _ => Hex.encodeMarked value
  | none, some hash => "long value with hash " ++ hash.markedHex
  | none, none => "absent"

def storageLine (check : StorageCheck) : String :=
  let slot := "    slot " ++ check.slot.markedHex ++ ": "
  match check.verdict.error? with
  | some error => slot ++ "invalid proof: " ++ error.message
  | none =>
    slot ++ provenText check.verdict ++ " (reported " ++ Hex.encodeMarked check.reported ++ ") (" ++
      verdict check.matchesReport ++ ")"

def accountLine (check : ResponseCheck) : String :=
  match check.account.error?, check.state with
  | some error, _ => "  invalid proof: " ++ error.message
  | none, some state =>
    "  nonce " ++ toString state.nonce.toNat ++ " balance " ++ toString state.balance.toNat ++
      " (" ++ verdict check.accountMatches ++ ")"
  | none, none => "  absent (" ++ verdict check.accountMatches ++ ")"

def responseLines (address : Address) (check : ResponseCheck) : List String :=
  ["Account " ++ address.markedHex, accountLine check] ++
    (if check.storage.isEmpty then [] else ["  storage:"]) ++ check.storage.map storageLine

def response (address : Address) (check : ResponseCheck) : String :=
  unlines (responseLines address check)

end BlockAudit.Report
