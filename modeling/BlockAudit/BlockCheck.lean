import BlockAudit.Rpc.Block
import BlockAudit.Rpc.Receipt

/-! Recomputing the hashes that a block commits to. -/
namespace BlockAudit

/-- A reported hash next to the one computed here. -/
structure HashCheck where
  expected : Hash
  computed : Hash
deriving DecidableEq

namespace HashCheck

def isMatch (check : HashCheck) : Bool :=
  check.expected == check.computed

def text (check : HashCheck) : String :=
  if check.isMatch then check.computed.markedHex ++ " (ok)"
  else
    "expected " ++ check.expected.markedHex ++ ", computed " ++ check.computed.markedHex ++
      " (MISMATCH)"

end HashCheck

structure BlockCheck where
  number : UInt64
  rules : Rules
  blockHash : HashCheck
  transactionsRoot : HashCheck
  /-- Only checked where receipts are given. -/
  receiptsRoot : Option HashCheck
deriving DecidableEq

namespace BlockCheck

/-- The checks under their names. -/
def checks (check : BlockCheck) : List (String × HashCheck) :=
  [("block hash", check.blockHash), ("transactions root", check.transactionsRoot)] ++
    check.receiptsRoot.toList.map fun c => ("receipts root", c)

def isValid (check : BlockCheck) : Bool :=
  check.checks.all fun (_, c) => c.isMatch

/-- The receipts of transactions of the given types. Without a type of its own a receipt has that of its
transaction. -/
def typedReceipts : List Rpc.Receipt → List TxType → Except Rpc.InputError (List Receipt)
  | receipt :: receipts, type :: types => do
    let decoded ← receipt.toReceipt
    let typed := if receipt.type.isNone then { decoded with type := type } else decoded
    return typed :: (← typedReceipts receipts types)
  | _, _ => .ok []

/-- The receipts in the order of their transactions, one for each. -/
def orderedReceipts (receipts : List Rpc.Receipt) (types : List TxType) :
    Except Rpc.InputError (List Receipt) :=
  if receipts.length ≠ types.length then
    .error (.receiptCount types.length receipts.length)
  else
    typedReceipts
      (receipts.mergeSort fun a b => a.transactionIndex ≤ b.transactionIndex) types

end BlockCheck

/-- Computes the block hash, the root of the transactions and, where receipts are given, their root. -/
def checkBlock (rules : Rules) (block : Rpc.Block) (receipts : Option (List Rpc.Receipt)) :
    Except Rpc.InputError BlockCheck := do
  let txs ← block.toTransactions
  let txRoot ← (transactionsRoot rules.layout txs).mapError .trie
  let receiptCheck ← match receipts with
    | none => pure none
    | some receipts => do
      let ordered ← BlockCheck.orderedReceipts receipts (txs.map (·.type))
      let root ← (receiptsRoot rules.layout ordered).mapError .trie
      pure (some ⟨block.receiptsRoot, root⟩)
  return {
    number := block.number
    rules := rules
    blockHash := ⟨block.hash, block.header.hash rules⟩
    transactionsRoot := ⟨block.transactionsRoot, txRoot⟩
    receiptsRoot := receiptCheck }

end BlockAudit
