import BlockAudit.Rpc.Scalar
import BlockAudit.Transaction

/-! Transactions as the node lists them. -/
namespace BlockAudit.Rpc

open Json (Reader Record)

/-- Why the node's data cannot be turned into transactions and receipts. -/
inductive InputError where
  | document (cause : Json.DocumentError)
  | invalidHex (value : String) (cause : HexError)
  | missingField (transaction : Hash) (field : String)
  | unsupportedTxType (number : UInt64)
  | invalidStatus (status : String)
  | receiptCount (expected got : Nat)
  | missingTransactions (block : UInt64)
  | trie (cause : Trie.BuildError)
deriving DecidableEq

/-- A document error has no text of its own: it is told by its place. -/
def InputError.message : InputError → String
  | .document .malformed => "Invalid RPC response"
  | .document (.mismatch m) => "Invalid RPC response at " ++ m.pathText
  | .invalidHex value cause => "Invalid hex string " ++ Text.quote value ++ ": " ++ cause.message
  | .missingField transaction field =>
    "Transaction " ++ transaction.hex ++ " is missing " ++ field
  | .unsupportedTxType number => "Unsupported transaction type " ++ toString number.toNat
  | .invalidStatus status => "Invalid receipt status " ++ Text.quote status
  | .receiptCount expected got =>
    "Expected " ++ toString expected ++ " receipts, got " ++ toString got
  | .missingTransactions block =>
    "Block " ++ toString block.toNat ++ " does not include full transaction objects"
  | .trie cause => cause.message

structure Transaction where
  hash : Hash
  nonce : Word
  transactionIndex : Option UInt64
  sender : Option Address
  recipient : Option Address
  gas : Word
  gasPrice : Option Word
  maxFeePerGas : Option Word
  maxPriorityFeePerGas : Option Word
  value : Word
  input : Bytes
  v : Word
  r : Word
  s : Word
  type : Option UInt64
  chainId : Option UInt64
  accessList : List Access
deriving DecidableEq

def accessRecord : Record Access :=
  Access.mk <$> .required "address" address <*> .required "storageKeys" (.list hash)

def access : Reader Access :=
  accessRecord.reader .ignored

def ofAccess (access : Access) : Json :=
  .object [
    ("address", ofFixed access.address),
    ("storageKeys", ofList ofFixed access.storageKeys)]

/-- The envelope a number stands for. None at all is the oldest. -/
def txType (number : Option UInt64) : Except InputError TxType :=
  let number := number.getD 0
  match TxType.ofNumber? number.toNat with
  | some type => .ok type
  | none => .error (.unsupportedTxType number)

namespace Transaction

def record : Record Transaction :=
  Transaction.mk
    <$> .required "hash" Rpc.hash
    <*> .required "nonce" word
    <*> .optional "transactionIndex" uint64
    <*> .optional "from" address
    <*> .optional "to" address
    <*> .required "gas" word
    <*> .optional "gasPrice" word
    <*> .optional "maxFeePerGas" word
    <*> .optional "maxPriorityFeePerGas" word
    <*> .required "value" word
    <*> .required "input" bytes
    <*> .required "v" word
    <*> .required "r" word
    <*> .required "s" word
    <*> .optional "type" uint64
    <*> .optional "chainId" uint64
    <*> .defaulting "accessList" [] (.list access)

def reader : Reader Transaction :=
  record.reader .ignored

def toJson (tx : Transaction) : Json :=
  .object [
    ("hash", ofFixed tx.hash),
    ("nonce", ofWord tx.nonce),
    ("transactionIndex", ofOption ofUInt64 tx.transactionIndex),
    ("from", ofOption ofFixed tx.sender),
    ("to", ofOption ofFixed tx.recipient),
    ("gas", ofWord tx.gas),
    ("gasPrice", ofOption ofWord tx.gasPrice),
    ("maxFeePerGas", ofOption ofWord tx.maxFeePerGas),
    ("maxPriorityFeePerGas", ofOption ofWord tx.maxPriorityFeePerGas),
    ("value", ofWord tx.value),
    ("input", ofBytes tx.input),
    ("v", ofWord tx.v),
    ("r", ofWord tx.r),
    ("s", ofWord tx.s),
    ("type", ofOption ofUInt64 tx.type),
    ("chainId", ofOption ofUInt64 tx.chainId),
    ("accessList", ofList ofAccess tx.accessList)]

/-- A field that the envelope cannot do without. -/
def need {α : Type} (tx : Transaction) (field : String) (value : Option α) :
    Except InputError α :=
  match value with
  | some a => .ok a
  | none => .error (.missingField tx.hash field)

/-- The transaction with every zero in canonical form. -/
def toCanonical (tx : Transaction) : Except InputError BlockAudit.Transaction := do
  let type ← txType tx.type
  let common : BlockAudit.Transaction :=
    { type := type
      nonce := tx.nonce
      gas := tx.gas
      recipient := tx.recipient
      value := tx.value
      data := tx.input
      accessList := tx.accessList
      v := tx.v
      r := tx.r
      s := tx.s }
  match type with
  | .legacy => return { common with gasPrice := ← tx.need "gasPrice" tx.gasPrice }
  | .accessList =>
    return { common with
      chainId := ← tx.need "chainId" tx.chainId
      gasPrice := ← tx.need "gasPrice" tx.gasPrice }
  | .dynamicFee =>
    return { common with
      chainId := ← tx.need "chainId" tx.chainId
      maxPriorityFeePerGas := ← tx.need "maxPriorityFeePerGas" tx.maxPriorityFeePerGas
      maxFeePerGas := ← tx.need "maxFeePerGas" tx.maxFeePerGas }

/-- The transaction with the raw zeros that lead to the reported hash, and with none if no choice
does. -/
def toTransaction (tx : Transaction) : Except InputError BlockAudit.Transaction := do
  let canonical ← tx.toCanonical
  match canonical.rawZeroCandidates.find? fun z => (canonical.withRawZeros z).hash == tx.hash with
  | some zeros => return canonical.withRawZeros zeros
  | none => return canonical

end Transaction

end BlockAudit.Rpc
