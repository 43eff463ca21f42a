import BlockAudit.Receipt
import BlockAudit.Rpc.Transaction
import BlockAudit.Text.Numeral

/-! Receipts as the node describes them. -/
namespace BlockAudit.Rpc

open Json (Reader Record)

structure Receipt where
  transactionHash : Hash
  transactionIndex : UInt64
  cumulativeGasUsed : Word
  gasUsed : Word
  logsBloom : Bloom
  logs : List Log
  /-- The state after the transaction, which most nodes leave out. -/
  root : Bytes
  status : Option String
  type : Option UInt64
deriving DecidableEq

def logRecord : Record Log :=
  Log.mk <$> .required "address" address <*> .required "topics" (.list hash)
    <*> .required "data" bytes

def log : Reader Log :=
  logRecord.reader .ignored

def ofLog (log : Log) : Json :=
  .object [
    ("address", ofFixed log.address),
    ("topics", ofList ofFixed log.topics),
    ("data", ofBytes log.data)]

/-- Whether a status stands for success. No status and no digits stand for failure. -/
def succeeded (status : Option String) : Except InputError Bool :=
  match status with
  | none => .ok false
  | some text =>
    let digits := stripHexMark text
    match Text.unsigned? 16 digits with
    | some 0 => .ok false
    | some 1 => .ok true
    | _ => if digits.isEmpty then .ok false else .error (.invalidStatus text)

namespace Receipt

def record : Record Receipt :=
  Receipt.mk
    <$> .required "transactionHash" hash
    <*> .required "transactionIndex" uint64
    <*> .required "cumulativeGasUsed" word
    <*> .required "gasUsed" word
    <*> .required "logsBloom" bloom
    <*> .defaulting "logs" [] (.list log)
    <*> .defaulting "root" [] bytes
    <*> .optional "status" .string
    <*> .optional "type" uint64

def reader : Reader Receipt :=
  record.reader .ignored

def toJson (receipt : Receipt) : Json :=
  .object [
    ("transactionHash", ofFixed receipt.transactionHash),
    ("transactionIndex", ofUInt64 receipt.transactionIndex),
    ("cumulativeGasUsed", ofWord receipt.cumulativeGasUsed),
    ("gasUsed", ofWord receipt.gasUsed),
    ("logsBloom", ofFixed receipt.logsBloom),
    ("logs", ofList ofLog receipt.logs),
    ("root", ofBytes receipt.root),
    ("status", ofOption .string receipt.status),
    ("type", ofOption ofUInt64 receipt.type)]

/-- The receipt of a transaction of the oldest envelope unless a type is given. -/
def toReceipt (receipt : Receipt) : Except InputError BlockAudit.Receipt := do
  let type ← txType receipt.type
  let succeeded ← succeeded receipt.status
  return {
    type := type
    postTxState := receipt.root
    cumulativeGas := receipt.cumulativeGasUsed
    logsBloom := receipt.logsBloom
    logs := receipt.logs
    gasUsed := receipt.gasUsed
    succeeded := succeeded }

end Receipt

end BlockAudit.Rpc
