import BlockAudit.Header
import BlockAudit.Rpc.Transaction

/-! Blocks as the node describes them. -/
namespace BlockAudit.Rpc

open Json (Reader Record)

/-- The transactions of a block, which a node lists in full or by their hashes. -/
inductive Transactions where
  | full (txs : List Transaction)
  | hashes (list : List Hash)
deriving DecidableEq

namespace Transactions

def count : Transactions → Nat
  | .full txs => txs.length
  | .hashes list => list.length

def txHashes : Transactions → List Hash
  | .full txs => txs.map (·.hash)
  | .hashes list => list

def reader : Reader Transactions :=
  .either (fun value => (Reader.list Transaction.reader value).map .full)
    (fun value => (Reader.list hash value).map .hashes)

def toJson : Transactions → Json
  | .full txs => ofList Transaction.toJson txs
  | .hashes list => ofList ofFixed list

end Transactions

structure Block where
  number : UInt64
  hash : Hash
  parentHash : Hash
  unclesHash : Hash
  miner : Address
  stateRoot : Hash
  transactionsRoot : Hash
  receiptsRoot : Hash
  logsBloom : Bloom
  difficulty : Word
  gasLimit : Word
  gasUsed : UInt64
  timestamp : UInt64
  extraData : Bytes
  paidFees : Word
  minimumGasPrice : Word
  uncles : List Hash
  ummRoot : Bytes
  sublistEdges : Option (List UInt16)
  mergedMiningHeader : Bytes
  mergedMiningProof : Bytes
  mergedMiningCoinbase : Bytes
  transactions : Transactions
deriving DecidableEq

def edge : Reader UInt16 := fun value =>
  (Reader.naturalBelow UInt16.size value).map UInt16.ofNat

namespace Block

def record : Record Block :=
  Block.mk
    <$> .required "number" uint64
    <*> .required "hash" Rpc.hash
    <*> .required "parentHash" Rpc.hash
    <*> .required "sha3Uncles" Rpc.hash
    <*> .required "miner" address
    <*> .required "stateRoot" Rpc.hash
    <*> .required "transactionsRoot" Rpc.hash
    <*> .required "receiptsRoot" Rpc.hash
    <*> .required "logsBloom" bloom
    <*> .required "difficulty" word
    <*> .required "gasLimit" word
    <*> .required "gasUsed" uint64
    <*> .required "timestamp" uint64
    <*> .required "extraData" bytes
    <*> .defaulting "paidFees" 0 word
    <*> .defaulting "minimumGasPrice" 0 word
    <*> .defaulting "uncles" [] (.list Rpc.hash)
    <*> .defaulting "ummRoot" [] bytes
    <*> .optional "rskPteEdges" (.list edge)
    <*> .defaulting "bitcoinMergedMiningHeader" [] bytes
    <*> .defaulting "bitcoinMergedMiningMerkleProof" [] bytes
    <*> .defaulting "bitcoinMergedMiningCoinbaseTransaction" [] bytes
    <*> .defaulting "transactions" (.full []) Transactions.reader

def reader : Reader Block :=
  record.reader .ignored

def toJson (block : Block) : Json :=
  .object [
    ("number", ofUInt64 block.number),
    ("hash", ofFixed block.hash),
    ("parentHash", ofFixed block.parentHash),
    ("sha3Uncles", ofFixed block.unclesHash),
    ("miner", ofFixed block.miner),
    ("stateRoot", ofFixed block.stateRoot),
    ("transactionsRoot", ofFixed block.transactionsRoot),
    ("receiptsRoot", ofFixed block.receiptsRoot),
    ("logsBloom", ofFixed block.logsBloom),
    ("difficulty", ofWord block.difficulty),
    ("gasLimit", ofWord block.gasLimit),
    ("gasUsed", ofUInt64 block.gasUsed),
    ("timestamp", ofUInt64 block.timestamp),
    ("extraData", ofBytes block.extraData),
    ("paidFees", ofWord block.paidFees),
    ("minimumGasPrice", ofWord block.minimumGasPrice),
    ("uncles", ofList ofFixed block.uncles),
    ("ummRoot", ofBytes block.ummRoot),
    ("rskPteEdges", ofOption (ofList fun e => .natural e.toNat) block.sublistEdges),
    ("bitcoinMergedMiningHeader", ofBytes block.mergedMiningHeader),
    ("bitcoinMergedMiningMerkleProof", ofBytes block.mergedMiningProof),
    ("bitcoinMergedMiningCoinbaseTransaction", ofBytes block.mergedMiningCoinbase),
    ("transactions", block.transactions.toJson)]

/-- The block's transactions, which have to be listed in full. -/
def toTransactions (block : Block) : Except InputError (List BlockAudit.Transaction) :=
  match block.transactions with
  | .full txs => txs.mapM Transaction.toTransaction
  | .hashes [] => .ok []
  | .hashes _ => .error (.missingTransactions block.number)

def header (block : Block) : Header where
  parentHash := block.parentHash
  unclesHash := block.unclesHash
  coinbase := block.miner
  stateRoot := block.stateRoot
  transactionsRoot := block.transactionsRoot
  receiptsRoot := block.receiptsRoot
  logsBloom := block.logsBloom
  difficulty := block.difficulty
  number := block.number
  gasLimit := block.gasLimit
  gasUsed := block.gasUsed
  timestamp := block.timestamp
  extraData := block.extraData
  paidFees := block.paidFees
  minimumGasPrice := block.minimumGasPrice
  uncleCount := .ofNat block.uncles.length
  ummRoot := if block.ummRoot.isEmpty then none else some block.ummRoot
  sublistEdges := block.sublistEdges
  mergedMiningHeader := block.mergedMiningHeader
  mergedMiningProof := block.mergedMiningProof
  mergedMiningCoinbase := block.mergedMiningCoinbase

end Block

end BlockAudit.Rpc
