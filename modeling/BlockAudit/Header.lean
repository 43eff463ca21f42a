import BlockAudit.Activation
import BlockAudit.Rlp.Item

/-! Block headers and their hashes under the rules in force. -/
namespace BlockAudit

/-- The hash of an empty list of uncles. -/
def emptyUnclesHash : Hash :=
  keccak [0xc0]

structure Header where
  parentHash : Hash := .zero 32
  unclesHash : Hash := emptyUnclesHash
  coinbase : Address := .zero 20
  stateRoot : Hash := .zero 32
  transactionsRoot : Hash := .zero 32
  receiptsRoot : Hash := .zero 32
  logsBloom : Bloom := .zero 256
  difficulty : Word := 0
  number : UInt64 := 0
  gasLimit : Word := 0
  gasUsed : UInt64 := 0
  timestamp : UInt64 := 0
  extraData : Bytes := []
  paidFees : Word := 0
  minimumGasPrice : Word := 0
  uncleCount : UInt64 := 0
  ummRoot : Option Bytes := none
  /-- The bounds of the lists of transactions that run in parallel. No bounds and an empty list of them
  are told apart. -/
  sublistEdges : Option (List UInt16) := none
  mergedMiningHeader : Bytes := []
  mergedMiningProof : Bytes := []
  mergedMiningCoinbase : Bytes := []
deriving DecidableEq

open Rlp (Item)

/-- The hash that stands for bloom and edges in a header extension. -/
def extensionHash (bloom : Bloom) (edges : Option (List UInt16)) : Hash :=
  let edgeItems := edges.toList.map fun list => Item.list (list.map fun e => .ofNat e.toNat)
  keccak (Item.list (.ofFixed (keccak bloom.toBytes) :: edgeItems)).encode

/-- A header extension: its version and its hash. -/
def extensionData (bloom : Bloom) (edges : Option (List UInt16)) : Bytes :=
  (Item.list [.ofNat 1, .ofFixed (extensionHash bloom edges)]).encode

/-- A gas limit takes four bytes at least. -/
def gasLimitBytes (limit : Word) : Bytes :=
  let digits := bigEndian limit.toNat
  List.replicate (4 - digits.length) 0 ++ digits

/-- A coin amount in two's complement: zero is one zero byte, a leading zero byte keeps it positive. -/
def coinBytes (amount : Word) : Bytes :=
  match bigEndian amount.toNat with
  | [] => [0]
  | first :: rest => if 0x80 ≤ first then 0 :: first :: rest else first :: rest

namespace Header

def hasMergedMining (header : Header) : Bool :=
  !(header.mergedMiningHeader.isEmpty && header.mergedMiningProof.isEmpty &&
    header.mergedMiningCoinbase.isEmpty)

/-- The logs bloom, or the extension that replaces it. -/
def bloomItem (header : Header) (rules : Rules) : Item :=
  if rules.rskip351 then .string (extensionData header.logsBloom header.sublistEdges)
  else .ofFixed header.logsBloom

def ummItems (header : Header) (rules : Rules) : List Item :=
  if rules.rskipUmm then [.string (header.ummRoot.getD [])] else []

def mergedMiningItems (header : Header) (rules : Rules) : List Item :=
  if !header.hasMergedMining then []
  else if rules.rskip92 then [.string header.mergedMiningHeader]
  else
    [.string header.mergedMiningHeader, .string header.mergedMiningProof,
      .string header.mergedMiningCoinbase]

/-- The fields that are hashed, in order. -/
def items (header : Header) (rules : Rules) : List Item :=
  [.ofFixed header.parentHash, .ofFixed header.unclesHash, .ofFixed header.coinbase,
    .ofFixed header.stateRoot, .ofFixed header.transactionsRoot, .ofFixed header.receiptsRoot,
    header.bloomItem rules, .ofWord header.difficulty, .ofUInt64 header.number,
    .string (gasLimitBytes header.gasLimit), .ofUInt64 header.gasUsed,
    .ofUInt64 header.timestamp, .string header.extraData, .ofWord header.paidFees,
    .string (coinBytes header.minimumGasPrice), .ofUInt64 header.uncleCount] ++
  header.ummItems rules ++ header.mergedMiningItems rules

/-- What the block hash is the hash of. -/
def preimage (header : Header) (rules : Rules) : Bytes :=
  (Item.list (header.items rules)).encode

def hash (header : Header) (rules : Rules) : Hash :=
  keccak (header.preimage rules)

end Header

end BlockAudit
