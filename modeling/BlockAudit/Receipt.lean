import BlockAudit.Transaction

/-! Receipts, their encodings and the root of a block's receipts. -/
namespace BlockAudit

structure Log where
  address : Address
  topics : List Hash
  data : Bytes
deriving DecidableEq

structure Receipt where
  /-- The envelope of the transaction. -/
  type : TxType := .legacy
  postTxState : Bytes := []
  cumulativeGas : Word := 0
  logsBloom : Bloom := .zero 256
  logs : List Log := []
  gasUsed : Word := 0
  succeeded : Bool := false
deriving DecidableEq

open Rlp (Item)

def Log.item (log : Log) : Item :=
  .list [.ofFixed log.address, .list (log.topics.map .ofFixed), .string log.data]

namespace Receipt

def item (receipt : Receipt) : Item :=
  .list
    [.string receipt.postTxState, .ofWord receipt.cumulativeGas, .ofFixed receipt.logsBloom,
      .list (receipt.logs.map Log.item), .ofWord receipt.gasUsed, .ofBool receipt.succeeded]

def encode (receipt : Receipt) : Bytes :=
  receipt.type.mark ++ receipt.item.encode

end Receipt

def receiptsRoot (layout : Trie.Layout) (receipts : List Receipt) :
    Except Trie.BuildError Hash :=
  indexedRoot layout (receipts.map Receipt.encode)

end BlockAudit
