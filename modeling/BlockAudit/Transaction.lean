import BlockAudit.IndexedRoot

/-! Signed transactions, their encodings and the root of a block's transactions. -/
namespace BlockAudit

/-- The envelope of a transaction. -/
inductive TxType where
  | legacy
  | accessList
  | dynamicFee
deriving DecidableEq

namespace TxType

def name : TxType → String
  | .legacy => "Legacy"
  | .accessList => "AccessList"
  | .dynamicFee => "DynamicFee"

def ofNumber? : Nat → Option TxType
  | 0 => some .legacy
  | 1 => some .accessList
  | 2 => some .dynamicFee
  | _ => none

/-- The byte in front of the encoding. The oldest envelope has none. -/
def mark : TxType → Bytes
  | .legacy => []
  | .accessList => [1]
  | .dynamicFee => [2]

end TxType

/-- An account and some of its slots, announced as going to be used. -/
structure Access where
  address : Address
  storageKeys : List Hash
deriving DecidableEq

/-- The fields that a sender wrote as the byte 00 instead of an empty string. It matters for zeros
only. -/
structure RawZeros where
  nonce : Bool := false
  gasPrice : Bool := false
  value : Bool := false
deriving DecidableEq

/-- All choices, the one without raw zeros first. -/
def RawZeros.all : List RawZeros :=
  [⟨false, false, false⟩, ⟨true, false, false⟩, ⟨false, true, false⟩, ⟨true, true, false⟩,
    ⟨false, false, true⟩, ⟨true, false, true⟩, ⟨false, true, true⟩, ⟨true, true, true⟩]

structure Transaction where
  type : TxType := .legacy
  chainId : UInt64 := 0
  nonce : Word := 0
  gasPrice : Word := 0
  maxPriorityFeePerGas : Word := 0
  maxFeePerGas : Word := 0
  gas : Word := 0
  /-- The receiver, `none` where a contract is created. -/
  recipient : Option Address := none
  value : Word := 0
  data : Bytes := []
  accessList : List Access := []
  v : Word := 0
  r : Word := 0
  s : Word := 0
  rawZeros : RawZeros := {}
deriving DecidableEq

open Rlp (Item)

def Access.item (access : Access) : Item :=
  .list [.ofFixed access.address, .list (access.storageKeys.map .ofFixed)]

/-- A number, zero as the byte 00 if `rawZero` is set. -/
def amountItem (amount : Word) (rawZero : Bool) : Item :=
  if rawZero && amount == 0 then .string [0] else .ofWord amount

namespace Transaction

def feeItems (tx : Transaction) : List Item :=
  match tx.type with
  | .legacy | .accessList => [amountItem tx.gasPrice tx.rawZeros.gasPrice]
  | .dynamicFee => [.ofWord tx.maxPriorityFeePerGas, .ofWord tx.maxFeePerGas]

def recipientItem (tx : Transaction) : Item :=
  .string (tx.recipient.elim [] FixedBytes.toBytes)

/-- The fields in order. Only typed transactions have a chain id and an access list. -/
def items (tx : Transaction) : List Item :=
  let isTyped := tx.type != .legacy
  (if isTyped then [.ofUInt64 tx.chainId] else []) ++
    [amountItem tx.nonce tx.rawZeros.nonce] ++ tx.feeItems ++
    [.ofWord tx.gas, tx.recipientItem, amountItem tx.value tx.rawZeros.value, .string tx.data] ++
    (if isTyped then [.list (tx.accessList.map Access.item)] else []) ++
    [.ofWord tx.v, .ofWord tx.r, .ofWord tx.s]

def encode (tx : Transaction) : Bytes :=
  tx.type.mark ++ (Item.list tx.items).encode

def hash (tx : Transaction) : Hash :=
  keccak tx.encode

/-- Whether every raw zero of the choice stands in a field that is encoded and zero. -/
def admits (tx : Transaction) (zeros : RawZeros) : Bool :=
  (!zeros.nonce || tx.nonce == 0) &&
    (!zeros.gasPrice || (tx.gasPrice == 0 && tx.type != .dynamicFee)) &&
    (!zeros.value || tx.value == 0)

/-- The choices of raw zeros that lead to different encodings. -/
def rawZeroCandidates (tx : Transaction) : List RawZeros :=
  RawZeros.all.filter tx.admits

def withRawZeros (tx : Transaction) (zeros : RawZeros) : Transaction :=
  { tx with rawZeros := zeros }

end Transaction

def transactionsRoot (layout : Trie.Layout) (txs : List Transaction) :
    Except Trie.BuildError Hash :=
  indexedRoot layout (txs.map Transaction.encode)

end BlockAudit
