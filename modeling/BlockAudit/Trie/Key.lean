import BlockAudit.Keccak

/-! The keys of accounts, contract code and storage slots in the state trie. -/
namespace BlockAudit.Trie

/-- The key suffix of a storage slot whose bytes are all zero. -/
inductive ZeroSlot where
  | empty
  | singleZero
deriving DecidableEq

namespace Key

/-- The front part of the hash of `material`, which spreads keys evenly. -/
def securePart (material : Bytes) : Bytes :=
  (keccak material).toBytes.take 10

def account (address : Address) : Bytes :=
  0x00 :: securePart address.toBytes ++ address.toBytes

def code (address : Address) : Bytes :=
  account address ++ [0x80]

/-- What the keys of all slots of an account begin with. -/
def storageStem (address : Address) : Bytes :=
  account address ++ [0x00]

/-- A slot without its leading zeros. -/
def slotSuffix (zeroSlot : ZeroSlot) (slot : Hash) : Bytes :=
  match stripLeadingZeros slot.toBytes, zeroSlot with
  | [], .singleZero => [0x00]
  | stripped, _ => stripped

def storage (zeroSlot : ZeroSlot) (address : Address) (slot : Hash) : Bytes :=
  storageStem address ++ securePart slot.toBytes ++ slotSuffix zeroSlot slot

end Key

end BlockAudit.Trie
