import BlockAudit.Trie.Rskip107.Decode

/-!
Messages and hashes in the older layout: the number 2, flags, which children are present, path length,
path, the hashes of the children, value. Nothing is written inline but short values.
-/
namespace BlockAudit.Trie

namespace Orchid

def arity : UInt8 := 2

def secureFlag : UInt8 := 0x01

def longValueFlag : UInt8 := 0x02

/-- The message of a node whose children have the given hashes. Only 16 bits of the path length are
written. -/
def messageWith (node : Node) (left right : Option Hash) : Bytes :=
  let present := (if left.isSome then 1 else 0) + (if right.isSome then 2 else 0)
  [arity, if node.isLong then longValueFlag else 0] ++ bigEndianFixed 2 present ++
    bigEndianFixed 2 node.path.length ++ node.path.pack ++
    (left.toList ++ right.toList).flatMap FixedBytes.toBytes ++
    match node.valueHash with
    | some hash => hash.toBytes
    | none => node.value.getD []

/-- The hash of a node whose children have the given hashes. -/
def hashWith (node : Node) (left right : Option Hash) : Hash :=
  if node.isEmptyTrie then emptyTrieHash else keccak (messageWith node left right)

end Orchid

def Child.orchidHash? : Child → Option Hash
  | .absent => none
  | .hashed hash => some hash
  | .inMemory label left right =>
    some (Orchid.hashWith ⟨label, left, right⟩ left.orchidHash? right.orchidHash?)

namespace Node

def orchidMessage (node : Node) : Bytes :=
  Orchid.messageWith node node.left.orchidHash? node.right.orchidHash?

def orchidHash (node : Node) : Hash :=
  Orchid.hashWith node node.left.orchidHash? node.right.orchidHash?

end Node

namespace Orchid

/-- Reads a child at `offset`, and where it ends. -/
def decodeChild (message : Bytes) (present : Bool) (offset : Nat) :
    Except DecodeError (Child × Nat) := do
  if present then return (.hashed (.takeFrom 32 (← field message offset 32)), offset + 32)
  else return (.absent, offset)

/-- Adds the value at `offset` to a label. What follows the hash of a long value is not looked at. -/
def decodeValue (store : ValueStore) (message : Bytes) (isLong : Bool) (offset : Nat)
    (label : Label) : Except DecodeError Label := do
  if isLong then
    let hash := FixedBytes.takeFrom 32 (← field message offset 32)
    let value := store hash
    return { label with
      value, valueLength := .ofNat (value.getD []).length, valueHash := some hash }
  else return label.withInlineValue (message.drop offset)

def decode (store : ValueStore) (message : Bytes) : Except DecodeError Node := do
  let first ← byteField message 0
  if first ≠ arity then throw (.invalidArity first)
  let flags ← byteField message 1
  if flags &&& ~~~(secureFlag ||| longValueFlag) ≠ 0 then throw (.invalidFlags flags.toNat)
  let present := ofBigEndian (← field message 2 2)
  if present > 3 then throw (.invalidFlags present)
  let length := ofBigEndian (← field message 4 2)
  let packed ← field message 6 (BitPath.packedLength length)
  let path ← BitPath.ofPacked packed length
  let (left, offset) ← decodeChild message (present.testBit 0) (6 + packed.length)
  let (right, offset) ← decodeChild message (present.testBit 1) offset
  let label ← decodeValue store message (flags &&& longValueFlag != 0) offset { path }
  return ⟨label, left, right⟩

end Orchid

end BlockAudit.Trie
