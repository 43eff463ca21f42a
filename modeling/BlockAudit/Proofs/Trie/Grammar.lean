import BlockAudit.Trie.Rskip107.Decode

/-!
The grammar of messages in the current layout, said without the reader: which byte strings spell a
number, a path or a node. Numbers and lengths have several spellings, and some bits are free.
-/
namespace BlockAudit

/-- The bytes that spell a number: one byte below the markers, or a marker and little-endian digits of
the width it stands for. A number may be spelled wider than it has to be. -/
inductive VarInt.Spells : Bytes → UInt64 → Prop where
  | byte {b : UInt8} (h : b < 0xfd) : Spells [b] b.toUInt64
  | two {digits : Bytes} (h : digits.length = 2) :
      Spells (0xfd :: digits) (.ofNat (ofLittleEndian digits))
  | four {digits : Bytes} (h : digits.length = 4) :
      Spells (0xfe :: digits) (.ofNat (ofLittleEndian digits))
  | eight {digits : Bytes} (h : digits.length = 8) :
      Spells (0xff :: digits) (.ofNat (ofLittleEndian digits))

namespace Trie

namespace SharedPath

/-- The bytes that announce the length of a path in bits: a byte of its own for the lengths from 1 to 32
and from 160 to 382, and after the marker any length up to the longest. -/
inductive Announces : Bytes → Nat → Prop where
  | low {b : UInt8} (h : b ≤ 31) : Announces [b] (b.toNat + 1)
  | high {b : UInt8} (hlow : 32 ≤ b) (hhigh : b ≤ 254) : Announces [b] (b.toNat + 128)
  | marked {digits : Bytes} {length : UInt64} (h : VarInt.Spells digits length)
      (hmax : length.toNat ≤ maxLength) : Announces (255 :: digits) length.toNat

/-- A length and as many bytes as its bits fill. The bits after them are free. -/
inductive Spells : Bytes → BitPath → Prop where
  | packed {front packed : Bytes} {length : Nat} (hfront : Announces front length)
      (hpacked : packed.length = (length + 7) / 8) :
      Spells (front ++ packed) ((BitPath.ofBytes packed).take length)

end SharedPath

namespace Rskip107

/-- The six flags as a number, the long value first. -/
def Flags.number (flags : Flags) : Nat :=
  32 * flags.longValue.toNat + 16 * flags.sharedPath.toNat + 8 * flags.leftPresent.toNat +
    4 * flags.rightPresent.toNat + 2 * flags.leftInline.toNat + flags.rightInline.toNat

/-- The part of a message for the path, which may be missing. -/
inductive PathPart : Bool → Bytes → BitPath → Prop where
  | absent : PathPart false [] []
  | present {bytes : Bytes} {path : BitPath} (h : SharedPath.Spells bytes path) :
      PathPart true bytes path

/-- The part for the size of the subtree, which may be missing. -/
inductive SizePart : Bool → Bytes → Option UInt64 → Prop where
  | absent : SizePart false [] none
  | present {bytes : Bytes} {size : UInt64} (h : VarInt.Spells bytes size) :
      SizePart true bytes (some size)

/-- The part for the value, which ends a message: a hash and three bytes for a long value, else the
value in full. `label` has the other fields of the node. -/
inductive ValuePart (store : ValueStore) (label : Label) : Bool → Bytes → Label → Prop where
  | long {hash : Hash} {digits : Bytes} (h : digits.length = 3) :
      ValuePart store label true (hash.toBytes ++ digits)
        { label with
          value := store hash, valueLength := .ofNat (ofBigEndian digits), valueHash := some hash }
  | none : ValuePart store label false [] label
  | inline {bytes : Bytes} (h : bytes ≠ []) :
      ValuePart store label false bytes
        { label with value := some bytes, valueLength := .ofNat bytes.length }

mutual

/-- The part for one side: nothing, a hash, or a message after its length. The flag for a message
inside is free where nothing is present. -/
inductive ChildPart (store : ValueStore) : Bool → Bool → Bytes → Child → Prop where
  | absent {inlined : Bool} : ChildPart store false inlined [] .absent
  | hashed {hash : Hash} : ChildPart store true false hash.toBytes (.hashed hash)
  | inMemory {declared : UInt8} {inside : Bytes} {node : Node}
      (hlength : inside.length = declared.toNat) (h : Denotes store inside node) :
      ChildPart store true true (declared :: inside) node.toChild

/-- The messages that denote a node. The two top bits of the first byte are free. -/
inductive Denotes (store : ValueStore) : Bytes → Node → Prop where
  | parts {first : UInt8} {flags : Flags} {path left right size value : Bytes} {bits : BitPath}
      {leftChild rightChild : Child} {below : Option UInt64} {label : Label}
      (hflags : first.toNat % 64 = flags.number)
      (hpath : PathPart flags.sharedPath path bits)
      (hleft : ChildPart store flags.leftPresent flags.leftInline left leftChild)
      (hright : ChildPart store flags.rightPresent flags.rightInline right rightChild)
      (hsize : SizePart (flags.leftPresent || flags.rightPresent) size below)
      (hvalue : ValuePart store { path := bits, childrenSize := below } flags.longValue value
        label) :
      Denotes store (first :: (path ++ (left ++ (right ++ (size ++ value)))))
        ⟨label, leftChild, rightChild⟩

end

end Rskip107

end Trie

end BlockAudit
