/-! Byte strings, byte strings of a fixed size, and numbers in big-endian form. -/
namespace BlockAudit

abbrev Bytes := List UInt8

/-- A byte string of exactly `size` bytes. -/
structure FixedBytes (size : Nat) where
  toBytes : Bytes
  length_toBytes : toBytes.length = size
deriving DecidableEq

/-- A keccak256 digest, or any other 32 bytes that stand for one. -/
abbrev Hash := FixedBytes 32

abbrev Address := FixedBytes 20

/-- A 2048 bit bloom filter. -/
abbrev Bloom := FixedBytes 256

/-- A 256 bit unsigned number. -/
abbrev Word := BitVec 256

namespace FixedBytes

variable {size : Nat}

def ofBytes? (size : Nat) (bytes : Bytes) : Option (FixedBytes size) :=
  if h : bytes.length = size then some ⟨bytes, h⟩ else none

/-- Takes the first `size` bytes, padding with zeros on the right. -/
def takeFrom (size : Nat) (bytes : Bytes) : FixedBytes size :=
  ⟨bytes.take size ++ List.replicate (size - bytes.length) 0, by simp; omega⟩

/-- Keeps the last `size` bytes, padding with zeros on the left. -/
def padLeft (size : Nat) (bytes : Bytes) : FixedBytes size :=
  ⟨List.replicate (size - bytes.length) 0 ++ bytes.drop (bytes.length - size), by simp; omega⟩

def zero (size : Nat) : FixedBytes size :=
  ⟨List.replicate size 0, by simp⟩

theorem toBytes_takeFrom {bytes : Bytes} (h : bytes.length = size) :
    (takeFrom size bytes).toBytes = bytes := by
  simp [takeFrom, ← h]

@[ext] theorem ext {a b : FixedBytes size} (h : a.toBytes = b.toBytes) : a = b := by
  cases a; cases b; simp_all

end FixedBytes

/-- The `size` low bytes of a number, least significant first. -/
def littleEndianFixed : Nat → Nat → Bytes
  | 0, _ => []
  | size + 1, n => UInt8.ofNat n :: littleEndianFixed size (n / 256)

/-- The bytes of a number, least significant first, without zeros at the end. -/
def littleEndian (n : Nat) : Bytes :=
  if n = 0 then [] else UInt8.ofNat n :: littleEndian (n / 256)
termination_by n

/-- The shortest big-endian form of a number. Zero is the empty string. -/
def bigEndian (n : Nat) : Bytes :=
  (littleEndian n).reverse

/-- The `size` low bytes of a number, most significant first. -/
def bigEndianFixed (size n : Nat) : Bytes :=
  (littleEndianFixed size n).reverse

/-- The number whose big-endian digits are `bytes`. -/
def ofBigEndian (bytes : Bytes) : Nat :=
  bytes.foldl (fun n b => 256 * n + b.toNat) 0

/-- The number whose little-endian digits are `bytes`. -/
def ofLittleEndian (bytes : Bytes) : Nat :=
  bytes.foldr (fun b n => b.toNat + 256 * n) 0

/-- Drops the zero bytes at the front. -/
def stripLeadingZeros (bytes : Bytes) : Bytes :=
  bytes.dropWhile (· == 0)

end BlockAudit
