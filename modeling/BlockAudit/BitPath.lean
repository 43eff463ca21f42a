import BlockAudit.Bytes

/-! Paths of bits through the trie, and their packed form in bytes. -/
namespace BlockAudit

/-- The bits of a key in order, `false` leading left and `true` right. -/
abbrev BitPath := List Bool

inductive BitPathError where
  | outOfBounds (index length : Nat)
  | packedTooShort (length available : Nat)
deriving DecidableEq

def BitPathError.message : BitPathError → String
  | .outOfBounds index length =>
    "Tried to read bit " ++ toString index ++ " of a path that is only " ++ toString length ++
      " bits long"
  | .packedTooShort length available =>
    "Packed path of " ++ toString available ++ " bytes cannot hold " ++ toString length ++ " bits"

namespace BitPath

/-- The bits of a byte, most significant first. -/
def ofByte (byte : UInt8) : BitPath :=
  (List.range 8).map fun i => byte.toNat.testBit (7 - i)

def ofBytes (bytes : Bytes) : BitPath :=
  bytes.flatMap ofByte

/-- The bytes that hold `length` bits. -/
def packedLength (length : Nat) : Nat :=
  (length + 7) / 8

/-- The first `length` bits of a packed path. The bits after them are ignored. -/
def ofPacked (packed : Bytes) (length : Nat) : Except BitPathError BitPath :=
  if packed.length < packedLength length then .error (.packedTooShort length packed.length)
  else .ok ((ofBytes packed).take length)

/-- The byte whose leading bits are `bits` and whose other bits are zero. -/
def packByte (bits : BitPath) : UInt8 :=
  UInt8.ofNat ((bits ++ List.replicate (8 - bits.length) false).foldl (fun n b => 2 * n + b.toNat) 0)

/-- Eight bits to a byte, the last byte filled up with zeros. -/
def pack : BitPath → Bytes
  | [] => []
  | bit :: rest => packByte (bit :: rest.take 7) :: pack (rest.drop 7)
termination_by path => path.length

/-- Turns bit `i` on. -/
def setBit (bytes : Bytes) (i : Nat) : Bytes :=
  bytes.modify (i / 8) (· ||| 0x80 >>> UInt8.ofNat (i % 8))

/-- Turns on the bits that a path has on, one after the other. -/
def setBitsIn (bytes : Bytes) (path : BitPath) : Bytes :=
  path.zipIdx.foldl (fun out (bit, i) => if bit then setBit out i else out) bytes

/-- Packs a path by turning its bits on in bytes of zeros. -/
def setBits (path : BitPath) : Bytes :=
  setBitsIn (List.replicate (packedLength path.length) 0) path

def get (path : BitPath) (index : Nat) : Except BitPathError Bool :=
  match path[index]? with
  | some bit => .ok bit
  | none => .error (.outOfBounds index path.length)

theorem lt_length_of_get {path : BitPath} {i : Nat} {bit : Bool} (h : path.get i = .ok bit) :
    i < path.length := by
  unfold get at h
  split at h
  · exact (List.getElem?_eq_some_iff.mp ‹_›).1
  · cases h

/-- The bits from `start` up to `stop`, if the path has them. -/
def slice? (path : BitPath) (start stop : Nat) : Option BitPath :=
  if start ≤ stop ∧ stop ≤ path.length then some ((path.take stop).drop start) else none

/-- The path without its first `n` bits, which is empty for a shorter one. -/
def skip? (path : BitPath) (n : Nat) : Option BitPath :=
  path.slice? (min n path.length) path.length

/-- The bits in front of bit `n`, that bit, and the bits after it. -/
def cut? (path : BitPath) (n : Nat) : Option (BitPath × Bool × BitPath) := do
  let bit ← (path.get n).toOption
  let below ← path.skip? (n + 1)
  let front ← path.slice? 0 n
  return (front, bit, below)

/-- The number of leading bits on which two paths agree. -/
def commonPrefixLength (a b : BitPath) : Nat :=
  ((a.zip b).takeWhile fun (x, y) => x == y).length

/-- The number of bits on which `a` from bit `i` and `b` from bit `j` agree. -/
def commonPrefixLengthAt (a : BitPath) (i : Nat) (b : BitPath) (j : Nat) : Nat :=
  commonPrefixLength (a.drop i) (b.drop j)

/-- Whether `path` has `a` at bit `offset`. -/
def occursAt (a path : BitPath) (offset : Nat) : Bool :=
  offset + a.length ≤ path.length && a.isPrefixOf (path.drop offset)

/-- Bit by bit, a path before its extensions. -/
def order : BitPath → BitPath → Ordering
  | [], [] => .eq
  | [], _ :: _ => .lt
  | _ :: _, [] => .gt
  | false :: _, true :: _ => .lt
  | true :: _, false :: _ => .gt
  | false :: a, false :: b => order a b
  | true :: a, true :: b => order a b

/-- The bits as digits after `0b`. -/
def text (path : BitPath) : String :=
  String.ofList ('0' :: 'b' :: path.map fun bit => if bit then '1' else '0')

/-- The bits together with their number. -/
def describe (path : BitPath) : String :=
  "BitPath \x7b len: " ++ toString path.length ++ ", bits: \"" ++ text path ++ "\" \x7d"

end BitPath

end BlockAudit
