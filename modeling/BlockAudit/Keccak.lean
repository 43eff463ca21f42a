import BlockAudit.Bytes

/-! The keccak256 digest: the sponge over keccak-f[1600] with a rate of 136 bytes. -/
namespace BlockAudit.Keccak

/-- Five lanes of 64 bits that share one y coordinate. -/
structure Plane where
  x0 : UInt64
  x1 : UInt64
  x2 : UInt64
  x3 : UInt64
  x4 : UInt64

namespace Plane

def zero : Plane := ⟨0, 0, 0, 0, 0⟩

def xor (a b : Plane) : Plane :=
  ⟨a.x0 ^^^ b.x0, a.x1 ^^^ b.x1, a.x2 ^^^ b.x2, a.x3 ^^^ b.x3, a.x4 ^^^ b.x4⟩

end Plane

/-- The 25 lanes as five planes. -/
structure State where
  y0 : Plane
  y1 : Plane
  y2 : Plane
  y3 : Plane
  y4 : Plane

namespace State

def zero : State := ⟨.zero, .zero, .zero, .zero, .zero⟩

def xor (s t : State) : State :=
  ⟨s.y0.xor t.y0, s.y1.xor t.y1, s.y2.xor t.y2, s.y3.xor t.y3, s.y4.xor t.y4⟩

end State

def rotateLeft (a : UInt64) (n : UInt64) : UInt64 :=
  (a <<< n) ||| (a >>> (64 - n))

/-- Adds to every lane the parity of two neighbouring columns. -/
def theta (s : State) : State :=
  let c := (((s.y0.xor s.y1).xor s.y2).xor s.y3).xor s.y4
  let d : Plane :=
    ⟨c.x4 ^^^ rotateLeft c.x1 1, c.x0 ^^^ rotateLeft c.x2 1, c.x1 ^^^ rotateLeft c.x3 1,
      c.x2 ^^^ rotateLeft c.x4 1, c.x3 ^^^ rotateLeft c.x0 1⟩
  ⟨s.y0.xor d, s.y1.xor d, s.y2.xor d, s.y3.xor d, s.y4.xor d⟩

/-- Rotates every lane by its own amount and moves lane (x, y) to (y, 2x + 3y). -/
def rhoPi (s : State) : State where
  y0 := ⟨s.y0.x0, rotateLeft s.y1.x1 44, rotateLeft s.y2.x2 43, rotateLeft s.y3.x3 21,
    rotateLeft s.y4.x4 14⟩
  y1 := ⟨rotateLeft s.y0.x3 28, rotateLeft s.y1.x4 20, rotateLeft s.y2.x0 3,
    rotateLeft s.y3.x1 45, rotateLeft s.y4.x2 61⟩
  y2 := ⟨rotateLeft s.y0.x1 1, rotateLeft s.y1.x2 6, rotateLeft s.y2.x3 25,
    rotateLeft s.y3.x4 8, rotateLeft s.y4.x0 18⟩
  y3 := ⟨rotateLeft s.y0.x4 27, rotateLeft s.y1.x0 36, rotateLeft s.y2.x1 10,
    rotateLeft s.y3.x2 15, rotateLeft s.y4.x3 56⟩
  y4 := ⟨rotateLeft s.y0.x2 62, rotateLeft s.y1.x3 55, rotateLeft s.y2.x4 39,
    rotateLeft s.y3.x0 41, rotateLeft s.y4.x1 2⟩

/-- The only step that is not linear, within one plane. -/
def chi (p : Plane) : Plane :=
  ⟨p.x0 ^^^ (~~~p.x1 &&& p.x2), p.x1 ^^^ (~~~p.x2 &&& p.x3), p.x2 ^^^ (~~~p.x3 &&& p.x4),
    p.x3 ^^^ (~~~p.x4 &&& p.x0), p.x4 ^^^ (~~~p.x0 &&& p.x1)⟩

def round (s : State) (constant : UInt64) : State :=
  let t := rhoPi (theta s)
  let p := chi t.y0
  ⟨{ p with x0 := p.x0 ^^^ constant }, chi t.y1, chi t.y2, chi t.y3, chi t.y4⟩

def roundConstants : List UInt64 :=
  [0x0000000000000001, 0x0000000000008082, 0x800000000000808a, 0x8000000080008000,
   0x000000000000808b, 0x0000000080000001, 0x8000000080008081, 0x8000000000008009,
   0x000000000000008a, 0x0000000000000088, 0x0000000080008009, 0x000000008000000a,
   0x000000008000808b, 0x800000000000008b, 0x8000000000008089, 0x8000000000008003,
   0x8000000000008002, 0x8000000000000080, 0x000000000000800a, 0x800000008000000a,
   0x8000000080008081, 0x8000000000008080, 0x0000000080000001, 0x8000000080008008]

def permute (s : State) : State :=
  roundConstants.foldl round s

/-- The bytes absorbed before each permutation. -/
def rate : Nat := 136

/-- Fills the last block: a bit after the message, zeros, and a bit at the block's end. -/
def padding (length : Nat) : Bytes :=
  match rate - length % rate with
  | 1 => [0x81]
  | n => 0x01 :: List.replicate (n - 2) 0 ++ [0x80]

def laneOfBytes (bytes : Bytes) : UInt64 :=
  bytes.foldr (fun b lane => lane <<< 8 ||| b.toUInt64) 0

def lane (block : Bytes) (i : Nat) : UInt64 :=
  laneOfBytes ((block.drop (8 * i)).take 8)

def plane (block : Bytes) : Plane :=
  ⟨lane block 0, lane block 1, lane block 2, lane block 3, lane block 4⟩

/-- The state that holds `block` in its first lanes and zeros after them. -/
def stateOfBlock (block : Bytes) : State :=
  ⟨plane block, plane (block.drop 40), plane (block.drop 80), plane (block.drop 120), .zero⟩

def absorb : Nat → State → Bytes → State
  | 0, s, _ => s
  | blocks + 1, s, bytes =>
    absorb blocks (permute (s.xor (stateOfBlock (bytes.take rate)))) (bytes.drop rate)

def bytesOfLane : Nat → UInt64 → Bytes
  | 0, _ => []
  | n + 1, lane => lane.toUInt8 :: bytesOfLane n (lane >>> 8)

theorem length_bytesOfLane (n : Nat) (lane : UInt64) : (bytesOfLane n lane).length = n := by
  induction n generalizing lane with
  | zero => rfl
  | succ n ih => simp [bytesOfLane, ih]

/-- The first 32 bytes of the state. -/
def squeeze (s : State) : Hash where
  toBytes := bytesOfLane 8 s.y0.x0 ++ bytesOfLane 8 s.y0.x1 ++ bytesOfLane 8 s.y0.x2 ++
    bytesOfLane 8 s.y0.x3
  length_toBytes := by simp [length_bytesOfLane]

end Keccak

def keccak (bytes : Bytes) : Hash :=
  Keccak.squeeze
    (Keccak.absorb (bytes.length / Keccak.rate + 1) .zero
      (bytes ++ Keccak.padding bytes.length))

end BlockAudit
