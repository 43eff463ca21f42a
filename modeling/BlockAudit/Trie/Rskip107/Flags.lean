import BlockAudit.Bytes

/-! The byte that opens every message of the current layout. -/
namespace BlockAudit.Trie.Rskip107

/-- Which parts a message has, and which children it holds inline. -/
structure Flags where
  longValue : Bool
  sharedPath : Bool
  leftPresent : Bool
  rightPresent : Bool
  leftInline : Bool
  rightInline : Bool
deriving DecidableEq

namespace Flags

/-- The two top bits are the version, 01. -/
def toByte (flags : Flags) : UInt8 :=
  0x40 ||| (if flags.longValue then 0x20 else 0) ||| (if flags.sharedPath then 0x10 else 0) |||
    (if flags.leftPresent then 0x08 else 0) ||| (if flags.rightPresent then 0x04 else 0) |||
    (if flags.leftInline then 0x02 else 0) ||| (if flags.rightInline then 0x01 else 0)

/-- The version bits are not looked at. -/
def ofByte (byte : UInt8) : Flags where
  longValue := byte &&& 0x20 != 0
  sharedPath := byte &&& 0x10 != 0
  leftPresent := byte &&& 0x08 != 0
  rightPresent := byte &&& 0x04 != 0
  leftInline := byte &&& 0x02 != 0
  rightInline := byte &&& 0x01 != 0

theorem ofByte_toByte (flags : Flags) : ofByte flags.toByte = flags := by
  obtain ⟨a, b, c, d, e, f⟩ := flags
  revert a b c d e f
  decide

end Flags

end BlockAudit.Trie.Rskip107
