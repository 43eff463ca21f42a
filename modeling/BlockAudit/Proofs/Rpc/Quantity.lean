import BlockAudit.Argument
import BlockAudit.Proofs.Hex.Numeral

/-!
Quantities and slots. The node's quantities, its slots and the slots that users type are one number each,
the one that the digits write.
-/
namespace BlockAudit

/-- The number that a text writes in hexadecimal digits, with the mark `0x` or without it. No digits are
zero. -/
def Hex.numberOf? (text : String) : Option Nat :=
  Text.ofDigits? 16 (stripHexMark text).toList

variable {n size : Nat} {text : String} {bytes : Bytes} {slot : Hash}

theorem Hex.isSome_numberOf?_iff :
    (numberOf? text).isSome ↔ ∀ c ∈ (stripHexMark text).toList, (Text.digit? 16 c).isSome :=
  Text.isSome_ofDigits?_iff

theorem Hex.length_utf8_of_numberOf? (h : numberOf? text = some n) :
    (utf8 (stripHexMark text)).length = (stripHexMark text).length := by
  rw [utf8, length_utf8_of_digits (isSome_numberOf?_iff.mp (Option.isSome_of_eq_some h)),
    String.length_toList]

theorem Hex.numberOf?_of_writes (h : Writes text bytes) :
    numberOf? text = some (ofBigEndian bytes) := by
  unfold numberOf?
  rcases h with h | ⟨digits, hmark, h⟩
  · rw [stripHexMark_of_spells h]
    exact h.ofDigits?_eq
  · rw [stripHexMark_of_mark hmark, String.toList_ofList]
    exact h.ofDigits?_eq

section Padding

theorem FixedBytes.toBytes_padLeft (h : bytes.length = size) : (padLeft size bytes).toBytes = bytes := by
  simp [padLeft, h]

/-- A number in as many bytes as there is room for. -/
theorem FixedBytes.toBytes_padLeft_bigEndian (h : n < 256 ^ size) :
    (padLeft size (bigEndian n)).toBytes = bigEndianFixed size n := by
  have hlength := length_bigEndian_le h
  have hdrop : (bigEndian n).length - size = 0 := by omega
  have hnumber : ofBigEndian (padLeft size (bigEndian n)).toBytes = n := by
    rw [padLeft, ofBigEndian_replicate_append, hdrop, List.drop_zero, ofBigEndian_bigEndian]
  have hfixed := bigEndianFixed_ofBigEndian (padLeft size (bigEndian n)).toBytes
  rw [hnumber, (padLeft size (bigEndian n)).length_toBytes] at hfixed
  exact hfixed.symm

end Padding

namespace Rpc

/-- A quantity is read in the shortest form of its number, whatever its size. -/
theorem quantity?_eq_ok_iff :
    quantity? text = .ok bytes ↔ ∃ n, Hex.numberOf? text = some n ∧ bytes = bigEndian n := by
  let digits := (stripHexMark text).toList
  let length := (utf8 (stripHexMark text)).length
  have hquantity : quantity? text =
      (Hex.decode (List.replicate (length % 2) 0x30 ++ digits.flatMap String.utf8EncodeChar)).map
        stripLeadingZeros := by
    rcases Nat.mod_two_eq_zero_or_one length with heven | hodd
    · rw [quantity?, if_neg (by rw [heven]; decide), heven]
      rfl
    · rw [quantity?, if_pos hodd, hodd]
      rfl
  rw [hquantity, map_eq_ok_iff]
  constructor
  · rintro ⟨read, hread, rfl⟩
    exact ⟨_, (Hex.decode_padded_eq_ok_iff.mp hread).2, stripLeadingZeros_eq_bigEndian read⟩
  · rintro ⟨n, hn, rfl⟩
    have hlength : length = digits.length := by
      rw [String.length_toList]
      exact Hex.length_utf8_of_numberOf? hn
    have hsize : length % 2 + digits.length = 2 * ((length % 2 + length) / 2) := by omega
    have hdecode := Hex.decode_padded_of_ofDigits? hn hsize
    have hnumber := (Hex.decode_padded_eq_ok_iff.mp hdecode).2
    refine ⟨_, hdecode, ?_⟩
    rw [stripLeadingZeros_eq_bigEndian, Option.some.inj (hnumber.symm.trans hn)]

/-- A slot is any number that fits into 32 bytes. -/
theorem slot?_eq_some_iff :
    slot? text = some slot ↔
      ∃ n, Hex.numberOf? text = some n ∧ n < 256 ^ 32 ∧ slot.toBytes = bigEndianFixed 32 n := by
  have hfits : ∀ n, (bigEndian n).length ≤ 32 ↔ n < 256 ^ 32 := fun n =>
    ⟨fun h => (lt_pow_length_bigEndian n).trans_le (Nat.pow_le_pow_right (by decide) h),
      length_bigEndian_le⟩
  unfold slot?
  constructor
  · intro h
    split at h
    · rename_i bytes hbytes
      obtain ⟨n, hn, rfl⟩ := quantity?_eq_ok_iff.mp hbytes
      obtain ⟨hlength, h⟩ := (Option.ite_none_right_eq_some).mp h
      cases h
      exact ⟨n, hn, (hfits n).mp hlength, FixedBytes.toBytes_padLeft_bigEndian ((hfits n).mp hlength)⟩
    · cases h
  · rintro ⟨n, hn, hlt, hslot⟩
    rw [quantity?_eq_ok_iff.mpr ⟨n, hn, rfl⟩]
    dsimp only
    rw [if_pos ((hfits n).mpr hlt)]
    congr 1
    ext1
    rw [FixedBytes.toBytes_padLeft_bigEndian hlt, hslot]

end Rpc

namespace Argument

/-- A slot that a user types has one digit at least and two at most for each byte. -/
theorem slot_eq_ok_iff :
    Argument.slot text = .ok slot ↔
      (1 ≤ (stripHexMark text).length ∧ (stripHexMark text).length ≤ 64) ∧
        ∃ n, Hex.numberOf? text = some n ∧ slot.toBytes = bigEndianFixed 32 n := by
  have hchars : (stripHexMark text).toList.length = (stripHexMark text).length := String.length_toList
  rw [Argument.slot, bind_eq_ok_iff]
  constructor
  · rintro ⟨bytes, hbytes, hslot⟩
    cases hslot
    unfold padded at hbytes
    dsimp only at hbytes
    split at hbytes
    · cases hbytes
    rename_i hrange
    obtain ⟨hsize, hnumber⟩ := Hex.decode_padded_eq_ok_iff.mp (mapError_eq_ok_iff.mp hbytes)
    have hutf8 := Hex.length_utf8_of_numberOf? hnumber
    have hlength : bytes.length = 32 := by omega
    refine ⟨by omega, _, hnumber, ?_⟩
    rw [FixedBytes.toBytes_padLeft hlength, ← hlength, bigEndianFixed_ofBigEndian]
  · rintro ⟨⟨hpos, hle⟩, n, hn, hslot⟩
    have hutf8 := Hex.length_utf8_of_numberOf? hn
    have hsize : 2 * 32 - (stripHexMark text).length + (stripHexMark text).toList.length = 2 * 32 := by
      omega
    refine ⟨bigEndianFixed 32 n, ?_, ?_⟩
    · unfold padded
      dsimp only
      rw [if_neg (by omega)]
      exact mapError_eq_ok_iff.mpr (Hex.decode_padded_of_ofDigits? hn hsize)
    · rw [pure_eq_ok]
      congr 1
      ext1
      rw [FixedBytes.toBytes_padLeft (length_bigEndianFixed 32 n), hslot]

/-- Users and the node write the same slots, apart from the number of zeros in front. -/
theorem slot_eq_ok_iff_rpcSlot :
    Argument.slot text = .ok slot ↔
      (1 ≤ (stripHexMark text).length ∧ (stripHexMark text).length ≤ 64) ∧
        Rpc.slot? text = some slot := by
  rw [slot_eq_ok_iff, Rpc.slot?_eq_some_iff]
  refine and_congr_right fun ⟨_, hle⟩ => exists_congr fun n => and_congr_right fun hn => ?_
  have hlt : n < 256 ^ 32 := by
    have h := Text.ofDigits?_lt hn
    rw [String.length_toList] at h
    calc n < 16 ^ (stripHexMark text).length := h
      _ ≤ 16 ^ 64 := Nat.pow_le_pow_right (by decide) hle
      _ = 256 ^ 32 := by decide
  rw [and_iff_right hlt]

end Argument

end BlockAudit
