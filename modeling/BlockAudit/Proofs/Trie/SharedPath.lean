import BlockAudit.Proofs.BitPath
import BlockAudit.Proofs.Field
import BlockAudit.Proofs.Outcome
import BlockAudit.Trie.SharedPath

/-! The path inside a message: what was written is read back, as far as messages may announce it. -/
namespace BlockAudit.Trie.SharedPath

variable {buffer : Bytes} {offset : Nat}

theorem length_encodeLength_le (length : Nat) : (encodeLength length).length ≤ 10 := by
  unfold encodeLength
  split_ifs
  · simp
  · simp
  · rw [List.length_cons, VarInt.length_encode (VarInt.fits_ofValue _)]
    unfold VarInt.ofValue VarInt.sizeOf
    dsimp only
    split_ifs <;> omega

theorem length_encode_of_ne_nil {path : BitPath} (h : path ≠ []) :
    (encode path).length =
      (encodeLength path.length).length + BitPath.packedLength path.length := by
  rw [encode, if_neg (by simpa using h), List.length_append, BitPath.length_pack]

/-- A path takes at least the bytes that hold its bits. -/
theorem length_le_of_encode (path : BitPath) : path.length ≤ 8 * (encode path).length := by
  by_cases h : path = []
  · simp [h]
  · rw [length_encode_of_ne_nil h, BitPath.packedLength]
    omega

theorem toNat_ofNat_byte {n : Nat} (h : n < 256) : (UInt8.ofNat n).toNat = n := by
  rw [UInt8.toNat_ofNat', Nat.mod_eq_of_lt h]

private theorem decodeLength_low {length : Nat} (hlow : 1 ≤ length ∧ length ≤ 32)
    (hb : StandsAt (encodeLength length) buffer offset) :
    decodeLength buffer offset = .ok (length, offset + (encodeLength length).length) := by
  have henc : encodeLength length = [.ofNat (length - 1)] := by rw [encodeLength, if_pos hlow]
  rw [henc] at hb ⊢
  have hbyte := hb.byteField
  have hn := toNat_ofNat_byte (show length - 1 < 256 by omega)
  have hsmall : UInt8.ofNat (length - 1) < 32 := by
    rw [UInt8.lt_iff_toNat_lt, hn, show (32 : UInt8).toNat = 32 from rfl]
    omega
  simp [decodeLength, hbyte, hsmall, hn, Nat.sub_add_cancel hlow.1]

private theorem decodeLength_high {length : Nat} (hhigh : 160 ≤ length ∧ length ≤ 382)
    (hb : StandsAt (encodeLength length) buffer offset) :
    decodeLength buffer offset = .ok (length, offset + (encodeLength length).length) := by
  have henc : encodeLength length = [.ofNat (length - 128)] := by
    rw [encodeLength, if_neg (by omega), if_pos hhigh]
  rw [henc] at hb ⊢
  have hbyte := hb.byteField
  have hn := toNat_ofNat_byte (show length - 128 < 256 by omega)
  have hlarge : ¬ UInt8.ofNat (length - 128) < 32 := by
    rw [UInt8.lt_iff_toNat_lt, hn, show (32 : UInt8).toNat = 32 from rfl]
    omega
  have hmarker : UInt8.ofNat (length - 128) ≠ marker := by
    rw [ne_eq, ← UInt8.toNat_inj, hn, show marker.toNat = 255 from rfl]
    omega
  have hlen : length - 128 + 128 = length := by omega
  simp [decodeLength, hbyte, hlarge, hmarker, hn, hlen]

private theorem decodeLength_marked {length : Nat} (hlow : ¬ (1 ≤ length ∧ length ≤ 32))
    (hhigh : ¬ (160 ≤ length ∧ length ≤ 382)) (hlt : length < 2 ^ 64)
    (hb : StandsAt (encodeLength length) buffer offset) :
    decodeLength buffer offset =
      if length ≤ maxLength then .ok (length, offset + (encodeLength length).length)
      else .error (.pathTooLong (.ofNat length)) := by
  have henc : encodeLength length = marker :: (VarInt.ofValue (.ofNat length)).encode := by
    rw [encodeLength, if_neg hlow, if_neg hhigh]
  rw [henc] at hb ⊢
  obtain ⟨hmarker, hvalue⟩ := hb.cons
  have hbyte := hmarker.byteField
  have hread := VarInt.read_encode (VarInt.fits_ofValue _) hvalue
  have hn : (VarInt.ofValue (.ofNat length)).value.toNat = length := by
    rw [VarInt.ofValue, UInt64.toNat_ofNat', Nat.mod_eq_of_lt hlt]
  have hsize := VarInt.length_encode (VarInt.fits_ofValue (.ofNat length))
  have hlarge : ¬ marker < 32 := by decide
  simp only [decodeLength, hbyte, hread, liftM_field_ok, ok_bind, hlarge, if_false, if_true, hn,
    pure_eq_ok, throw_eq_error, error_bind, List.length_cons, hsize, gt_iff_lt]
  split
  · rw [if_neg (by omega)]
    rfl
  · rw [if_pos (by omega), Nat.add_assoc, Nat.add_comm 1]

/-- A length is read back if messages may announce it, and refused otherwise. -/
theorem decodeLength_encodeLength {length : Nat} (hpos : 0 < length) (hlt : length < 2 ^ 64)
    (hb : StandsAt (encodeLength length) buffer offset) :
    decodeLength buffer offset =
      if length ≤ maxLength then .ok (length, offset + (encodeLength length).length)
      else .error (.pathTooLong (.ofNat length)) := by
  have hmax : maxLength = 524280 := rfl
  by_cases hlow : 1 ≤ length ∧ length ≤ 32
  · rw [decodeLength_low hlow hb, if_pos (by omega)]
  by_cases hhigh : 160 ≤ length ∧ length ≤ 382
  · rw [decodeLength_high hhigh hb, if_pos (by omega)]
  exact decodeLength_marked hlow hhigh hlt hb

/-- A path is read back where its bytes end, if messages may announce it, and refused otherwise. -/
theorem decode_encode {path : BitPath} (hne : path ≠ []) (hlt : path.length < 2 ^ 64)
    (hb : StandsAt (encode path) buffer offset) :
    decode buffer offset =
      if path.length ≤ maxLength then .ok (path, offset + (encode path).length)
      else .error (.pathTooLong (.ofNat path.length)) := by
  have henc : encode path = encodeLength path.length ++ path.pack := by
    rw [encode, if_neg (by simpa using hne)]
  rw [henc] at hb
  obtain ⟨hlength, hpack⟩ := hb.append
  rw [decode, decodeLength_encodeLength (List.length_pos_iff.mpr hne) hlt hlength]
  split
  · have hfield := hpack.field
    rw [BitPath.length_pack] at hfield
    simp only [ok_bind, hfield, liftM_field_ok, BitPath.ofPacked_pack, liftM_bitPath_ok,
      pure_eq_ok, length_encode_of_ne_nil hne, Nat.add_assoc]
  · rfl

end BlockAudit.Trie.SharedPath
