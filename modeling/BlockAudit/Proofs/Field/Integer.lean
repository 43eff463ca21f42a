import BlockAudit.Proofs.Outcome
import BlockAudit.Proofs.Trie.Grammar
import BlockAudit.Proofs.Field

/-!
Integers in a buffer. A number is read exactly where one of its spellings stands, with the size of that
spelling, and no spelling is shorter than the one that is written for it.
-/
namespace BlockAudit

namespace VarInt

variable {buffer : Bytes} {offset : Nat} {v : VarInt}

theorem marker_cases (marker : UInt8) :
    marker < 0xfd ∨ marker = 0xfd ∨ marker = 0xfe ∨ marker = 0xff := by
  have hlt := marker.toNat_lt
  simp only [UInt8.lt_iff_toNat_lt, ← UInt8.toNat_inj]
  simp
  omega

theorem payloadSize_of_lt {marker : UInt8} (h : marker < 0xfd) : payloadSize marker = 0 := by
  have hlt : marker.toNat < 0xfd := h
  unfold payloadSize
  simp only [← UInt8.toNat_inj]
  split_ifs <;> simp_all

theorem read_of_lt {marker : UInt8} (h : StandsAt [marker] buffer offset) (hm : marker < 0xfd) :
    read buffer offset = .ok ⟨marker.toUInt64, 1⟩ := by
  rw [read, h.byteField, ok_bind, payloadSize_of_lt hm]
  rfl

private theorem exists_digits_of_read {marker : UInt8} {n : Nat}
    (hmarker : StandsAt [marker] buffer offset) (hm : payloadSize marker = n + 1)
    (h : read buffer offset = .ok v) :
    ∃ digits, digits.length = n + 1 ∧ StandsAt (marker :: digits) buffer offset ∧
      v.value = .ofNat (ofLittleEndian digits) ∧ v.size = (marker :: digits).length := by
  rw [read, hmarker.byteField, ok_bind, hm] at h
  obtain ⟨digits, hdigits, hv⟩ := bind_eq_ok_iff.mp h
  obtain ⟨hstands, hlen⟩ := field_eq_ok_iff.mp hdigits
  cases hv
  exact ⟨digits, hlen, standsAt_cons_iff.mpr ⟨hmarker, hstands⟩, rfl, by simp [hlen]⟩

theorem read_eq_ok_iff :
    read buffer offset = .ok v ↔
      ∃ bytes, StandsAt bytes buffer offset ∧ Spells bytes v.value ∧ v.size = bytes.length := by
  constructor
  · intro h
    obtain ⟨marker, hmarker, -⟩ := bind_eq_ok_iff.mp h
    rw [byteField_eq_ok_iff] at hmarker
    rcases marker_cases marker with hm | rfl | rfl | rfl
    · rw [read_of_lt hmarker hm] at h
      cases h
      exact ⟨[marker], hmarker, .byte hm, rfl⟩
    · obtain ⟨digits, hlen, hstands, hvalue, hsize⟩ := exists_digits_of_read hmarker rfl h
      exact ⟨_, hstands, hvalue ▸ .two hlen, hsize⟩
    · obtain ⟨digits, hlen, hstands, hvalue, hsize⟩ := exists_digits_of_read hmarker rfl h
      exact ⟨_, hstands, hvalue ▸ .four hlen, hsize⟩
    · obtain ⟨digits, hlen, hstands, hvalue, hsize⟩ := exists_digits_of_read hmarker rfl h
      exact ⟨_, hstands, hvalue ▸ .eight hlen, hsize⟩
  · rintro ⟨bytes, hstands, hspells, hsize⟩
    obtain ⟨value, size⟩ := v
    dsimp only at hspells hsize
    subst hsize
    cases hspells with
    | byte hm => exact read_of_lt hstands hm
    | two hlen => exact read_marked hstands (by rw [hlen]; rfl) (by rintro rfl; cases hlen)
    | four hlen => exact read_marked hstands (by rw [hlen]; rfl) (by rintro rfl; cases hlen)
    | eight hlen => exact read_marked hstands (by rw [hlen]; rfl) (by rintro rfl; cases hlen)

theorem sizeOf_le {value : UInt64} {digits : Bytes} (h : value.toNat < 256 ^ digits.length)
    (hdigits : digits.length = 2 ∨ digits.length = 4 ∨ digits.length = 8) :
    sizeOf value ≤ digits.length + 1 := by
  unfold sizeOf
  simp only [UInt64.le_iff_toNat_le]
  have h2 : (0xffff : UInt64).toNat = 0xffff := rfl
  have h4 : (0xffffffff : UInt64).toNat = 0xffffffff := rfl
  rw [h2, h4]
  rcases hdigits with hd | hd | hd <;> rw [hd] at h ⊢ <;> split_ifs <;> omega

theorem toNat_ofLittleEndian_lt {digits : Bytes} :
    (UInt64.ofNat (ofLittleEndian digits)).toNat < 256 ^ digits.length :=
  Nat.lt_of_le_of_lt (by simpa using Nat.mod_le _ _) (ofLittleEndian_lt digits)

/-- No spelling of a number is shorter than the one that is written. -/
theorem Spells.length_encode_le {bytes : Bytes} {value : UInt64} (h : Spells bytes value) :
    (ofValue value).encode.length ≤ bytes.length := by
  rw [length_encode (fits_ofValue value)]
  change sizeOf value ≤ bytes.length
  cases h with
  | @byte b h =>
    have hle : b.toUInt64 ≤ 0xfc := by
      rw [UInt64.le_iff_toNat_le]
      simpa using Nat.le_of_lt_succ h
    rw [sizeOf, if_pos hle]
    exact Nat.le_refl 1
  | two h => exact sizeOf_le toNat_ofLittleEndian_lt (.inl h)
  | four h => exact sizeOf_le toNat_ofLittleEndian_lt (.inr (.inl h))
  | eight h => exact sizeOf_le toNat_ofLittleEndian_lt (.inr (.inr h))

theorem littleEndianFixed_ofNat {digits : Bytes} (h : digits.length ≤ 8) :
    littleEndianFixed digits.length (UInt64.ofNat (ofLittleEndian digits)).toNat = digits := by
  have hlt : ofLittleEndian digits < 2 ^ 64 :=
    Nat.lt_of_lt_of_le (ofLittleEndian_lt digits) (Nat.pow_le_pow_right (by decide) h)
  rw [UInt64.toNat_ofNat', Nat.mod_eq_of_lt hlt, littleEndianFixed_ofLittleEndian]

/-- A number is spelled in a size that is wide enough for it, with the bytes that are written in that size. -/
theorem Spells.fits_and_encode_eq {bytes : Bytes} {value : UInt64} (h : Spells bytes value) :
    Fits ⟨value, bytes.length⟩ ∧ encode ⟨value, bytes.length⟩ = bytes := by
  cases h with
  | @byte b h =>
    have hle : b.toNat ≤ 0xfc := Nat.le_of_lt_succ h
    exact ⟨.inl ⟨rfl, by simpa using hle⟩, by simp [encode]⟩
  | @two digits h =>
    have hlt := @toNat_ofLittleEndian_lt digits
    have hdigits := @littleEndianFixed_ofNat digits (by omega)
    rw [h] at hlt hdigits
    exact ⟨.inr (.inl ⟨by simp [h], hlt⟩), by simp only [encode, List.length_cons, h, hdigits]⟩
  | @four digits h =>
    have hlt := @toNat_ofLittleEndian_lt digits
    have hdigits := @littleEndianFixed_ofNat digits (by omega)
    rw [h] at hlt hdigits
    exact ⟨.inr (.inr (.inl ⟨by simp [h], hlt⟩)), by simp only [encode, List.length_cons, h, hdigits]⟩
  | @eight digits h =>
    have hdigits := @littleEndianFixed_ofNat digits (by omega)
    rw [h] at hdigits
    exact ⟨.inr (.inr (.inr (by simp [h]))), by simp only [encode, List.length_cons, h, hdigits]⟩

/-- Numbers are read exactly where they were written. -/
theorem read_eq_ok_iff_encode : read buffer offset = .ok v ↔ v.Fits ∧ StandsAt v.encode buffer offset := by
  constructor
  · intro h
    obtain ⟨bytes, hstands, hspells, hsize⟩ := read_eq_ok_iff.mp h
    obtain ⟨hfits, hencode⟩ := hspells.fits_and_encode_eq
    rw [← hsize] at hfits hencode
    exact ⟨hfits, hencode.symm ▸ hstands⟩
  · intro h
    obtain ⟨hfits, hstands⟩ := h
    exact read_encode hfits hstands

/-- The size of the spellings that begin with a marker, the marker included. -/
def widthOf (marker : UInt8) : Nat :=
  if marker < 0xfd then 1 else if marker = 0xfd then 3 else if marker = 0xfe then 5 else 9

theorem widthOf_cases (marker : UInt8) :
    (marker < 0xfd ∧ widthOf marker = 1) ∨ (marker = 0xfd ∧ widthOf marker = 3) ∨
      (marker = 0xfe ∧ widthOf marker = 5) ∨ (marker = 0xff ∧ widthOf marker = 9) := by
  rcases marker_cases marker with hm | rfl | rfl | rfl
  · exact .inl ⟨hm, if_pos hm⟩
  · exact .inr (.inl ⟨rfl, rfl⟩)
  · exact .inr (.inr (.inl ⟨rfl, rfl⟩))
  · exact .inr (.inr (.inr ⟨rfl, rfl⟩))

theorem Spells.exists_cons {bytes : Bytes} {value : UInt64} (h : Spells bytes value) :
    ∃ marker digits, bytes = marker :: digits := by
  cases h <;> exact ⟨_, _, rfl⟩

/-- A marker and the digits after it spell a number exactly if they are as many as the marker announces. -/
theorem exists_spells_iff {marker : UInt8} {digits : Bytes} :
    (∃ value, Spells (marker :: digits) value) ↔ (marker :: digits).length = widthOf marker := by
  rw [List.length_cons]
  constructor
  · intro hspells
    obtain ⟨value, h⟩ := hspells
    cases h with
    | byte h => exact (if_pos h).symm
    | two h => rw [h]; rfl
    | four h => rw [h]; rfl
    | eight h => rw [h]; rfl
  · intro h
    rcases widthOf_cases marker with ⟨hm, hw⟩ | ⟨rfl, hw⟩ | ⟨rfl, hw⟩ | ⟨rfl, hw⟩
    · have hnil : digits = [] := List.length_eq_zero_iff.mp (by omega)
      rw [hnil]
      exact ⟨_, .byte hm⟩
    · exact ⟨_, .two (by omega)⟩
    · exact ⟨_, .four (by omega)⟩
    · exact ⟨_, .eight (by omega)⟩

/-- What is read has the size that its marker announces, all of it within the buffer. -/
theorem width_of_read (h : read buffer offset = .ok v) :
    ∃ marker, buffer[offset]? = some marker ∧ v.size = widthOf marker ∧
      offset + v.size ≤ buffer.length := by
  obtain ⟨bytes, hstands, hspells, hsize⟩ := read_eq_ok_iff.mp h
  obtain ⟨marker, digits, rfl⟩ := hspells.exists_cons
  refine ⟨marker, hstands.cons.1.getElem?, ?_, ?_⟩
  · rw [hsize]
    exact exists_spells_iff.mp ⟨_, hspells⟩
  · rw [hsize]
    exact hstands.le_length

theorem widthOf_pos (marker : UInt8) : 0 < widthOf marker := by
  rcases widthOf_cases marker with ⟨-, h⟩ | ⟨-, h⟩ | ⟨-, h⟩ | ⟨-, h⟩ <;> omega

theorem exists_read_iff :
    (∃ v, read buffer offset = .ok v) ↔
      ∃ marker, buffer[offset]? = some marker ∧ offset + widthOf marker ≤ buffer.length := by
  constructor
  · intro hread
    obtain ⟨v, h⟩ := hread
    obtain ⟨marker, hmarker, hsize, hle⟩ := width_of_read h
    exact ⟨marker, hmarker, hsize ▸ hle⟩
  · intro h
    obtain ⟨marker, hmarker, hle⟩ := h
    have hpos := widthOf_pos marker
    have hfield : field buffer (offset + 1) (widthOf marker - 1) =
        .ok ((buffer.drop (offset + 1)).take (widthOf marker - 1)) := if_pos (by omega)
    obtain ⟨hdigits, hlength⟩ := field_eq_ok_iff.mp hfield
    have hbyte : byteField buffer offset = .ok marker := by
      rw [byteField, hmarker]
    have hstands := standsAt_cons_iff.mpr ⟨byteField_eq_ok_iff.mp hbyte, hdigits⟩
    have hwidth : (marker :: (buffer.drop (offset + 1)).take (widthOf marker - 1)).length =
        widthOf marker := by
      rw [List.length_cons, hlength]
      omega
    obtain ⟨value, hspells⟩ := exists_spells_iff.mpr hwidth
    exact ⟨⟨value, _⟩, read_eq_ok_iff.mpr ⟨_, hstands, hspells, rfl⟩⟩

/-- A number is read from the bytes that are written for it in its size. -/
theorem take_drop_of_read (h : read buffer offset = .ok v) :
    (buffer.drop offset).take v.size = v.encode := by
  obtain ⟨hfits, hstands⟩ := read_eq_ok_iff_encode.mp h
  rw [← length_encode hfits]
  exact hstands.take_drop

/-- Nothing is read where the buffer ends before the bytes of a number do. -/
theorem read_take_eq_error (h : read buffer offset = .ok v) {count : Nat} (hcount : count < v.size) :
    ∃ e, read (buffer.take (offset + count)) offset = .error e := by
  cases hread : read (buffer.take (offset + count)) offset with
  | error e => exact ⟨e, rfl⟩
  | ok w =>
    obtain ⟨marker, hmarker, hsize, -⟩ := width_of_read h
    obtain ⟨marker', hmarker', hsize', hle⟩ := width_of_read hread
    rw [List.getElem?_take] at hmarker'
    split at hmarker'
    · rw [hmarker] at hmarker'
      cases hmarker'
      rw [List.length_take] at hle
      omega
    · cases hmarker'

end VarInt

namespace Uint24

theorem decode_eq_ok_iff {buffer : Bytes} {offset value : Nat} :
    decode buffer offset = .ok value ↔
      ∃ digits, StandsAt digits buffer offset ∧ digits.length = 3 ∧ value = ofBigEndian digits := by
  rw [decode, map_eq_ok_iff]
  simp only [field_eq_ok_iff]
  constructor
  · rintro ⟨digits, ⟨hstands, hlen⟩, rfl⟩
    exact ⟨digits, hstands, hlen, rfl⟩
  · rintro ⟨digits, hstands, hlen, rfl⟩
    exact ⟨digits, ⟨hstands, hlen⟩, rfl⟩

theorem encode_eq_ok_iff {value : Nat} {digits : Bytes} :
    encode value = .ok digits ↔ value ≤ max ∧ digits = bytes value := by
  unfold encode
  split
  case isTrue h => simp [h, eq_comm]
  case isFalse h => simp [h]

theorem exists_encode_error_iff {value : Nat} : (∃ e, encode value = .error e) ↔ max < value := by
  unfold encode
  split
  case isTrue h => simpa using h
  case isFalse h => simpa using h

/-- A number of 24 bits is read exactly where it was written. -/
theorem decode_eq_ok_iff_encode {buffer : Bytes} {offset value : Nat} :
    decode buffer offset = .ok value ↔
      ∃ digits, encode value = .ok digits ∧ StandsAt digits buffer offset := by
  simp only [encode_eq_ok_iff]
  constructor
  · intro h
    obtain ⟨digits, hdigits, rfl⟩ := map_eq_ok_iff.mp h
    obtain ⟨n, hn, rfl, hstands⟩ := field_bigEndianFixed_iff.mp hdigits
    rw [ofBigEndian_bigEndianFixed, Nat.mod_eq_of_lt hn]
    exact ⟨_, ⟨Nat.le_of_lt_succ hn, rfl⟩, hstands⟩
  · intro h
    obtain ⟨_, ⟨hle, rfl⟩, hstands⟩ := h
    exact decode_bytes hle hstands

end Uint24

section WordOffsets

variable {buffer : Bytes}

/-- A buffer ends before the offsets do, so that an end out of reach is behind it. -/
theorem fieldAt_eq (hbuffer : buffer.length < 2 ^ 64) (offset needed : UInt64) :
    fieldAt buffer offset needed = field buffer offset.toNat needed.toNat := by
  have hrange : (checkedAdd? offset needed).bind (range? buffer offset) =
      if offset.toNat + needed.toNat ≤ buffer.length then
        some ((buffer.drop offset.toNat).take needed.toNat)
      else none := by
    unfold checkedAdd?
    split
    case isTrue h =>
      have hsum : (offset + needed).toNat = offset.toNat + needed.toNat := by
        rw [UInt64.toNat_add, Nat.mod_eq_of_lt h]
      have hstart : offset ≤ offset + needed := by
        rw [UInt64.le_iff_toNat_le, hsum]
        exact Nat.le_add_right _ _
      rw [Option.bind_some, range?, hsum, List.drop_take, Nat.add_sub_cancel_left]
      simp only [hstart, true_and]
    case isFalse h =>
      dsimp only [UInt64.size] at h
      rw [if_neg (by omega)]
      rfl
  rw [fieldAt, hrange, field]
  split_ifs <;> rfl

theorem byteField_eq (buffer : Bytes) (offset : Nat) :
    byteField buffer offset = (field buffer offset 1).map (·.headD 0) := by
  unfold byteField field
  by_cases h : offset < buffer.length
  · rw [List.getElem?_eq_getElem h, if_pos (by omega), List.drop_eq_getElem_cons h]
    rfl
  · rw [List.getElem?_eq_none (by omega), if_neg (by omega)]
    rfl

theorem VarInt.payloadSize_le (marker : UInt8) : payloadSize marker ≤ 8 := by
  unfold payloadSize
  split_ifs <;> omega

theorem VarInt.readAt_eq (hbuffer : buffer.length < 2 ^ 64) (offset : UInt64) :
    readAt buffer offset = read buffer offset.toNat := by
  unfold readAt read
  rw [fieldAt_eq hbuffer, byteField_eq, UInt64.toNat_one]
  cases hfirst : field buffer offset.toNat 1 with
  | error e => rfl
  | ok bytes =>
    have hin := (length_of_field hfirst).2
    have hnext : (offset + 1).toNat = offset.toNat + 1 := by
      rw [UInt64.toNat_add, UInt64.toNat_one, Nat.mod_eq_of_lt (by omega)]
    simp only [ok_bind, Except.map]
    have hsize := payloadSize_le (bytes.headD 0)
    cases hpayload : payloadSize (bytes.headD 0) with
    | zero => rfl
    | succ n =>
      have hneeded : (UInt64.ofNat (n + 1)).toNat = n + 1 := by
        rw [UInt64.toNat_ofNat', Nat.mod_eq_of_lt (by omega)]
      have hdigits : fieldAt buffer (offset + 1) (.ofNat (n + 1)) = field buffer (offset.toNat + 1) (n + 1) := by
        rw [fieldAt_eq hbuffer, hnext, hneeded]
      simp only [hdigits]

theorem Uint24.decodeAt_eq (hbuffer : buffer.length < 2 ^ 64) (offset : UInt64) :
    decodeAt buffer offset = decode buffer offset.toNat := by
  rw [decodeAt, fieldAt_eq hbuffer]
  rfl

end WordOffsets

/-- Numbers are read wherever they were written in a size that is wide enough for them, and in no other
size. A number is read exactly if the bytes that its marker announces are there, from these bytes alone, and
is not written longer than it was read. Numbers of 24 bits are read wherever they were written, and no others
are written. Offsets of 64 bits reach as far as any. -/
theorem integers_read_back :
    (∀ value front rest, VarInt.read (front ++ ((VarInt.ofValue value).encode ++ rest)) front.length =
      .ok ⟨value, (VarInt.ofValue value).encode.length⟩) ∧
    (∀ v : VarInt,
      (∀ front rest, VarInt.read (front ++ (v.encode ++ rest)) front.length = .ok v) ↔ v.Fits) ∧
    (∀ buffer offset, (∃ v, VarInt.read buffer offset = .ok v) ↔
      ∃ marker, buffer[offset]? = some marker ∧ offset + VarInt.widthOf marker ≤ buffer.length) ∧
    (∀ buffer offset v, VarInt.read buffer offset = .ok v →
      (∀ front rest,
        VarInt.read (front ++ ((buffer.drop offset).take v.size ++ rest)) front.length = .ok v) ∧
      (∀ count < v.size, ∃ e, VarInt.read (buffer.take (offset + count)) offset = .error e) ∧
      (VarInt.ofValue v.value).encode.length ≤ v.size) ∧
    (∀ value, (∃ e, Uint24.encode value = .error e) ↔ 2 ^ 24 - 1 < value) ∧
    (∀ value digits, Uint24.encode value = .ok digits →
      ∀ front rest, Uint24.decode (front ++ (digits ++ rest)) front.length = .ok value) ∧
    ∀ buffer : Bytes, buffer.length < 2 ^ 64 → ∀ offset : UInt64,
      VarInt.readAt buffer offset = VarInt.read buffer offset.toNat ∧
        Uint24.decodeAt buffer offset = Uint24.decode buffer offset.toNat := by
  refine ⟨fun value front rest => ?_, fun v => ⟨fun h => ?_, fun h front rest => ?_⟩,
    fun buffer offset => VarInt.exists_read_iff, fun buffer offset v h => ⟨fun front rest => ?_, ?_, ?_⟩,
    fun value => Uint24.exists_encode_error_iff, fun value digits h front rest => ?_,
    fun buffer hbuffer offset => ⟨VarInt.readAt_eq hbuffer offset, Uint24.decodeAt_eq hbuffer offset⟩⟩
  · have hfits := VarInt.fits_ofValue value
    rw [VarInt.length_encode hfits]
    exact VarInt.read_encode hfits (standsAt_between front _ rest)
  · exact (VarInt.read_eq_ok_iff_encode.mp (h [] [])).1
  · exact VarInt.read_encode h (standsAt_between front _ rest)
  · rw [VarInt.take_drop_of_read h]
    exact VarInt.read_encode (VarInt.read_eq_ok_iff_encode.mp h).1 (standsAt_between front _ rest)
  · exact fun count hcount => VarInt.read_take_eq_error h hcount
  · obtain ⟨bytes, -, hspells, hsize⟩ := VarInt.read_eq_ok_iff.mp h
    rw [hsize]
    exact hspells.length_encode_le
  · exact Uint24.decode_eq_ok_iff_encode.mpr ⟨digits, h, standsAt_between front digits rest⟩

theorem integers_read_back_overlong :
    let buffer : Bytes := [0xaa, 0xfe, 0x05, 0x00, 0x00, 0x00, 0xcc]
    let five : VarInt := ⟨5, 5⟩
    VarInt.read buffer 1 = .ok five ∧ five.Fits ∧
      VarInt.read ([0xbb] ++ (five.encode ++ [0xdd])) 1 = .ok five ∧
      (∃ e, VarInt.read (buffer.take (1 + 4)) 1 = .error e) ∧ (VarInt.ofValue 5).encode.length ≤ 5 ∧
      Uint24.encode 0x010203 = .ok [1, 2, 3] ∧ Uint24.decode ([0xff] ++ ([1, 2, 3] ++ [])) 1 = .ok 0x010203 ∧
      VarInt.readAt buffer 0xffffffffffffffff = .error (.truncated 0xffffffffffffffff 1 7) := by
  intro buffer five
  obtain ⟨-, hfits, -, hread, -, huint, hword⟩ := integers_read_back
  have hfive : VarInt.read buffer 1 = .ok five := by decide
  have hvalue : Uint24.encode 0x010203 = .ok [1, 2, 3] := by decide
  have hfits_five : five.Fits := .inr (.inr (.inl ⟨rfl, by decide⟩))
  obtain ⟨-, hshort, hlength⟩ := hread buffer 1 five hfive
  have hlast := (hword buffer (by decide) 0xffffffffffffffff).1
  exact ⟨hfive, hfits_five, (hfits five).mpr hfits_five [0xbb] [0xdd], hshort 4 (by decide), hlength,
    hvalue, huint _ _ hvalue [0xff] [], hlast.trans (by decide)⟩

end BlockAudit
