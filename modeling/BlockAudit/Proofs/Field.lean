import BlockAudit.Uint24
import BlockAudit.VarInt
import BlockAudit.Proofs.Digits

/-! Fields and integers inside a longer buffer: what was written at an offset is read there. -/
namespace BlockAudit

/-- The bytes stand in a buffer at an offset. -/
def StandsAt (bytes buffer : Bytes) (offset : Nat) : Prop :=
  ∃ front rest, buffer = front ++ (bytes ++ rest) ∧ offset = front.length

section StandsAt

variable {buffer bytes rest : Bytes} {byte : UInt8} {offset needed : Nat}

theorem standsAt_self (bytes : Bytes) : StandsAt bytes bytes 0 :=
  ⟨[], [], by simp, rfl⟩

theorem standsAt_between (front bytes rest : Bytes) :
    StandsAt bytes (front ++ (bytes ++ rest)) front.length :=
  ⟨front, rest, rfl, rfl⟩

theorem StandsAt.append (h : StandsAt (bytes ++ rest) buffer offset) :
    StandsAt bytes buffer offset ∧ StandsAt rest buffer (offset + bytes.length) := by
  obtain ⟨front, back, rfl, rfl⟩ := h
  exact ⟨⟨front, rest ++ back, by simp, rfl⟩, ⟨front ++ bytes, back, by simp, by simp⟩⟩

theorem StandsAt.cons (h : StandsAt (byte :: bytes) buffer offset) :
    StandsAt [byte] buffer offset ∧ StandsAt bytes buffer (offset + 1) :=
  StandsAt.append h

theorem standsAt_nil (h : offset ≤ buffer.length) : StandsAt [] buffer offset :=
  ⟨buffer.take offset, buffer.drop offset, by simp, by simp [h]⟩

theorem standsAt_drop (h : offset ≤ buffer.length) :
    StandsAt (buffer.drop offset) buffer offset :=
  ⟨buffer.take offset, [], by simp, by simp [h]⟩

theorem StandsAt.le_length (h : StandsAt bytes buffer offset) :
    offset + bytes.length ≤ buffer.length := by
  obtain ⟨front, back, rfl, rfl⟩ := h
  simp only [List.length_append]
  omega

/-- What stands in a buffer stands in it still when more bytes follow. -/
theorem StandsAt.extend (h : StandsAt bytes buffer offset) (more : Bytes) :
    StandsAt bytes (buffer ++ more) offset := by
  obtain ⟨front, back, rfl, rfl⟩ := h
  exact ⟨front, back ++ more, by simp, rfl⟩

theorem standsAt_append_iff :
    StandsAt (bytes ++ rest) buffer offset ↔
      StandsAt bytes buffer offset ∧ StandsAt rest buffer (offset + bytes.length) := by
  constructor
  · exact StandsAt.append
  · rintro ⟨⟨front, back, hbuffer, rfl⟩, ⟨front', back', hbuffer', hlen⟩⟩
    have hboth : front' ++ (rest ++ back') = (front ++ bytes) ++ back := by
      rw [← hbuffer', hbuffer, List.append_assoc]
    have hfront : front' = front ++ bytes := (List.append_inj hboth (by simp [hlen])).1
    exact ⟨front, back', by rw [hbuffer', hfront]; simp, rfl⟩

theorem standsAt_cons_iff :
    StandsAt (byte :: bytes) buffer offset ↔
      StandsAt [byte] buffer offset ∧ StandsAt bytes buffer (offset + 1) := by
  rw [← List.singleton_append, standsAt_append_iff, List.length_singleton]

theorem StandsAt.take_drop (h : StandsAt bytes buffer offset) :
    (buffer.drop offset).take bytes.length = bytes := by
  obtain ⟨front, back, rfl, rfl⟩ := h
  simp

theorem StandsAt.getElem? (h : StandsAt [byte] buffer offset) : buffer[offset]? = some byte := by
  obtain ⟨front, back, rfl, rfl⟩ := h
  simp

theorem StandsAt.field (h : StandsAt bytes buffer offset) :
    field buffer offset bytes.length = .ok bytes := by
  rw [BlockAudit.field, if_pos h.le_length, h.take_drop]

theorem StandsAt.byteField (h : StandsAt [byte] buffer offset) :
    byteField buffer offset = .ok byte := by
  rw [BlockAudit.byteField, h.getElem?]

theorem StandsAt.drop (h : StandsAt bytes buffer offset)
    (hend : buffer.length = offset + bytes.length) : buffer.drop offset = bytes := by
  obtain ⟨front, back, rfl, rfl⟩ := h
  have hback : back = [] := by
    rw [← List.length_eq_zero_iff]
    simp only [List.length_append] at hend
    omega
  simp [hback]

/-- Bytes of the length of the buffer stand at its front only if they are the buffer. -/
theorem standsAt_zero_iff (h : buffer.length = bytes.length) :
    StandsAt bytes buffer 0 ↔ buffer = bytes := by
  constructor
  · intro hb
    simpa using hb.drop (by omega)
  · rintro rfl
    exact standsAt_self _

theorem prefix_iff_standsAt_zero : bytes <+: buffer ↔ StandsAt bytes buffer 0 := by
  constructor
  · intro h
    obtain ⟨rest, hbuffer⟩ := h
    exact ⟨[], rest, hbuffer.symm, rfl⟩
  · intro h
    obtain ⟨front, rest, hbuffer, hoffset⟩ := h
    have hfront := List.length_eq_zero_iff.mp hoffset.symm
    rw [hfront] at hbuffer
    exact ⟨rest, hbuffer.symm⟩

/-- A field is read exactly where its bytes stand. -/
theorem field_eq_ok_iff :
    field buffer offset needed = .ok bytes ↔
      StandsAt bytes buffer offset ∧ bytes.length = needed := by
  constructor
  · intro h
    obtain ⟨hlen, hle⟩ := length_of_field h
    refine ⟨⟨buffer.take offset, (buffer.drop offset).drop needed, ?_, ?_⟩, hlen⟩
    · rw [field, if_pos hle] at h
      rw [← Except.ok.inj h, List.take_append_drop, List.take_append_drop]
    · rw [List.length_take]
      omega
  · rintro ⟨h, rfl⟩
    exact h.field

theorem field_extend (h : field buffer offset needed = .ok bytes) (more : Bytes) :
    field (buffer ++ more) offset needed = .ok bytes := by
  obtain ⟨hstands, hlength⟩ := field_eq_ok_iff.mp h
  exact field_eq_ok_iff.mpr ⟨hstands.extend more, hlength⟩

/-- The 32 bytes of a hash make the same hash again. -/
theorem takeFrom_toBytes (hash : Hash) : FixedBytes.takeFrom 32 hash.toBytes = hash :=
  FixedBytes.ext (FixedBytes.toBytes_takeFrom hash.length_toBytes)

theorem takeFrom_take (size : Nat) (bytes : Bytes) :
    FixedBytes.takeFrom size (bytes.take size) = .takeFrom size bytes := by
  apply FixedBytes.ext
  have hpad : size - min size bytes.length = size - bytes.length := by omega
  simp [FixedBytes.takeFrom, hpad, List.take_take]

theorem field_hash {hash : Hash} (h : StandsAt hash.toBytes buffer offset) :
    field buffer offset 32 = .ok hash.toBytes := by
  have hfield := h.field
  rwa [hash.length_toBytes] at hfield

theorem byteField_eq_ok_iff :
    byteField buffer offset = .ok byte ↔ StandsAt [byte] buffer offset := by
  constructor
  · intro h
    unfold byteField at h
    split at h
    · rename_i b hb
      cases h
      obtain ⟨hlt, rfl⟩ := List.getElem?_eq_some_iff.mp hb
      refine ⟨buffer.take offset, buffer.drop (offset + 1), ?_, ?_⟩
      · rw [List.singleton_append, List.getElem_cons_drop, List.take_append_drop]
      · rw [List.length_take]
        omega
    · cases h
  · exact StandsAt.byteField

/-- A number of a fixed size is read where it stands. -/
theorem field_bigEndianFixed {size n : Nat} (hlt : n < 256 ^ size)
    (hb : StandsAt (bigEndianFixed size n) buffer offset) :
    field buffer offset size = .ok (bigEndianFixed size n) ∧
      ofBigEndian (bigEndianFixed size n) = n := by
  have hfield := hb.field
  rw [length_bigEndianFixed] at hfield
  exact ⟨hfield, by rw [ofBigEndian_bigEndianFixed, Nat.mod_eq_of_lt hlt]⟩

/-- Every field is a number of its size. -/
theorem field_bigEndianFixed_iff {size : Nat} :
    field buffer offset size = .ok bytes ↔
      ∃ n < 256 ^ size, bytes = bigEndianFixed size n ∧
        StandsAt (bigEndianFixed size n) buffer offset := by
  rw [field_eq_ok_iff]
  constructor
  · rintro ⟨hstands, rfl⟩
    have hbytes := bigEndianFixed_ofBigEndian bytes
    exact ⟨ofBigEndian bytes, ofBigEndian_lt bytes, hbytes.symm, hbytes.symm ▸ hstands⟩
  · rintro ⟨n, -, rfl, hstands⟩
    exact ⟨hstands, length_bigEndianFixed size n⟩

end StandsAt

namespace VarInt

/-- A size is wide enough for its value. In one byte there is no room for the markers. -/
def Fits (v : VarInt) : Prop :=
  (v.size = 1 ∧ v.value.toNat ≤ 0xfc) ∨ (v.size = 3 ∧ v.value.toNat < 256 ^ 2) ∨
    (v.size = 5 ∧ v.value.toNat < 256 ^ 4) ∨ v.size = 9

theorem fits_ofValue (value : UInt64) : (ofValue value).Fits := by
  unfold Fits ofValue sizeOf
  simp only [UInt64.le_iff_toNat_le]
  have h1 : (0xfc : UInt64).toNat = 0xfc := rfl
  have h2 : (0xffff : UInt64).toNat = 0xffff := rfl
  have h3 : (0xffffffff : UInt64).toNat = 0xffffffff := rfl
  rw [h1, h2, h3]
  grind

theorem length_encode {v : VarInt} (h : v.Fits) : v.encode.length = v.size := by
  rcases h with ⟨hs, -⟩ | ⟨hs, -⟩ | ⟨hs, -⟩ | hs <;> simp [encode, hs]

/-- Reading at the offset where a marker and its payload stand. -/
theorem read_marked {buffer payload : Bytes} {marker : UInt8} {offset : Nat}
    (h : StandsAt (marker :: payload) buffer offset) (hm : payloadSize marker = payload.length)
    (hp : payload ≠ []) :
    read buffer offset = .ok ⟨.ofNat (ofLittleEndian payload), payload.length + 1⟩ := by
  obtain ⟨hmarker, hpayload⟩ := h.cons
  have hfield := hpayload.field
  obtain ⟨n, hn⟩ : ∃ n, payload.length = n + 1 :=
    Nat.exists_eq_succ_of_ne_zero (by simpa using hp)
  rw [hn] at hm hfield
  simp only [read, hmarker.byteField, bind, Except.bind, hm, hfield, pure, Except.pure, hn]

theorem ofNat_ofLittleEndian {value : UInt64} {size : Nat} (h : value.toNat < 256 ^ size) :
    UInt64.ofNat (ofLittleEndian (littleEndianFixed size value.toNat)) = value := by
  rw [ofLittleEndian_littleEndianFixed, Nat.mod_eq_of_lt h, UInt64.ofNat_toNat]

theorem read_encode {v : VarInt} (h : v.Fits) {buffer : Bytes} {offset : Nat}
    (hb : StandsAt v.encode buffer offset) : read buffer offset = .ok v := by
  obtain ⟨value, size⟩ := v
  have hv := value.toNat_lt
  rcases h with ⟨hs, hv⟩ | ⟨hs, hv⟩ | ⟨hs, hv⟩ | hs <;> simp only at hs hv <;> subst hs
  · have hbyte : byteField buffer offset = .ok value.toUInt8 := hb.byteField
    have hback : value.toUInt8.toUInt64 = value := by
      apply UInt64.toNat_inj.mp
      simp
      omega
    have hsize : payloadSize value.toUInt8 = 0 := by
      have hn : value.toUInt8.toNat = value.toNat := by simp; omega
      unfold payloadSize
      simp only [← UInt8.toNat_inj, hn]
      split_ifs <;> simp_all
    simp only [read, hbyte, bind, Except.bind, hsize, pure, Except.pure, hback]
  · rw [read_marked hb (by simp; rfl) (by simp [littleEndianFixed]), ofNat_ofLittleEndian hv,
      length_littleEndianFixed]
  · rw [read_marked hb (by simp; rfl) (by simp [littleEndianFixed]), ofNat_ofLittleEndian hv,
      length_littleEndianFixed]
  · rw [read_marked hb (by simp; rfl) (by simp [littleEndianFixed]), ofNat_ofLittleEndian hv,
      length_littleEndianFixed]

end VarInt

namespace Uint24

@[simp] theorem length_bytes (value : Nat) : (bytes value).length = 3 := by
  simp [bytes, size]

theorem decode_bytes {value : Nat} (h : value ≤ max) {buffer : Bytes} {offset : Nat}
    (hb : StandsAt (bytes value) buffer offset) : decode buffer offset = .ok value := by
  have hlt : value < 256 ^ size := Nat.lt_succ_of_le h
  have hfield : field buffer offset size = .ok (bytes value) := hb.field
  rw [decode, hfield]
  simp [Except.map, bytes, ofBigEndian_bigEndianFixed, Nat.mod_eq_of_lt hlt]

end Uint24

end BlockAudit
