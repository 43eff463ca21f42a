import BlockAudit.Proofs.BitPath
import Mathlib.Data.List.Induction

/-!
Packed paths bit by bit. Bit `i` of bytes is bit `7 - i % 8` of byte `i / 8`, both where a path is read from
bytes and where its bits are set one after the other in bytes of zeros.
-/
namespace BlockAudit.BitPath

theorem getElem?_ofByte (byte : UInt8) (i : Nat) :
    (ofByte byte)[i]? = if i < 8 then some (byte.toNat.testBit (7 - i)) else none := by
  unfold ofByte
  rw [List.getElem?_map]
  by_cases h : i < 8
  · rw [List.getElem?_range h, if_pos h, Option.map_some]
  · rw [List.getElem?_eq_none (by simpa using h), if_neg h, Option.map_none]

theorem getElem?_ofBytes (bytes : Bytes) (i : Nat) :
    (ofBytes bytes)[i]? = bytes[i / 8]?.map fun byte => byte.toNat.testBit (7 - i % 8) := by
  induction bytes generalizing i with
  | nil => simp [ofBytes]
  | cons byte bytes ih =>
    rw [ofBytes_cons, List.getElem?_append, length_ofByte]
    split
    case isTrue h =>
      have hbyte : i / 8 = 0 := by omega
      have hbit : i % 8 = i := by omega
      rw [getElem?_ofByte, if_pos h, hbyte, hbit]
      rfl
    case isFalse h =>
      have hbyte : i / 8 = (i - 8) / 8 + 1 := by omega
      have hbit : (i - 8) % 8 = i % 8 := by omega
      rw [ih, hbyte, hbit, List.getElem?_cons_succ]

theorem ofPacked_pack_append (path : BitPath) (more : Bytes) :
    ofPacked (pack path ++ more) path.length = .ok path := by
  apply ofPacked_eq_ok_iff.mpr
  constructor
  · rw [List.length_append, length_pack]
    exact Nat.le_add_right _ _
  · rw [ofBytes_append, ofBytes_pack, List.append_assoc, List.take_left' rfl]

theorem ofBytes_replicate_zero (count : Nat) :
    ofBytes (List.replicate count 0) = List.replicate (8 * count) false := by
  have hzero : ofByte 0 = List.replicate 8 false := by decide
  induction count with
  | zero => rfl
  | succ count ih =>
    rw [List.replicate_succ, ofBytes_cons, ih, hzero, List.replicate_append_replicate]
    congr 1
    omega

section SetBits

/-- A byte with a bit turned on has that bit and its own. -/
theorem testBit_or_shiftRight (byte : UInt8) {i j : Nat} (hi : i < 8) (hj : j < 8) :
    (byte ||| 0x80 >>> UInt8.ofNat i).toNat.testBit (7 - j) =
      (byte.toNat.testBit (7 - j) || decide (i = j)) := by
  have hmask : ∀ i j : Fin 8,
      ((0x80 : UInt8) >>> UInt8.ofNat i).toNat.testBit (7 - j) = decide (i = j) := by decide
  have hij := hmask ⟨i, hi⟩ ⟨j, hj⟩
  rw [UInt8.toNat_or, Nat.testBit_or, hij]
  simp

theorem getElem?_ofBytes_setBit (bytes : Bytes) (i j : Nat) :
    (ofBytes (setBit bytes i))[j]? = (ofBytes bytes)[j]?.map (· || decide (i = j)) := by
  rw [getElem?_ofBytes, getElem?_ofBytes, setBit, List.getElem?_modify]
  cases bytes[j / 8]? with
  | none => rfl
  | some byte =>
    by_cases hbyte : i / 8 = j / 8
    · have hbits : i % 8 = j % 8 ↔ i = j := by omega
      have hor := testBit_or_shiftRight byte (Nat.mod_lt i (by decide)) (Nat.mod_lt j (by decide))
      simp only [hbyte, if_true, Option.map_eq_map, Option.map_some, hor, hbits]
    · have hne : i ≠ j := fun h => hbyte (congrArg (· / 8) h)
      simp [hbyte, hne]

theorem setBitsIn_append (bytes : Bytes) (path : BitPath) (bit : Bool) :
    setBitsIn bytes (path ++ [bit]) =
      if bit then setBit (setBitsIn bytes path) path.length else setBitsIn bytes path := by
  simp [setBitsIn, List.zipIdx_append]

/-- After a path was set in bytes, their bits are on where they were before or the path is. -/
theorem getElem?_ofBytes_setBitsIn (bytes : Bytes) (path : BitPath) (j : Nat) :
    (ofBytes (setBitsIn bytes path))[j]? =
      (ofBytes bytes)[j]?.map (· || decide (path[j]? = some true)) := by
  -- From the back: the last bit is set in what the bits before it left, at the index that is their number.
  induction path using List.reverseRecOn with
  | nil => simp [setBitsIn]
  | append_singleton path bit ih =>
    have hon : (path ++ [bit])[j]? = some true ↔
        path[j]? = some true ∨ bit = true ∧ path.length = j := by
      grind
    rw [setBitsIn_append]
    cases bit with
    | false =>
      rw [if_neg Bool.false_ne_true, ih]
      simp [hon]
    | true =>
      rw [if_pos rfl, getElem?_ofBytes_setBit, ih, Option.map_map]
      simp [hon, Function.comp_def, Bool.or_assoc]

theorem setBits_eq_pack (path : BitPath) : setBits path = pack path := by
  have hroom : path.length ≤ 8 * packedLength path.length := by
    unfold packedLength
    omega
  apply ofBytes_injective
  apply List.ext_getElem?
  intro j
  rw [setBits, getElem?_ofBytes_setBitsIn, ofBytes_replicate_zero, ofBytes_pack,
    List.getElem?_append, List.getElem?_replicate, List.getElem?_replicate]
  by_cases hj : j < path.length
  · have hin : j < 8 * packedLength path.length := by omega
    rw [if_pos hin, if_pos hj, List.getElem?_eq_getElem hj]
    simp
  · have hnone : path[j]? = none := List.getElem?_eq_none (by omega)
    have hbound : j < 8 * packedLength path.length ↔
        j - path.length < 8 * packedLength path.length - path.length := by omega
    rw [if_neg hj, if_congr hbound rfl rfl, hnone]
    split <;> simp

end SetBits

/-- The byte with its `count` low bits cleared. -/
def clearLow (count : Nat) (byte : UInt8) : UInt8 :=
  .ofNat (byte.toNat >>> count <<< count)

theorem testBit_clearLow (count : Nat) (byte : UInt8) (i : Nat) :
    (clearLow count byte).toNat.testBit i = (decide (count ≤ i) && byte.toNat.testBit i) := by
  have hlt := byte.toNat_lt
  have hle : byte.toNat >>> count <<< count ≤ byte.toNat := by
    rw [Nat.shiftLeft_eq, Nat.shiftRight_eq_div_pow]
    exact Nat.div_mul_le_self _ _
  have hnat : (clearLow count byte).toNat = byte.toNat >>> count <<< count := by
    rw [clearLow, UInt8.toNat_ofNat', Nat.mod_eq_of_lt (by omega)]
  rw [hnat, Nat.testBit_shiftLeft, Nat.testBit_shiftRight]
  by_cases h : count ≤ i
  · simp [h]
  · simp [h]

/-- The bits of a byte that lie behind bit `length` are the ones that are cleared. -/
theorem testBit_clearLow_of_div_eq {length j : Nat} (byte : UInt8) (h : length / 8 = j / 8) :
    (clearLow (8 - length % 8) byte).toNat.testBit (7 - j % 8) =
      (decide (j < length) && byte.toNat.testBit (7 - j % 8)) := by
  have hkept : 8 - length % 8 ≤ 7 - j % 8 ↔ j < length := by omega
  rw [testBit_clearLow]
  simp only [hkept]

/-- The first bits of bytes are packed into the bytes that hold them, where the bits after them are cleared. -/
theorem pack_take_ofBytes_eq {bytes : Bytes} {length : Nat} (h : packedLength length ≤ bytes.length) :
    pack ((ofBytes bytes).take length) =
      (bytes.take (packedLength length)).modify (length / 8) (clearLow (8 - length % 8)) := by
  have hlength := length_take_ofBytes h
  apply ofBytes_injective
  apply List.ext_getElem?
  intro j
  rw [ofBytes_pack, hlength, getElem?_ofBytes, List.getElem?_modify, List.getElem?_append, hlength,
    List.getElem?_take, List.getElem?_replicate, List.getElem?_take, getElem?_ofBytes]
  unfold packedLength at h ⊢
  by_cases hend : j / 8 < (length + 7) / 8
  · have hbyte : bytes[j / 8]? = some bytes[j / 8] := List.getElem?_eq_getElem (by omega)
    rw [if_pos hend, hbyte]
    by_cases hj : j < length
    · by_cases hlast : length / 8 = j / 8
      · simp [hj, hlast, testBit_clearLow_of_div_eq]
      · simp [hj, hlast]
    · have hlast : length / 8 = j / 8 := by omega
      have hpad : j - length < 8 * ((length + 7) / 8) - length := by omega
      simp [hj, hlast, hpad, testBit_clearLow_of_div_eq]
  · have hj : ¬ j < length := by omega
    have hpad : ¬ j - length < 8 * ((length + 7) / 8) - length := by omega
    simp [hend, hj, hpad]

/-- A path is packed bit by bit, and packed bits are read as that path whatever follows them. Bytes are
read exactly if they hold as many bits as asked for, and packing what was read only clears the bits behind
them. -/
theorem pack_and_ofPacked_agree :
    (∀ path, pack path = setBits path) ∧
    (∀ path more, ofPacked (pack path ++ more) path.length = .ok path) ∧
    (∀ bytes length, (∃ path, ofPacked bytes length = .ok path) ↔ (length + 7) / 8 ≤ bytes.length) ∧
    (∀ bytes length path, ofPacked bytes length = .ok path →
      path.length = length ∧
      (∀ i < length, ∃ byte, bytes[i / 8]? = some byte ∧
        path.get i = .ok (byte.toNat.testBit (7 - i % 8))) ∧
      pack path = (bytes.take ((length + 7) / 8)).modify (length / 8) (clearLow (8 - length % 8))) ∧
    ∀ bytes, pack (ofBytes bytes) = bytes := by
  refine ⟨fun path => (setBits_eq_pack path).symm, ofPacked_pack_append, fun bytes length => ?_,
    fun bytes length path h => ?_, pack_ofBytes⟩
  · simp only [ofPacked_eq_ok_iff, exists_and_left, exists_eq, and_true]
    rfl
  · obtain ⟨hle, rfl⟩ := ofPacked_eq_ok_iff.mp h
    have hlength := length_take_ofBytes hle
    refine ⟨hlength, fun i hi => ?_, pack_take_ofBytes_eq hle⟩
    have hbyte : i / 8 < bytes.length := by
      unfold packedLength at hle
      omega
    refine ⟨bytes[i / 8], List.getElem?_eq_getElem hbyte, ?_⟩
    rw [get, List.getElem?_take, if_pos hi, getElem?_ofBytes, List.getElem?_eq_getElem hbyte,
      Option.map_some]

theorem pack_and_ofPacked_agree_thirteen :
    let path : BitPath :=
      [true, false, true, true, false, true, true, true, false, true, false, true, true]
    ofPacked [0xb7, 0x5a, 0xff] 13 = .ok path ∧ pack path = [0xb7, 0x58] ∧
      path.get 9 = .ok ((0x5a : UInt8).toNat.testBit 6) ∧
      ofPacked (pack path ++ [0x07]) 13 = .ok path := by
  intro path
  obtain ⟨-, hback, -, hread, -⟩ := pack_and_ofPacked_agree
  have hpath : ofPacked [0xb7, 0x5a, 0xff] 13 = .ok path := by decide
  obtain ⟨-, hbits, hpack⟩ := hread _ _ _ hpath
  obtain ⟨byte, hbyte, hbit⟩ := hbits 9 (by decide)
  cases hbyte
  exact ⟨hpath, hpack, hbit, hback path [0x07]⟩

end BlockAudit.BitPath
