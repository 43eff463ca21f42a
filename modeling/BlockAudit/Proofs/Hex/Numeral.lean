import BlockAudit.Proofs.Digits
import BlockAudit.Proofs.Hex
import BlockAudit.Proofs.Numeral

/-!
Byte strings as numbers in hexadecimal digits. A text is read as bytes if and only if it spells them, and
it spells them if and only if it is their number in two digits for each of them.
-/
namespace BlockAudit.Hex

open Text (ofDigits?)

variable {n count size : Nat} {c : Char} {byte : UInt8} {chars : List Char} {bytes : Bytes}

section Digit

set_option maxRecDepth 2000 in
/-- A digit is one in either case. -/
theorem digit?_eq_some_iff : Text.digit? 16 c = some n ↔ n < 16 ∧ IsDigit n c := by
  constructor
  · intro h
    have hall : ∀ k ∈ List.range 128, ∀ d ∈ Text.digit? 16 (Char.ofNat k),
        d < 16 ∧ (Char.ofNat k = Nat.digitChar d ∨ Char.ofNat k = (Nat.digitChar d).toUpper) := by
      decide
    exact Text.forall_ascii (p := fun c => ∀ d ∈ Text.digit? 16 c, d < 16 ∧ IsDigit d c) hall
      (Text.toNat_lt_of_digit? h) n h
  · have hall : ∀ d ∈ List.range 16, Text.digit? 16 (Nat.digitChar d) = some d ∧
        Text.digit? 16 (Nat.digitChar d).toUpper = some d := by decide
    rintro ⟨hn, rfl | rfl⟩
    · exact (hall n (List.mem_range.mpr hn)).1
    · exact (hall n (List.mem_range.mpr hn)).2

set_option maxRecDepth 2000 in
/-- A character that is no digit has a byte that is none. -/
theorem exists_bad_byte (h : Text.digit? 16 c = none) :
    ∃ byte ∈ String.utf8EncodeChar c, digit? byte = none := by
  by_cases hc : c.toNat < 128
  · have hascii : ∀ k ∈ List.range 128, Text.digit? 16 (Char.ofNat k) = none →
        ∃ byte ∈ String.utf8EncodeChar (Char.ofNat k), digit? byte = none := by decide
    exact Text.forall_ascii (p := fun c => Text.digit? 16 c = none →
      ∃ byte ∈ String.utf8EncodeChar c, digit? byte = none) hascii hc h
  · -- The last byte of a longer form holds six bits below a set bit.
    have hlast : UInt8.ofNat (c.val.toNat % 64 + 128) ∈ String.utf8EncodeChar c := by
      have hlong : ¬ c.val.toNat ≤ 127 := fun hle => hc (Nat.lt_succ_of_le hle)
      unfold String.utf8EncodeChar
      rw [if_neg hlong]
      split_ifs <;> simp
    have hhigh : ∀ k ∈ List.range 64, digit? (.ofNat (k + 128)) = none := by decide
    exact ⟨_, hlast, hhigh _ (List.mem_range.mpr (Nat.mod_lt _ (by decide)))⟩

end Digit

theorem Spells.length_eq (h : Spells chars bytes) : chars.length = 2 * bytes.length := by
  induction h with
  | nil => rfl
  | cons _ _ _ ih =>
    rw [List.length_cons, List.length_cons, List.length_cons, ih]
    omega

/-- What is spelled is the number of the digits. -/
theorem Spells.ofDigits?_eq (h : Spells chars bytes) : ofDigits? 16 chars = some (ofBigEndian bytes) := by
  induction h with
  | nil => rfl
  | @cons byte high low digits bytes hhigh hlow hrest ih =>
    have hbyte := byte.toNat_lt
    have hfirst := digit?_eq_some_iff.mpr ⟨show byte.toNat / 16 < 16 by omega, hhigh⟩
    have hsecond := digit?_eq_some_iff.mpr ⟨show byte.toNat % 16 < 16 by omega, hlow⟩
    rw [Text.ofDigits?_cons, Text.ofDigits?_cons, hfirst, hsecond, ih, ofBigEndian_cons,
      List.length_cons, hrest.length_eq, pow_succ, pow_mul]
    simp only [Option.bind_some, Option.map_some, Option.some.injEq]
    calc byte.toNat / 16 * ((16 ^ 2) ^ bytes.length * 16) +
          (byte.toNat % 16 * (16 ^ 2) ^ bytes.length + ofBigEndian bytes)
        = (16 * (byte.toNat / 16) + byte.toNat % 16) * 256 ^ bytes.length + ofBigEndian bytes := by
          rw [show 16 ^ 2 = 256 from rfl]
          ring
      _ = byte.toNat * 256 ^ bytes.length + ofBigEndian bytes := by rw [Nat.div_add_mod]

theorem exists_spells : ∀ {chars : List Char}, chars.length % 2 = 0 →
    (∀ c ∈ chars, (Text.digit? 16 c).isSome) → ∃ bytes, Spells chars bytes
  | [], _, _ => ⟨[], .nil⟩
  | [_], heven, _ => absurd heven (by simp)
  | high :: low :: digits, heven, h => by
    have hrest : digits.length % 2 = 0 := by
      rw [List.length_cons, List.length_cons] at heven
      omega
    obtain ⟨hhigh, hlow, hdigits⟩ := by simpa only [List.forall_mem_cons] using h
    obtain ⟨bytes, hbytes⟩ := exists_spells hrest hdigits
    obtain ⟨a, ha⟩ := Option.isSome_iff_exists.mp hhigh
    obtain ⟨b, hb⟩ := Option.isSome_iff_exists.mp hlow
    obtain ⟨hlta, hdigita⟩ := digit?_eq_some_iff.mp ha
    obtain ⟨hltb, hdigitb⟩ := digit?_eq_some_iff.mp hb
    have hbyte : (UInt8.ofNat (16 * a + b)).toNat = 16 * a + b := by
      rw [UInt8.toNat_ofNat']
      omega
    refine ⟨.ofNat (16 * a + b) :: bytes, .cons ?_ ?_ hbytes⟩
    · rwa [hbyte, show (16 * a + b) / 16 = a by omega]
    · rwa [hbyte, show (16 * a + b) % 16 = b by omega]

theorem spells_iff :
    Spells chars bytes ↔ chars.length = 2 * bytes.length ∧ ofDigits? 16 chars = some (ofBigEndian bytes) := by
  refine ⟨fun h => ⟨h.length_eq, h.ofDigits?_eq⟩, fun ⟨hlength, hnumber⟩ => ?_⟩
  have hdigits := Text.isSome_ofDigits?_iff.mp (Option.isSome_of_eq_some hnumber)
  obtain ⟨other, hother⟩ := exists_spells (by omega) hdigits
  have hsize : other.length = bytes.length := by
    have := hother.length_eq
    omega
  have hsame : ofBigEndian other = ofBigEndian bytes :=
    Option.some.inj (hother.ofDigits?_eq.symm.trans hnumber)
  rwa [← bigEndianFixed_ofBigEndian bytes, ← hsame, ← hsize, bigEndianFixed_ofBigEndian]

/-- Digits are single bytes. -/
theorem length_utf8_of_digits (h : ∀ c ∈ chars, (Text.digit? 16 c).isSome) :
    (chars.flatMap String.utf8EncodeChar).length = chars.length := by
  induction chars with
  | nil => rfl
  | cons c chars ih =>
    obtain ⟨hc, hchars⟩ := List.forall_mem_cons.mp h
    obtain ⟨d, hd⟩ := Option.isSome_iff_exists.mp hc
    obtain ⟨hlt, hdigit⟩ := digit?_eq_some_iff.mp hd
    rw [List.flatMap_cons, List.length_append, ih hchars, (utf8EncodeChar_of_isDigit hlt hdigit).1,
      List.length_singleton, List.length_cons, Nat.add_comm]

/-- Nothing is read but what spells bytes. -/
theorem decode_eq_ok_iff_spells :
    decode (chars.flatMap String.utf8EncodeChar) = .ok bytes ↔ Spells chars bytes := by
  refine ⟨fun h => ?_, decode_of_spells⟩
  have hread := h
  unfold decode at hread
  split at hread
  · cases hread
  rename_i heven
  split at hread
  · cases hread
  rename_i hnone
  have hdigits : ∀ c ∈ chars, (Text.digit? 16 c).isSome := by
    intro c hc
    by_contra hbad
    obtain ⟨byte, hbyte, hbyte_bad⟩ := exists_bad_byte (Option.not_isSome_iff_eq_none.mp hbad)
    have := List.findIdx?_eq_none_iff.mp hnone byte (List.mem_flatMap.mpr ⟨c, hc, hbyte⟩)
    rw [hbyte_bad] at this
    cases this
  rw [length_utf8_of_digits hdigits] at heven
  obtain ⟨other, hother⟩ := exists_spells (by omega) hdigits
  rw [decode_of_spells hother] at h
  cases h
  exact hother

section Padded

theorem flatMap_utf8_replicate_append (count : Nat) (chars : List Char) :
    (List.replicate count '0' ++ chars).flatMap String.utf8EncodeChar =
      List.replicate count 0x30 ++ chars.flatMap String.utf8EncodeChar := by
  rw [List.flatMap_append, List.flatMap_replicate]
  congr 1
  exact List.flatten_replicate_singleton

/-- Digits behind any zeros are read as the number of the digits, in as many bytes as there are pairs. -/
theorem decode_padded_eq_ok_iff :
    decode (List.replicate count 0x30 ++ chars.flatMap String.utf8EncodeChar) = .ok bytes ↔
      count + chars.length = 2 * bytes.length ∧ ofDigits? 16 chars = some (ofBigEndian bytes) := by
  rw [← flatMap_utf8_replicate_append, decode_eq_ok_iff_spells, spells_iff, List.length_append,
    List.length_replicate, Text.ofDigits?_replicate_append (by decide)]

/-- Every number is read that is written in digits. -/
theorem decode_padded_of_ofDigits? (h : ofDigits? 16 chars = some n)
    (hsize : count + chars.length = 2 * size) :
    decode (List.replicate count 0x30 ++ chars.flatMap String.utf8EncodeChar) =
      .ok (bigEndianFixed size n) := by
  have hlt : n < 256 ^ size :=
    calc n < 16 ^ chars.length := Text.ofDigits?_lt h
      _ ≤ 16 ^ (2 * size) := Nat.pow_le_pow_right (by decide) (by omega)
      _ = 256 ^ size := by rw [pow_mul, show 16 ^ 2 = 256 from rfl]
  rw [decode_padded_eq_ok_iff, length_bigEndianFixed, ofBigEndian_bigEndianFixed,
    Nat.mod_eq_of_lt hlt]
  exact ⟨hsize, h⟩

end Padded

end BlockAudit.Hex
