import BlockAudit.Bytes
import Mathlib.Tactic.Ring

/-! Numbers and their digits in base 256: what is written reads back. -/
namespace BlockAudit

@[simp] theorem length_littleEndianFixed (size n : Nat) :
    (littleEndianFixed size n).length = size := by
  induction size generalizing n with
  | zero => rfl
  | succ size ih => simp [littleEndianFixed, ih]

@[simp] theorem length_bigEndianFixed (size n : Nat) :
    (bigEndianFixed size n).length = size := by
  simp [bigEndianFixed]

/-- The first digit is the least significant one. -/
theorem ofLittleEndian_cons (byte : UInt8) (bytes : Bytes) :
    ofLittleEndian (byte :: bytes) = byte.toNat + 256 * ofLittleEndian bytes := rfl

theorem ofNat_toNat_add (byte : UInt8) (n : Nat) : UInt8.ofNat (byte.toNat + 256 * n) = byte := by
  apply UInt8.toNat_inj.mp
  have hlt := byte.toNat_lt
  rw [UInt8.toNat_ofNat']
  omega

theorem toNat_add_div (byte : UInt8) (n : Nat) : (byte.toNat + 256 * n) / 256 = n := by
  have hlt := byte.toNat_lt
  omega

theorem ofLittleEndian_littleEndianFixed (size n : Nat) :
    ofLittleEndian (littleEndianFixed size n) = n % 256 ^ size := by
  induction size generalizing n with
  | zero => simp [littleEndianFixed, ofLittleEndian, Nat.mod_one]
  | succ size ih =>
    have hbyte : (UInt8.ofNat n).toNat = n % 256 := UInt8.toNat_ofNat'
    rw [littleEndianFixed, ofLittleEndian_cons, ih, hbyte, pow_succ', Nat.mod_mul]

theorem ofLittleEndian_littleEndian (n : Nat) : ofLittleEndian (littleEndian n) = n := by
  fun_induction littleEndian n with
  | case1 => rfl
  | case2 n hn ih =>
    rw [ofLittleEndian_cons, ih, UInt8.toNat_ofNat']
    omega

theorem ofBigEndian_reverse (bytes : Bytes) : ofBigEndian bytes.reverse = ofLittleEndian bytes := by
  simp only [ofBigEndian, ofLittleEndian, List.foldl_reverse]
  congr 1
  funext b n
  omega

theorem ofBigEndian_bigEndianFixed (size n : Nat) :
    ofBigEndian (bigEndianFixed size n) = n % 256 ^ size := by
  rw [bigEndianFixed, ofBigEndian_reverse, ofLittleEndian_littleEndianFixed]

theorem ofBigEndian_bigEndian (n : Nat) : ofBigEndian (bigEndian n) = n := by
  rw [bigEndian, ofBigEndian_reverse, ofLittleEndian_littleEndian]

theorem bigEndian_injective {m n : Nat} (h : bigEndian m = bigEndian n) : m = n := by
  rw [← ofBigEndian_bigEndian m, h, ofBigEndian_bigEndian]

theorem ofLittleEndian_lt (bytes : Bytes) : ofLittleEndian bytes < 256 ^ bytes.length := by
  induction bytes with
  | nil => exact Nat.one_pos
  | cons byte bytes ih =>
    have hbyte := byte.toNat_lt
    rw [ofLittleEndian_cons, List.length_cons, pow_succ]
    omega

theorem ofBigEndian_lt (bytes : Bytes) : ofBigEndian bytes < 256 ^ bytes.length := by
  have h := ofLittleEndian_lt bytes.reverse
  rwa [← ofBigEndian_reverse, List.reverse_reverse, List.length_reverse] at h

theorem littleEndianFixed_ofLittleEndian (bytes : Bytes) :
    littleEndianFixed bytes.length (ofLittleEndian bytes) = bytes := by
  induction bytes with
  | nil => rfl
  | cons byte bytes ih =>
    rw [List.length_cons, littleEndianFixed, ofLittleEndian_cons, ofNat_toNat_add, toNat_add_div, ih]

theorem ofLittleEndian_append (low high : Bytes) :
    ofLittleEndian (low ++ high) = ofLittleEndian low + 256 ^ low.length * ofLittleEndian high := by
  induction low with
  | nil => simp [ofLittleEndian]
  | cons byte low ih =>
    rw [List.cons_append, ofLittleEndian_cons, ofLittleEndian_cons, ih, List.length_cons, pow_succ]
    ring

theorem ofBigEndian_cons (byte : UInt8) (bytes : Bytes) :
    ofBigEndian (byte :: bytes) = byte.toNat * 256 ^ bytes.length + ofBigEndian bytes := by
  have h := ofLittleEndian_append bytes.reverse [byte]
  rw [← List.reverse_cons, ← ofBigEndian_reverse, ← ofBigEndian_reverse, List.reverse_reverse,
    List.reverse_reverse, List.length_reverse, ofLittleEndian_cons] at h
  rw [h]
  change _ + 256 ^ bytes.length * (byte.toNat + 256 * 0) = _
  ring

theorem ofBigEndian_zero_cons (bytes : Bytes) : ofBigEndian (0 :: bytes) = ofBigEndian bytes := rfl

theorem ofBigEndian_replicate_append (count : Nat) (bytes : Bytes) :
    ofBigEndian (List.replicate count 0 ++ bytes) = ofBigEndian bytes := by
  induction count with
  | zero => rfl
  | succ count ih => rw [List.replicate_succ, List.cons_append, ofBigEndian_zero_cons, ih]

theorem bigEndianFixed_ofBigEndian (bytes : Bytes) :
    bigEndianFixed bytes.length (ofBigEndian bytes) = bytes := by
  have h := littleEndianFixed_ofLittleEndian bytes.reverse
  rw [← ofBigEndian_reverse, List.reverse_reverse, List.length_reverse] at h
  rw [bigEndianFixed, h, List.reverse_reverse]

/-- Digits without zeros at the end are the digits of their number. -/
theorem littleEndian_ofLittleEndian {bytes : Bytes} (h : bytes.getLast? ≠ some 0) :
    littleEndian (ofLittleEndian bytes) = bytes := by
  induction bytes with
  | nil =>
    rw [littleEndian]
    exact if_pos rfl
  | cons byte bytes ih =>
    have hrest : littleEndian (ofLittleEndian bytes) = bytes := by
      apply ih
      intro hlast
      rw [List.getLast?_cons, hlast] at h
      exact h rfl
    have hne : ofLittleEndian (byte :: bytes) ≠ 0 := by
      intro hzero
      rw [ofLittleEndian_cons] at hzero
      have hbytes : bytes = [] := by
        rw [← hrest, show ofLittleEndian bytes = 0 by omega, littleEndian, if_pos rfl]
      have hbyte : byte = 0 := UInt8.toNat_inj.mp (show byte.toNat = 0 by omega)
      rw [hbytes, hbyte] at h
      exact h rfl
    rw [littleEndian, if_neg hne, ofLittleEndian_cons, ofNat_toNat_add, toNat_add_div, hrest]

theorem bigEndian_ofBigEndian {bytes : Bytes} (h : bytes.head? ≠ some 0) :
    bigEndian (ofBigEndian bytes) = bytes := by
  have hlast : bytes.reverse.getLast? ≠ some 0 := by
    rwa [List.getLast?_reverse]
  have hdigits := littleEndian_ofLittleEndian hlast
  rw [← ofBigEndian_reverse, List.reverse_reverse] at hdigits
  rw [bigEndian, hdigits, List.reverse_reverse]

/-- Bytes without zeros in front are the shortest form of their number. -/
theorem stripLeadingZeros_eq_bigEndian (bytes : Bytes) :
    stripLeadingZeros bytes = bigEndian (ofBigEndian bytes) := by
  induction bytes with
  | nil =>
    have hnil : ([] : Bytes).head? ≠ some 0 := by simp
    exact (bigEndian_ofBigEndian hnil).symm
  | cons byte bytes ih =>
    by_cases hbyte : byte = 0
    · rw [hbyte, ofBigEndian_zero_cons, ← ih]
      rfl
    · have hhead : (byte :: bytes).head? ≠ some 0 := fun h => hbyte (Option.some.inj h)
      rw [bigEndian_ofBigEndian hhead]
      exact List.dropWhile_cons_of_neg (by simpa using hbyte)

theorem lt_pow_length_bigEndian (n : Nat) : n < 256 ^ (bigEndian n).length := by
  have h := ofLittleEndian_lt (littleEndian n)
  rwa [ofLittleEndian_littleEndian, ← List.length_reverse, ← bigEndian] at h

theorem length_littleEndian_le {n size : Nat} (h : n < 256 ^ size) :
    (littleEndian n).length ≤ size := by
  induction size generalizing n with
  | zero =>
    have hn : n = 0 := by simpa using h
    simp [hn, littleEndian]
  | succ size ih =>
    rw [littleEndian]
    split
    · simp
    · have := ih (Nat.div_lt_of_lt_mul (by rwa [pow_succ'] at h))
      simpa using this

theorem length_bigEndian_le {n size : Nat} (h : n < 256 ^ size) :
    (bigEndian n).length ≤ size := by
  simpa [bigEndian] using length_littleEndian_le h

/-- The most significant digit is the last one of the little-endian form. -/
theorem getLast?_littleEndian_ne (n : Nat) : (littleEndian n).getLast? ≠ some 0 := by
  fun_induction littleEndian n with
  | case1 => simp
  | case2 n hn ih =>
    by_cases hz : n / 256 = 0
    · have hlt : n < 256 := by omega
      have hb : UInt8.ofNat n ≠ 0 := by
        intro h
        have := congrArg UInt8.toNat h
        rw [UInt8.toNat_ofNat'] at this
        simp at this
        omega
      simpa [hz, littleEndian] using hb
    · have hne : littleEndian (n / 256) ≠ [] := by
        rw [littleEndian]
        simp [hz]
      rwa [List.getLast?_cons, Option.getD_of_ne_none (by simpa using hne)]

theorem head?_bigEndian_ne (n : Nat) : (bigEndian n).head? ≠ some 0 := by
  rw [bigEndian, List.head?_reverse]
  exact getLast?_littleEndian_ne n

end BlockAudit
