import BlockAudit.BitPath
import Mathlib.Data.List.Basic

/-! Paths in packed form, and the part that two paths share. -/
namespace BlockAudit.BitPath

@[simp] theorem length_ofByte (byte : UInt8) : (ofByte byte).length = 8 := by
  simp [ofByte]

@[simp] theorem ofBytes_cons (byte : UInt8) (bytes : Bytes) :
    ofBytes (byte :: bytes) = ofByte byte ++ ofBytes bytes := rfl

theorem ofBytes_append (a b : Bytes) : ofBytes (a ++ b) = ofBytes a ++ ofBytes b :=
  List.flatMap_append

theorem length_ofBytes (bytes : Bytes) : (ofBytes bytes).length = 8 * bytes.length := by
  induction bytes with
  | nil => rfl
  | cons byte bytes ih =>
    rw [ofBytes_cons, List.length_append, ih, length_ofByte, List.length_cons]
    omega

theorem length_take_ofBytes {bytes : Bytes} {length : Nat} (h : packedLength length ≤ bytes.length) :
    ((ofBytes bytes).take length).length = length := by
  rw [List.length_take, length_ofBytes]
  unfold packedLength at h
  omega

private theorem ofByte_foldl (b₀ b₁ b₂ b₃ b₄ b₅ b₆ b₇ : Bool) :
    ofByte (UInt8.ofNat ([b₀, b₁, b₂, b₃, b₄, b₅, b₆, b₇].foldl
      (fun n b => 2 * n + b.toNat) 0)) = [b₀, b₁, b₂, b₃, b₄, b₅, b₆, b₇] := by
  revert b₀ b₁ b₂ b₃ b₄ b₅ b₆ b₇
  decide

private theorem eq_eight_bits {bits : BitPath} (h : bits.length = 8) :
    ∃ b₀ b₁ b₂ b₃ b₄ b₅ b₆ b₇, bits = [b₀, b₁, b₂, b₃, b₄, b₅, b₆, b₇] := by
  match bits, h with
  | [b₀, b₁, b₂, b₃, b₄, b₅, b₆, b₇], _ => exact ⟨_, _, _, _, _, _, _, _, rfl⟩

/-- A packed byte has the bits in front and zeros after them. -/
theorem ofByte_packByte {bits : BitPath} (h : bits.length ≤ 8) :
    ofByte (packByte bits) = bits ++ List.replicate (8 - bits.length) false := by
  have hl : (bits ++ List.replicate (8 - bits.length) false).length = 8 := by simp; omega
  obtain ⟨b₀, b₁, b₂, b₃, b₄, b₅, b₆, b₇, hb⟩ := eq_eight_bits hl
  rw [packByte, hb, ofByte_foldl]

theorem packByte_ofByte (byte : UInt8) : packByte (ofByte byte) = byte := by
  have h : ∀ n : Fin 256, packByte (ofByte (UInt8.ofNat n)) = UInt8.ofNat n := by decide +kernel
  simpa using h ⟨byte.toNat, byte.toNat_lt⟩

theorem length_pack (path : BitPath) : (pack path).length = packedLength path.length := by
  fun_induction pack path with
  | case1 => rfl
  | case2 bit rest ih =>
    rw [List.length_cons, ih, packedLength, packedLength, List.length_drop, List.length_cons]
    omega

/-- The bits of a packed path are the path and less than a byte of zeros. -/
theorem ofBytes_pack (path : BitPath) :
    ofBytes (pack path) =
      path ++ List.replicate (8 * packedLength path.length - path.length) false := by
  fun_induction pack path with
  | case1 => rfl
  | case2 bit rest ih =>
    have hlen : (bit :: rest.take 7).length ≤ 8 := by
      rw [List.length_cons, List.length_take]
      omega
    have hbyte := ofByte_packByte hlen
    rw [ofBytes_cons, hbyte, ih]
    by_cases hr : 7 ≤ rest.length
    · have hfull : 8 - (bit :: rest.take 7).length = 0 := by simp; omega
      have hpad : 8 * packedLength (rest.drop 7).length - (rest.drop 7).length =
          8 * packedLength (bit :: rest).length - (bit :: rest).length := by
        simp [packedLength]
        omega
      rw [hfull, hpad, List.replicate_zero, List.append_nil, ← List.append_assoc, List.cons_append,
        List.take_append_drop]
    · have hdrop : rest.drop 7 = [] := List.drop_eq_nil_of_le (by omega)
      have htake : rest.take 7 = rest := List.take_of_length_le (by omega)
      have hpad : 8 - (bit :: rest).length =
          8 * packedLength (bit :: rest).length - (bit :: rest).length := by
        simp [packedLength]
        omega
      rw [hdrop, htake, hpad]
      simp [packedLength]

theorem ofPacked_pack (path : BitPath) : ofPacked (pack path) path.length = .ok path := by
  rw [ofPacked, if_neg (by rw [length_pack]; omega), ofBytes_pack, List.take_left']
  rfl

theorem ofPacked_eq_ok_iff {packed : Bytes} {length : Nat} {path : BitPath} :
    ofPacked packed length = .ok path ↔
      packedLength length ≤ packed.length ∧ path = (ofBytes packed).take length := by
  unfold ofPacked
  split
  · simp
    omega
  · simp [eq_comm]
    omega

theorem pack_injective {a b : BitPath} (hl : a.length = b.length) (h : pack a = pack b) :
    a = b := by
  have ha := ofPacked_pack a
  rw [h, hl, ofPacked_pack b] at ha
  cases ha
  rfl

theorem pack_ofBytes (bytes : Bytes) : pack (ofBytes bytes) = bytes := by
  induction bytes with
  | nil => simp [ofBytes, pack]
  | cons byte bytes ih =>
    obtain ⟨bit, rest, hbits⟩ := List.exists_cons_of_length_eq_add_one (length_ofByte byte)
    have hr : rest.length = 7 := by
      have := congrArg List.length hbits
      simpa using this.symm
    rw [ofBytes_cons, hbits, List.cons_append, pack, List.take_left' hr, List.drop_left' hr, ih,
      ← hbits, packByte_ofByte]

theorem ofBytes_injective {a b : Bytes} (h : ofBytes a = ofBytes b) : a = b := by
  rw [← pack_ofBytes a, h, pack_ofBytes]

/-- The first bits of a packed path are packed as before if zeros follow them. -/
theorem pack_take_ofBytes {packed : Bytes} {length : Nat}
    (hpacked : packed.length = packedLength length)
    (hzero : ∀ bit ∈ (ofBytes packed).drop length, bit = false) :
    pack ((ofBytes packed).take length) = packed := by
  have hbits := length_ofBytes packed
  have hlen := length_take_ofBytes (Nat.le_of_eq hpacked.symm)
  apply ofBytes_injective
  rw [ofBytes_pack, hlen, ← hpacked, ← hbits, ← List.length_drop,
    ← List.eq_replicate_of_mem hzero, List.take_append_drop]

/-- Bytes begin with other bytes exactly if their bits do. -/
theorem ofBytes_prefix_iff {a b : Bytes} : ofBytes a <+: ofBytes b ↔ a <+: b := by
  induction a generalizing b with
  | nil => simp [ofBytes]
  | cons x a ih =>
    cases b with
    | nil =>
      have hne : ofByte x ≠ [] := List.ne_nil_of_length_eq_add_one (length_ofByte x)
      simp [ofBytes, hne]
    | cons y b =>
      rw [ofBytes_cons, ofBytes_cons, List.cons_prefix_cons, ← ih]
      constructor
      · rintro ⟨rest, h⟩
        rw [List.append_assoc] at h
        obtain ⟨hbyte, hrest⟩ := List.append_inj h (by simp)
        have hxy : x = y := by rw [← packByte_ofByte x, hbyte, packByte_ofByte]
        exact ⟨hxy, rest, hrest⟩
      · rintro ⟨rfl, h⟩
        exact (List.prefix_append_right_inj _).mpr h

/-- A key does not begin with a front, or is that front, or goes on after it. -/
theorem front_cases (front key : BitPath) :
    ¬ front <+: key ∨ key = front ∨ ∃ bit rest, key = front ++ bit :: rest := by
  by_cases hfront : front <+: key
  · obtain ⟨rest, rfl⟩ := hfront
    cases rest with
    | nil => simp
    | cons bit rest => exact .inr (.inr ⟨bit, rest, rfl⟩)
  · exact .inl hfront

/-- One of two paths is empty, or they differ in the first bit. -/
def Parted (a b : BitPath) : Prop :=
  ∀ bit ∈ a.head?, bit ∉ b.head?

@[simp] theorem parted_cons_cons {x y : Bool} {a b : BitPath} :
    Parted (x :: a) (y :: b) ↔ x ≠ y := by
  simp [Parted, eq_comm]

@[simp] theorem commonPrefixLength_cons (x y : Bool) (a b : BitPath) :
    commonPrefixLength (x :: a) (y :: b) = if x = y then commonPrefixLength a b + 1 else 0 := by
  by_cases h : x = y <;> simp [commonPrefixLength, h]

/-- Any two paths are a shared part and two rests that part at once. -/
theorem exists_common_front (a b : BitPath) :
    ∃ front p q, a = front ++ p ∧ b = front ++ q ∧ Parted p q := by
  induction a generalizing b with
  | nil => exact ⟨[], [], b, rfl, rfl, by simp [Parted]⟩
  | cons x a ih =>
    cases b with
    | nil => exact ⟨[], x :: a, [], rfl, rfl, by simp [Parted]⟩
    | cons y b =>
      by_cases h : x = y
      · obtain ⟨front, p, q, ha, hb, hne⟩ := ih b
        exact ⟨x :: front, p, q, by simp [ha], by simp [hb, h], hne⟩
      · exact ⟨[], x :: a, y :: b, rfl, rfl, by simpa using h⟩

theorem commonPrefixLength_append (front : BitPath) {a b : BitPath} (h : Parted a b) :
    commonPrefixLength (front ++ a) (front ++ b) = front.length := by
  induction front with
  | nil =>
    cases a with
    | nil => rfl
    | cons x a =>
      cases b with
      | nil => rfl
      | cons y b => simpa using h
  | cons bit front ih => simp [ih]

end BlockAudit.BitPath
