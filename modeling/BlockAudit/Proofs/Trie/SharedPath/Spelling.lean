import BlockAudit.Proofs.Field.Integer
import BlockAudit.Proofs.Trie.SharedPath

/-!
The spellings of a path. A path is read exactly where one of them stands, and ends where it does. The one
that is written announces the length in its shortest form, so that no other is shorter, and another is as
short exactly if it does the same.
-/
namespace BlockAudit.Trie.SharedPath

variable {message : Bytes} {offset next : Nat}

private theorem decodeLength_marker (hmarker : StandsAt [marker] message offset) :
    decodeLength message offset = (do
      let v ← VarInt.read message (offset + 1)
      if v.value.toNat ≤ maxLength then .ok (v.value.toNat, offset + 1 + v.size)
      else .error (.pathTooLong v.value)) := by
  have hlarge : ¬ marker < 32 := by decide
  rw [decodeLength, hmarker.byteField, liftM_field_ok, ok_bind, if_neg hlarge, if_pos rfl]
  congr 1
  funext v
  by_cases hmax : v.value.toNat ≤ maxLength
  · rw [if_pos hmax, if_neg (by omega)]
    rfl
  · rw [if_neg hmax, if_pos (by omega)]
    rfl

theorem decodeLength_eq_ok_iff {length : Nat} :
    decodeLength message offset = .ok (length, next) ↔
      ∃ front, StandsAt front message offset ∧ Announces front length ∧
        next = offset + front.length := by
  constructor
  · intro h
    obtain ⟨first, hfirst, -⟩ := bind_eq_ok_iff.mp h
    rw [liftM_field_eq_ok_iff, byteField_eq_ok_iff] at hfirst
    by_cases hlow : first < 32
    · rw [decodeLength, hfirst.byteField, liftM_field_ok, ok_bind, if_pos hlow] at h
      cases h
      exact ⟨[first], hfirst, .low (Nat.le_of_lt_succ hlow), rfl⟩
    by_cases hmarker : first = marker
    · subst hmarker
      rw [decodeLength_marker hfirst] at h
      obtain ⟨v, hv, h⟩ := bind_eq_ok_iff.mp h
      rw [liftM_field_eq_ok_iff, VarInt.read_eq_ok_iff] at hv
      obtain ⟨digits, hdigits, hspells, hsize⟩ := hv
      split at h
      · rename_i hmax
        cases h
        refine ⟨marker :: digits, standsAt_cons_iff.mpr ⟨hfirst, hdigits⟩, .marked hspells hmax, ?_⟩
        rw [List.length_cons, hsize]
        omega
      · cases h
    · rw [decodeLength, hfirst.byteField, liftM_field_ok, ok_bind, if_neg hlow, if_neg hmarker] at h
      cases h
      refine ⟨[first], hfirst, .high (by simpa using hlow) ?_, rfl⟩
      have hlt := first.toNat_lt
      have hne : first.toNat ≠ 255 := fun h => hmarker (UInt8.toNat_inj.mp h)
      rw [UInt8.le_iff_toNat_le, show (254 : UInt8).toNat = 254 from rfl]
      omega
  · rintro ⟨front, hstands, hlength, rfl⟩
    cases hlength with
    | @low b h =>
      have hlow : b < 32 := Nat.lt_succ_of_le h
      rw [decodeLength, hstands.byteField, liftM_field_ok, ok_bind, if_pos hlow]
      rfl
    | @high b hlow hhigh =>
      have hlow : ¬ b < 32 := by simpa using hlow
      have hmarker : b ≠ marker := by
        rintro rfl
        exact absurd hhigh (by decide)
      rw [decodeLength, hstands.byteField, liftM_field_ok, ok_bind, if_neg hlow, if_neg hmarker]
      rfl
    | @marked digits length h hmax =>
      obtain ⟨hmarker, hdigits⟩ := standsAt_cons_iff.mp hstands
      have hread : VarInt.read message (offset + 1) = .ok ⟨length, digits.length⟩ :=
        VarInt.read_eq_ok_iff.mpr ⟨digits, hdigits, h, rfl⟩
      rw [decodeLength_marker hmarker, hread, liftM_field_ok, ok_bind, if_pos hmax,
        List.length_cons, Nat.add_assoc, Nat.add_comm 1]

theorem decode_eq_ok_iff {path : BitPath} :
    decode message offset = .ok (path, next) ↔
      ∃ bytes, StandsAt bytes message offset ∧ Spells bytes path ∧
        next = offset + bytes.length := by
  unfold decode
  simp only [bind_eq_ok_iff, Prod.exists, liftM_field_eq_ok_iff, liftM_bitPath_eq_ok_iff,
    decodeLength_eq_ok_iff, field_eq_ok_iff, BitPath.ofPacked_eq_ok_iff, pure_eq_ok,
    Except.ok.injEq, Prod.mk.injEq]
  constructor
  · rintro ⟨length, start, ⟨front, hfront, hlength, rfl⟩, packed, ⟨hpacked, hlen⟩, _,
      ⟨-, rfl⟩, rfl, rfl⟩
    refine ⟨front ++ packed, standsAt_append_iff.mpr ⟨hfront, hpacked⟩, .packed hlength hlen, ?_⟩
    rw [List.length_append, hlen, Nat.add_assoc]
  · rintro ⟨_, hstands, ⟨hlength, hlen⟩, rfl⟩
    obtain ⟨hfront, hpacked⟩ := standsAt_append_iff.mp hstands
    refine ⟨_, _, ⟨_, hfront, hlength, rfl⟩, _, ⟨hpacked, hlen⟩, _,
      ⟨Nat.le_of_eq hlen.symm, rfl⟩, rfl, ?_⟩
    rw [List.length_append, hlen, Nat.add_assoc]
    rfl

theorem Announces.length_le {front : Bytes} {length : Nat} (h : Announces front length) :
    length ≤ maxLength := by
  have hmax : maxLength = 524280 := rfl
  cases h with
  | @low b h =>
    have hb : b.toNat ≤ 31 := h
    omega
  | @high b hlow hhigh =>
    have hb : b.toNat ≤ 254 := hhigh
    omega
  | marked h hle => exact hle

/-- No way to announce a length is shorter than the one that is written. -/
theorem Announces.length_encodeLength_le {front : Bytes} {length : Nat}
    (h : Announces front length) : (encodeLength length).length ≤ front.length := by
  unfold encodeLength
  cases h with
  | @low b h =>
    have hb : b.toNat ≤ 31 := h
    rw [if_pos (by omega)]
    exact Nat.le_refl 1
  | @high b hlow hhigh =>
    have hb : 32 ≤ b.toNat ∧ b.toNat ≤ 254 := ⟨hlow, hhigh⟩
    rw [if_neg (by omega), if_pos (by omega)]
    exact Nat.le_refl 1
  | @marked digits length h hle =>
    have hdigits := h.length_encode_le
    rw [UInt64.ofNat_toNat]
    split_ifs
    · simp
    · simp
    · rw [List.length_cons, List.length_cons]
      omega

/-- A spelling is a form of the length of the path and as many bytes as hold its bits. -/
theorem Spells.exists_parts {bytes : Bytes} {path : BitPath} (h : Spells bytes path) :
    ∃ form packed, bytes = form ++ packed ∧ Announces form path.length ∧
      packed.length = BitPath.packedLength path.length := by
  cases h with
  | @packed form packed length hform hpacked =>
    rw [BitPath.length_take_ofBytes (Nat.le_of_eq hpacked.symm)]
    exact ⟨form, packed, rfl, hform, hpacked⟩

section Shortest

variable {length : Nat} {form packed : Bytes} {path : BitPath}

/-- No way to announce the same length takes fewer bytes. -/
def IsShortest (form : Bytes) (length : Nat) : Prop :=
  Announces form length ∧ ∀ other, Announces other length → form.length ≤ other.length

theorem announces_encodeLength (hpos : 1 ≤ length) (hmax : length ≤ maxLength) :
    Announces (encodeLength length) length := by
  have hlimit : maxLength = 524280 := rfl
  have hread := decodeLength_encodeLength hpos (by omega) (standsAt_self (encodeLength length))
  rw [if_pos hmax] at hread
  obtain ⟨front, hstands, hfront, hend⟩ := decodeLength_eq_ok_iff.mp hread
  have hwhole : encodeLength length = front := (standsAt_zero_iff (by omega)).mp hstands
  rwa [← hwhole] at hfront

/-- A form that is as short as the one that is written is that form. -/
theorem Announces.eq_encodeLength (h : Announces form length)
    (hlength : form.length = (encodeLength length).length) : form = encodeLength length := by
  unfold encodeLength at hlength ⊢
  cases h with
  | @low b h =>
    have hb : b.toNat ≤ 31 := h
    rw [if_pos (by omega), Nat.add_sub_cancel, UInt8.ofNat_toNat]
  | @high b hlow hhigh =>
    have hb : 32 ≤ b.toNat ∧ b.toNat ≤ 254 := ⟨hlow, hhigh⟩
    rw [if_neg (by omega), if_pos (by omega), Nat.add_sub_cancel, UInt8.ofNat_toNat]
  | @marked digits value h hmax =>
    have hdigits : 0 < digits.length := by
      obtain ⟨first, rest, rfl⟩ := h.exists_cons
      exact Nat.succ_pos _
    rw [UInt64.ofNat_toNat] at hlength ⊢
    split_ifs at hlength ⊢
    · simp only [List.length_cons, List.length_nil] at hlength
      omega
    · simp only [List.length_cons, List.length_nil] at hlength
      omega
    · rw [List.length_cons, List.length_cons, VarInt.length_encode (VarInt.fits_ofValue value)] at hlength
      have hsize : digits.length = VarInt.sizeOf value := Nat.succ.inj hlength
      have hencode := h.fits_and_encode_eq.2
      rw [hsize] at hencode
      exact congrArg (marker :: ·) hencode.symm

/-- The shortest form is the one that is written, and the only one of its size. -/
theorem isShortest_iff (h : Announces form length) (hpos : 1 ≤ length) :
    IsShortest form length ↔ form.length = (encodeLength length).length := by
  have hwritten := announces_encodeLength hpos h.length_le
  constructor
  · intro hshortest
    obtain ⟨-, hleast⟩ := hshortest
    exact Nat.le_antisymm (hleast _ hwritten) h.length_encodeLength_le
  · intro hlength
    refine ⟨h, fun other hother => ?_⟩
    rw [hlength]
    exact hother.length_encodeLength_le

theorem isShortest_iff_eq (h : Announces form length) (hpos : 1 ≤ length) :
    IsShortest form length ↔ form = encodeLength length := by
  rw [isShortest_iff h hpos]
  exact ⟨h.eq_encodeLength, congrArg List.length⟩

/-- A path is written in no more bytes than spell it, and in as many exactly if they announce its length in
the shortest form. -/
theorem length_encode_of_form (hne : path ≠ []) (hform : Announces form path.length)
    (hpacked : packed.length = BitPath.packedLength path.length) :
    (encode path).length ≤ (form ++ packed).length ∧
      ((encode path).length = (form ++ packed).length ↔ IsShortest form path.length) := by
  have hle := hform.length_encodeLength_le
  have hshortest := isShortest_iff hform (List.length_pos_iff.mpr hne)
  rw [length_encode_of_ne_nil hne, List.length_append, hpacked, hshortest]
  omega

/-- No spelling of a path is shorter than the one that is written. -/
theorem Spells.length_encode_le {bytes : Bytes} (h : Spells bytes path) :
    (encode path).length ≤ bytes.length := by
  obtain ⟨form, packed, rfl, hform, hpacked⟩ := h.exists_parts
  by_cases hnil : path = []
  · simp [hnil, encode]
  · exact (length_encode_of_form hnil hform hpacked).1

end Shortest

/-- A path that messages may announce is read back from what was written for it, up to where that ends. What
is read as a path with bits is a form of its length and then its bits, and is never shorter than what is
written for the path. It is as long exactly if no form of the length is shorter, and then it has the form that
is written. -/
theorem encode_shortest :
    (∀ path front rest, 1 ≤ path.length → path.length ≤ maxLength →
      decode (front ++ (encode path ++ rest)) front.length = .ok (path, (front ++ encode path).length)) ∧
    ∀ message offset path next, decode message offset = .ok (path, next) → path ≠ [] →
      ∃ form packed, StandsAt (form ++ packed) message offset ∧ next = offset + (form ++ packed).length ∧
        decodeLength message offset = .ok (path.length, offset + form.length) ∧
        (encode path).length ≤ (form ++ packed).length ∧
        ((encode path).length = (form ++ packed).length ↔ IsShortest form path.length) ∧
        (IsShortest form path.length ↔ form = encodeLength path.length) := by
  refine ⟨fun path front rest hpos hmax => ?_, fun message offset path next h hne => ?_⟩
  · have hlimit : maxLength = 524280 := rfl
    have hstands := standsAt_between front (encode path) rest
    rw [decode_encode (List.length_pos_iff.mp hpos) (by omega) hstands, if_pos hmax, List.length_append]
  · obtain ⟨bytes, hstands, hspells, hnext⟩ := decode_eq_ok_iff.mp h
    obtain ⟨form, packed, rfl, hform, hpacked⟩ := hspells.exists_parts
    have hlength : decodeLength message offset = .ok (path.length, offset + form.length) :=
      decodeLength_eq_ok_iff.mpr ⟨form, hstands.append.1, hform, rfl⟩
    obtain ⟨hle, heq⟩ := length_encode_of_form hne hform hpacked
    exact ⟨form, packed, hstands, hnext, hlength, hle, heq,
      isShortest_iff_eq hform (List.length_pos_iff.mpr hne)⟩

theorem encode_shortest_overlong :
    let message : Bytes := [0xaa, 0xff, 0xfd, 0x05, 0x00, 0xb7, 0xcc]
    let path : BitPath := [true, false, true, true, false]
    decode message 1 = .ok (path, 6) ∧ (encode path).length < 6 - 1 ∧
      ¬ IsShortest [0xff, 0xfd, 0x05, 0x00] path.length ∧
      decode ([0xaa] ++ (encode path ++ [0xcc])) 1 = .ok (path, ([0xaa] ++ encode path).length) := by
  intro message path
  obtain ⟨hback, hread⟩ := encode_shortest
  have hpath : decode message 1 = .ok (path, 6) := by decide
  obtain ⟨form, packed, hstands, hnext, hlength, hle, heq, hwritten⟩ := hread _ _ _ _ hpath (by decide)
  have hcount : form.length = 4 := by
    have hfive : decodeLength message 1 = .ok (5, 5) := by decide
    have hends := congrArg Prod.snd (Except.ok.inj (hfive.symm.trans hlength))
    dsimp only at hends
    omega
  have hform : [0xff, 0xfd, 0x05, 0x00] = form := by
    have htake := hstands.append.1.take_drop
    rwa [hcount] at htake
  have hlonger : ¬ IsShortest form path.length := by
    rw [hwritten, ← hform]
    decide
  refine ⟨hpath, ?_, hform.symm ▸ hlonger, hback path [0xaa] [0xcc] (by decide) (by decide)⟩
  have hne := mt heq.mp hlonger
  omega

/-- The lengths from 33 to 159 have no form of one byte, nor do those from 383 on. -/
example : [1, 32, 33, 159, 160, 382, 383].map encodeLength =
    [[0], [31], [0xff, 33], [0xff, 159], [32], [254], [0xff, 0xfd, 0x7f, 0x01]] := by
  decide

end BlockAudit.Trie.SharedPath
