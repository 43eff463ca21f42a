import BlockAudit.AccountState
import BlockAudit.Proofs.Header
import BlockAudit.Proofs.Rlp.Row

/-!
Accounts as they are stored: a list of the nonce, the balance and sometimes flags. Whatever way these are
written in, they are read back.
-/
namespace BlockAudit.AccountState

open Rlp (Item)

/-- A number in its shortest form, or as a coin amount if it is no longer than a word. -/
def IsAmount (digits : Bytes) (value : Word) : Prop :=
  digits.length ≤ 32 ∧ (digits = bigEndian value.toNat ∨ digits = coinBytes value)

/-- The items of a stored account. Without flags these are zero. -/
inductive Encodes : AccountState → List Item → Prop where
  | bare {nonce balance : Word} {first second : Bytes} (hnonce : IsAmount first nonce)
      (hbalance : IsAmount second balance) :
      Encodes ⟨nonce, balance, 0⟩ [.string first, .string second]
  | flagged {nonce balance : Word} {flags : UInt8} {first second : Bytes} {third : Item}
      (hnonce : IsAmount first nonce) (hbalance : IsAmount second balance)
      (hflags : third = .string [flags] ∨ third = .ofNat flags.toNat) :
      Encodes ⟨nonce, balance, flags⟩ [.string first, .string second, third]

section Amount

variable {digits : Bytes} {value : Word}

theorem isAmount_bigEndian (value : Word) : IsAmount (bigEndian value.toNat) value :=
  ⟨length_bigEndian_le value.isLt, .inl rfl⟩

theorem amount_of_isAmount (h : IsAmount digits value) : amount digits = .ok value := by
  obtain ⟨hlength, hdigits⟩ := h
  have hvalue : ofBigEndian digits = value.toNat := by
    rcases hdigits with rfl | rfl
    · exact ofBigEndian_bigEndian value.toNat
    · exact ofBigEndian_coinBytes value
  rw [amount, if_neg (by omega), hvalue, BitVec.ofNat_toNat, BitVec.setWidth_eq]

end Amount

theorem headD_bigEndian (byte : UInt8) : (bigEndian byte.toNat).headD 0 = byte := by
  have hlt := byte.toNat_lt
  have hdiv : byte.toNat / 256 = 0 := by omega
  rw [bigEndian, littleEndian]
  by_cases hzero : byte.toNat = 0
  · rw [if_pos hzero]
    exact UInt8.toNat_inj.mp hzero.symm
  · rw [if_neg hzero, hdiv, littleEndian, if_pos rfl]
    simp

/-- The items of an account are short. -/
theorem Encodes.length_encodeAll_lt {state : AccountState} {items : List Item}
    (h : Encodes state items) : (Item.encodeAll items).length < 256 ^ 8 := by
  have hstring : ∀ bytes : Bytes, bytes.length ≤ 32 → (Item.string bytes).encode.length ≤ 33 := by
    intro bytes hbytes
    have hlength := @Rlp.length_encodeBytes_le bytes (by omega)
    rw [Item.encode]
    omega
  cases h with
  | @bare nonce balance first second hnonce hbalance =>
    have hfirst := hstring first hnonce.1
    have hsecond := hstring second hbalance.1
    simp only [Item.encodeAll, List.length_append, List.length_nil]
    omega
  | @flagged nonce balance flags first second third hnonce hbalance hflags =>
    have hfirst := hstring first hnonce.1
    have hsecond := hstring second hbalance.1
    have hthird : third.encode.length ≤ 33 := by
      rcases hflags with rfl | rfl
      · exact hstring [flags] (Nat.le_of_ble_eq_true rfl)
      · exact hstring _ (length_bigEndian_le (Nat.lt_of_lt_of_le flags.toNat_lt (by decide)))
    simp only [Item.encodeAll, List.length_append, List.length_nil]
    omega

theorem headD_payload_of_flags {flags : UInt8} {item : Item}
    (h : item = .string [flags] ∨ item = .ofNat flags.toNat) : item.payload.headD 0 = flags := by
  rcases h with rfl | rfl
  · rfl
  · exact headD_bigEndian flags

/-- The flags are read from the third item. -/
theorem flagsOf_encode {items : List Item} {item : Item}
    (hlt : (Item.encodeAll items).length < 256 ^ 8) (h : items[2]? = some item) :
    flagsOf (Item.list items).encode = .ok (item.payload.headD 0) := by
  have hthird := Item.payloadAt_encodeAll (Item.length_payload_lt_of_mem hlt) h
  rw [flagsOf, Item.payload_encode_list hlt, ok_bind, hthird, ok_bind, pure_eq_ok]

/-- A stored account is read back, in whichever form its amounts and its flags are. -/
theorem decode_encode {state : AccountState} {items : List Item} (h : Encodes state items) :
    decode (Item.list items).encode = .ok state := by
  have hlt := h.length_encodeAll_lt
  rw [decode, Item.looseItems_encode hlt]
  cases h with
  | @bare nonce balance first second hnonce hbalance =>
    have hfirst : amount (Item.string first).payload = .ok nonce := amount_of_isAmount hnonce
    have hsecond : amount (Item.string second).payload = .ok balance := amount_of_isAmount hbalance
    simp only [List.map_cons, List.map_nil, ok_bind, hfirst, hsecond, pure_eq_ok]
  | @flagged nonce balance flags first second third hnonce hbalance hflags =>
    have hfirst : amount (Item.string first).payload = .ok nonce := amount_of_isAmount hnonce
    have hsecond : amount (Item.string second).payload = .ok balance := amount_of_isAmount hbalance
    have hthird := flagsOf_encode hlt rfl
    rw [headD_payload_of_flags hflags] at hthird
    simp only [List.map_cons, List.map_nil, ok_bind, hthird, hfirst, hsecond, pure_eq_ok]

end BlockAudit.AccountState
