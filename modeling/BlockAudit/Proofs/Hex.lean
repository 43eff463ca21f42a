import BlockAudit.Hex
import BlockAudit.Proofs.Outcome
import BlockAudit.Rpc.Scalar

/-!
Byte strings spelled in hexadecimal digits. A byte string has many spellings: each digit may be in either
case, and the mark `0x` may stand in front.
-/
namespace BlockAudit.Hex

/-- The digits of a number below 16. -/
def IsDigit (n : Nat) (c : Char) : Prop :=
  c = Nat.digitChar n ∨ c = (Nat.digitChar n).toUpper

/-- Two digits for each byte. -/
inductive Spells : List Char → Bytes → Prop where
  | nil : Spells [] []
  | cons {byte : UInt8} {high low : Char} {digits : List Char} {bytes : Bytes}
      (hhigh : IsDigit (byte.toNat / 16) high) (hlow : IsDigit (byte.toNat % 16) low)
      (hrest : Spells digits bytes) : Spells (high :: low :: digits) (byte :: bytes)

/-- Digits that spell the bytes, with the mark `0x` or without it. -/
def Writes (text : String) (bytes : Bytes) : Prop :=
  Spells text.toList bytes ∨ ∃ digits, text.toList = '0' :: 'x' :: digits ∧ Spells digits bytes

/-- A digit is a single byte of text that stands for its number. -/
theorem utf8EncodeChar_of_isDigit {n : Nat} {c : Char} (hn : n < 16) (h : IsDigit n c) :
    String.utf8EncodeChar c = [.ofNat c.toNat] ∧ digit? (.ofNat c.toNat) = some (.ofNat n) := by
  have hlower : ∀ n ∈ List.range 16,
      String.utf8EncodeChar (Nat.digitChar n) = [.ofNat (Nat.digitChar n).toNat] ∧
        digit? (.ofNat (Nat.digitChar n).toNat) = some (.ofNat n) := by decide
  have hupper : ∀ n ∈ List.range 16,
      String.utf8EncodeChar (Nat.digitChar n).toUpper = [.ofNat (Nat.digitChar n).toUpper.toNat] ∧
        digit? (.ofNat (Nat.digitChar n).toUpper.toNat) = some (.ofNat n) := by decide
  rcases h with rfl | rfl
  · exact hlower n (List.mem_range.mpr hn)
  · exact hupper n (List.mem_range.mpr hn)

theorem joined_halves (byte : UInt8) :
    (UInt8.ofNat (byte.toNat / 16)) <<< 4 ||| UInt8.ofNat (byte.toNat % 16) = byte := by
  have h : ∀ n : Fin 256, (UInt8.ofNat ((UInt8.ofNat n).toNat / 16)) <<< 4 |||
      UInt8.ofNat ((UInt8.ofNat n).toNat % 16) = UInt8.ofNat n := by decide +kernel
  simpa using h ⟨byte.toNat, byte.toNat_lt⟩

theorem decode_cons_cons {high low a b : UInt8} {digits bytes : Bytes} (hhigh : digit? high = some a)
    (hlow : digit? low = some b) (h : decode digits = .ok bytes) :
    decode (high :: low :: digits) = .ok ((a <<< 4 ||| b) :: bytes) := by
  unfold decode at h ⊢
  split at h
  · cases h
  · rename_i heven
    have hlen : ¬ (high :: low :: digits).length % 2 = 1 := by
      simp only [List.length_cons]
      omega
    rw [if_neg hlen]
    split at h
    · cases h
    · rename_i hall
      cases h
      simp [List.findIdx?_cons, hhigh, hlow, hall, pairs]

theorem decode_of_spells {digits : List Char} {bytes : Bytes} (h : Spells digits bytes) :
    decode (digits.flatMap String.utf8EncodeChar) = .ok bytes := by
  induction h with
  | nil => rfl
  | @cons byte high low digits bytes hhigh hlow _ ih =>
    have hbyte := byte.toNat_lt
    obtain ⟨hfirst, ha⟩ := utf8EncodeChar_of_isDigit (by omega) hhigh
    obtain ⟨hsecond, hb⟩ := utf8EncodeChar_of_isDigit (by omega) hlow
    rw [List.flatMap_cons, List.flatMap_cons, hfirst, hsecond, List.singleton_append,
      List.singleton_append, decode_cons_cons ha hb ih, joined_halves]

/-- Digits have no mark to be taken away. -/
theorem stripHexMark_of_spells {text : String} {bytes : Bytes} (h : Spells text.toList bytes) :
    stripHexMark text = text := by
  unfold stripHexMark
  split
  · rename_i rest heq
    rw [heq] at h
    cases h with
    | cons hhigh hlow hrest =>
      have hnone : digit? (.ofNat 'x'.toNat) = none := by decide
      obtain ⟨-, hsome⟩ := utf8EncodeChar_of_isDigit (Nat.mod_lt _ (by decide)) hlow
      rw [hnone] at hsome
      cases hsome
  · rfl

theorem stripHexMark_of_mark {text : String} {digits : List Char}
    (h : text.toList = '0' :: 'x' :: digits) : stripHexMark text = String.ofList digits := by
  unfold stripHexMark
  rw [h]
  rfl

theorem decodeText_of_writes {text : String} {bytes : Bytes} (h : Writes text bytes) :
    decodeText (stripHexMark text) = .ok bytes := by
  rw [decodeText, utf8]
  rcases h with h | ⟨digits, hmark, h⟩
  · rw [stripHexMark_of_spells h]
    exact decode_of_spells h
  · rw [stripHexMark_of_mark hmark, String.toList_ofList]
    exact decode_of_spells h

/-- What is written in digits is one of its spellings. -/
theorem spells_encode (bytes : Bytes) : Spells (encode bytes).toList bytes := by
  rw [encode, String.toList_ofList]
  induction bytes with
  | nil => exact .nil
  | cons byte bytes ih =>
    rw [List.flatMap_cons]
    exact .cons (.inl rfl) (.inl rfl) ih

theorem writes_encode (bytes : Bytes) : Writes (encode bytes) bytes :=
  .inl (spells_encode bytes)

theorem writes_encodeMarked (bytes : Bytes) : Writes (encodeMarked bytes) bytes := by
  refine .inr ⟨(encode bytes).toList, ?_, spells_encode bytes⟩
  rw [encodeMarked, String.toList_append]
  rfl

end BlockAudit.Hex

namespace BlockAudit.Rpc

theorem fixed?_markedHex {size : Nat} (b : FixedBytes size) : fixed? size b.markedHex = some b := by
  rw [fixed?, FixedBytes.markedHex, Hex.decodeText_of_writes (Hex.writes_encodeMarked b.toBytes)]
  exact dif_pos b.length_toBytes

/-- Bytes in the form of a node are read back. -/
theorem ofString_ofFixed {size : Nat} (b : FixedBytes size) :
    Json.Reader.ofString (fixed? size) (ofFixed b) = .ok b := by
  rw [ofFixed, Json.Reader.ofString, fixed?_markedHex]

end BlockAudit.Rpc
