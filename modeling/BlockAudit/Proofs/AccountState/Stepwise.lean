import BlockAudit.Proofs.AccountState
import BlockAudit.Proofs.Rlp.Cursor

/-!
Accounts read item by item through one cursor: the items are counted, then the flags are read, then nonce
and balance. The cursor begins anew whenever it has to go back, and goes on behind the end of the list
otherwise. What is read so is what is decoded.
-/
namespace BlockAudit.AccountState

open Rlp (Cursor Item RlpError)

section Stepwise

variable {encoded first second : Bytes} {items : List Bytes}

theorem behind_of_lt {index last : Nat} (h : index < last) (offset : Nat) :
    ∀ last' after, some (last, offset) = some (last', after) → index < last' := by
  rintro _ _ ⟨⟩
  exact h

/-- A cursor that stands behind the first item finds both amounts where a lenient reader does. -/
theorem readAmounts_of_looseItems {place : Option (Nat × Nat)}
    (h : Rlp.looseItems encoded = .ok (first :: second :: items))
    (hplace : ∀ last after, place = some (last, after) → 0 < last) :
    readAmounts ⟨encoded, place⟩ = (do return (← amount first, ← amount second)) := by
  obtain ⟨n, base, word, rest, hlt, hword, hle, hencoded, hspells, hrest⟩ :=
    Rlp.looseItems_eq_cons_iff.mp h
  have hlist : Rlp.isList encoded = true := by
    rw [hencoded]
    exact Rlp.isList_header (.inr rfl) hlt _
  have hextent : Rlp.extent encoded = .ok ⟨(Rlp.header 0xc0 n).length, n⟩ := by
    rw [hencoded]
    exact Rlp.extent_header_append hlt hle
  have hrow : encoded.drop (Rlp.header 0xc0 n).length = word ++ rest := by
    rw [hencoded, List.drop_left]
  -- the first item is read from the beginning of the list
  have hfirst : (Cursor.read ⟨encoded, place⟩ 0).1 = .ok first := by
    rw [Cursor.read_of_start hlist (Cursor.start_of_list hextent hplace), hrow]
    exact (hspells.payloadAt_take_zero rest).mpr ⟨hword, rfl⟩
  have hnext : (Cursor.read ⟨encoded, place⟩ 0).2 = ⟨encoded, some (0, (Rlp.header 0xc0 n).length)⟩ :=
    congrArg Prod.snd (Cursor.item_zero_of_list hlist hextent hplace)
  -- the second from the first one on, wherever the list ends
  have hlength : (Rlp.header 0xc0 n).length ≤ encoded.length := by
    rw [hencoded, List.length_append]
    exact Nat.le_add_right _ _
  have hsecond :
      (Cursor.read ⟨encoded, some (0, (Rlp.header 0xc0 n).length)⟩ 1).1 = .ok second := by
    rw [Cursor.read_of_start hlist (Cursor.start_of_place rfl (Nat.zero_le 1) hlength), hrow,
      hspells.payloadAt_append_succ]
    exact Rlp.payloadAt_of_payloads (by rw [hrest]; rfl)
  rw [readAmounts]
  dsimp only
  rw [hfirst, hnext, hsecond]
  rfl

/-- After counting, the third item is read from the beginning of the list again, so it has to lie inside. -/
theorem flagsOf_eq_read (h : Rlp.looseItems encoded = .ok (first :: items)) (after : Nat) :
    flagsOf encoded = (do return (← (Cursor.read ⟨encoded, some (3, after)⟩ 2).1).headD 0) := by
  obtain ⟨n, base, word, rest, hlt, -, hle, rfl, -, -⟩ := Rlp.looseItems_eq_cons_iff.mp h
  have hlist := @Rlp.isList_header 0xc0 n (.inr rfl) hlt (word ++ rest)
  have hextent := Rlp.extent_header_append hlt hle
  have hstart := Cursor.start_of_list hextent (behind_of_lt (Nat.lt_succ_self 2) after)
  rw [Cursor.read_of_start hlist hstart, flagsOf, Rlp.payload, hextent]
  rfl

/-- Reading item by item is decoding, for every input and with the same error. -/
theorem readItems_eq_decode (encoded : Bytes) : readItems encoded = decode encoded := by
  rw [readItems, decode]
  dsimp only
  cases hitems : Rlp.looseItems encoded with
  | error error => rw [Cursor.itemCount_of_looseItems_eq_error hitems, error_bind, error_bind]
  | ok items =>
    obtain ⟨cursor, hcount, hcursor⟩ := Cursor.itemCount_of_looseItems hitems
    rw [hcount, ok_bind, ok_bind]
    rcases items with _ | ⟨first, _ | ⟨second, _ | ⟨third, _ | ⟨fourth, items⟩⟩⟩⟩
    case cons.cons.nil =>
      obtain ⟨after, rfl⟩ := hcursor (List.cons_ne_nil _ _)
      dsimp only [List.length_cons, List.length_nil]
      rw [readAmounts_of_looseItems hitems (behind_of_lt Nat.zero_lt_two _)]
      simp only [bind_assoc, pure_bind]
    case cons.cons.cons.nil =>
      obtain ⟨after, rfl⟩ := hcursor (List.cons_ne_nil _ _)
      dsimp only [List.length_cons, List.length_nil]
      rw [flagsOf_eq_read hitems after]
      cases hread : (Cursor.read ⟨encoded, some (3, after)⟩ 2).1 with
      | error error => rfl
      | ok flags =>
        obtain ⟨behind, hnext⟩ := Cursor.exists_place_of_read hread
        rw [hnext, ok_bind, readAmounts_of_looseItems hitems (behind_of_lt Nat.zero_lt_two _)]
        simp only [bind_assoc, pure_bind, ok_bind]
    all_goals rfl

end Stepwise

/-- A stored account is read back by both readers: its nonce, its balance and its flags, which are zero where
there are none. -/
theorem decode_encoded_account {state : AccountState} {items : List Item} (h : Encodes state items) :
    decode (Item.list items).encode = .ok state ∧ readItems (Item.list items).encode = .ok state := by
  have hdecode := decode_encode h
  refine ⟨hdecode, ?_⟩
  rw [readItems_eq_decode, hdecode]

/-- The balance 0xff00 as a coin amount, between a nonce and flags of one byte each. -/
theorem decode_encoded_account_flagged :
    let items : List Item := [.string [1], .string [0x00, 0xff, 0x00], .string [1]]
    Encodes ⟨1, 0xff00, 1⟩ items ∧
      (Item.list items).encode = [0xc6, 0x01, 0x83, 0x00, 0xff, 0x00, 0x01] ∧
      decode (Item.list items).encode = .ok ⟨1, 0xff00, 1⟩ ∧
      readItems (Item.list items).encode = .ok ⟨1, 0xff00, 1⟩ := by
  have hnonce : IsAmount [1] 1 := ⟨by decide, .inl (by decide +kernel)⟩
  have hbalance : IsAmount [0x00, 0xff, 0x00] 0xff00 := ⟨by decide, .inr (by decide +kernel)⟩
  have h : Encodes ⟨1, 0xff00, 1⟩ [.string [1], .string [0x00, 0xff, 0x00], .string [1]] :=
    .flagged hnonce hbalance (.inl rfl)
  exact ⟨h, by decide +kernel, decode_encoded_account h⟩

end BlockAudit.AccountState
