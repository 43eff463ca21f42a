import BlockAudit.Proofs.AccountState
import BlockAudit.Proofs.Rlp.Spelling

/-!
What is taken for a stored account. Nobody asks whether its items are strings, whether the list is all there
is, or whether the second of two items lies inside the list. A list of strings that spans all bytes is taken
for an account exactly if it is one.
-/
namespace BlockAudit.AccountState

open Rlp (Spells SpellsAll NoItem header)

/-- The digits of a number, of which the first may be zeros. -/
def HasDigits (value : Word) (digits : Bytes) : Prop :=
  digits.length ≤ 32 ∧ value.toNat = ofBigEndian digits

/-- One list and nothing else, of two or three strings that begin with nonce and balance. -/
def IsAccountList (encoded : Bytes) (nonce balance : Word) : Prop :=
  ∃ row first second more, Spells 0xc0 encoded row ∧ SpellsAll 0x80 row (first :: second :: more) ∧
    more.length ≤ 1 ∧ HasDigits nonce first ∧ HasDigits balance second

/-- One list and nothing else, of strings. -/
def IsStringList (encoded : Bytes) : Prop :=
  ∃ row strings, Spells 0xc0 encoded row ∧ SpellsAll 0x80 row strings

/-- What is taken for an account: the header of a list, and two or three items of any kind after which there
is none. Of two items the first has to lie inside the list, of three items all of them. -/
inductive Accepts : Bytes → AccountState → Prop where
  | bare {nonce balance : Word} {n : Nat} {base base' : UInt8} {word word' first second rest : Bytes}
      (hfirst : Spells base word first) (hsecond : Spells base' word' second) (hrest : NoItem rest)
      (hlt : n < 256 ^ 8) (hinside : word.length ≤ n) (hend : n ≤ (word ++ (word' ++ rest)).length)
      (hnonce : HasDigits nonce first) (hbalance : HasDigits balance second) :
      Accepts (header 0xc0 n ++ (word ++ (word' ++ rest))) ⟨nonce, balance, 0⟩
  | flagged {nonce balance : Word} {n : Nat} {base base' base'' : UInt8}
      {word word' word'' first second third rest : Bytes}
      (hfirst : Spells base word first) (hsecond : Spells base' word' second)
      (hthird : Spells base'' word'' third) (hrest : NoItem rest) (hlt : n < 256 ^ 8)
      (hinside : (word ++ (word' ++ word'')).length ≤ n)
      (hend : n ≤ (word ++ (word' ++ (word'' ++ rest))).length)
      (hnonce : HasDigits nonce first) (hbalance : HasDigits balance second) :
      Accepts (header 0xc0 n ++ (word ++ (word' ++ (word'' ++ rest)))) ⟨nonce, balance, third.headD 0⟩

section Decode

variable {digits encoded row first second third : Bytes} {value nonce balance : Word}
  {flags : UInt8} {state : AccountState} {n : Nat}

theorem amount_eq_ok_iff : amount digits = .ok value ↔ HasDigits value digits := by
  rw [amount, HasDigits]
  by_cases hlong : 32 < digits.length
  · rw [if_pos hlong]
    exact iff_of_false (by rintro ⟨⟩) fun h => Nat.not_le.mpr hlong h.1
  · rw [if_neg hlong, Except.ok.injEq, and_iff_right (Nat.le_of_not_lt hlong)]
    have hlt : ofBigEndian digits < 2 ^ 256 := by
      have hdigits := ofBigEndian_lt digits
      have hpow : 256 ^ digits.length ≤ 256 ^ 32 := Nat.pow_le_pow_right (by decide) (Nat.le_of_not_lt hlong)
      exact Nat.lt_of_lt_of_le hdigits (Nat.le_trans hpow (by decide))
    rw [← BitVec.toNat_inj, BitVec.toNat_ofNat, Nat.mod_eq_of_lt hlt, eq_comm]

/-- An account is decoded from two items, or from three of which the last is found once more. -/
theorem decode_eq_ok_iff :
    decode encoded = .ok ⟨nonce, balance, flags⟩ ↔
      ∃ first second, HasDigits nonce first ∧ HasDigits balance second ∧
        (Rlp.looseItems encoded = .ok [first, second] ∧ flags = 0 ∨
          ∃ third, Rlp.looseItems encoded = .ok [first, second, third] ∧
            flagsOf encoded = .ok flags) := by
  simp only [← amount_eq_ok_iff]
  constructor
  · intro h
    rw [decode] at h
    obtain ⟨items, hitems, h⟩ := bind_eq_ok_iff.mp h
    rcases items with _ | ⟨first, _ | ⟨second, _ | ⟨third, _ | ⟨fourth, items⟩⟩⟩⟩
    case cons.cons.nil =>
      obtain ⟨nonce, hnonce, h⟩ := bind_eq_ok_iff.mp h
      obtain ⟨balance, hbalance, h⟩ := bind_eq_ok_iff.mp h
      cases h
      exact ⟨first, second, hnonce, hbalance, .inl ⟨hitems, rfl⟩⟩
    case cons.cons.cons.nil =>
      obtain ⟨flags, hflags, h⟩ := bind_eq_ok_iff.mp h
      obtain ⟨nonce, hnonce, h⟩ := bind_eq_ok_iff.mp h
      obtain ⟨balance, hbalance, h⟩ := bind_eq_ok_iff.mp h
      cases h
      exact ⟨first, second, hnonce, hbalance, .inr ⟨third, hitems, hflags⟩⟩
    all_goals cases h
  · rintro ⟨first, second, hnonce, hbalance, ⟨hitems, rfl⟩ | ⟨third, hitems, hflags⟩⟩
    · rw [decode, hitems, ok_bind]
      dsimp only
      rw [hnonce, ok_bind, hbalance, ok_bind, pure_eq_ok]
    · rw [decode, hitems, ok_bind]
      dsimp only
      rw [hflags, ok_bind, hnonce, ok_bind, hbalance, ok_bind, pure_eq_ok]

theorem flagsOf_header_append (hlt : n < 256 ^ 8) (hle : n ≤ row.length) :
    flagsOf (header 0xc0 n ++ row) = (Rlp.payloadAt (row.take n) 2).map (·.headD 0) := by
  rw [flagsOf, Rlp.payload, Rlp.extent_header_append hlt hle, ok_bind, List.drop_left]
  rfl

/-- Three items give flags if all of them lie inside the list. -/
theorem flagsOf_eq_ok_iff {base base' base'' : UInt8} {word word' word'' rest : Bytes}
    (hfirst : Spells base word first) (hsecond : Spells base' word' second)
    (hthird : Spells base'' word'' third) (hlt : n < 256 ^ 8)
    (hle : n ≤ (word ++ (word' ++ (word'' ++ rest))).length) :
    flagsOf (header 0xc0 n ++ (word ++ (word' ++ (word'' ++ rest)))) = .ok flags ↔
      (word ++ (word' ++ word'')).length ≤ n ∧ third.headD 0 = flags := by
  rw [flagsOf_header_append hlt hle, map_eq_ok_iff]
  simp only [hfirst.payloadAt_take_succ, hsecond.payloadAt_take_succ, hthird.payloadAt_take_zero,
    List.length_append]
  constructor
  · rintro ⟨found, ⟨hword, hword', hword'', rfl⟩, hflags⟩
    exact ⟨by omega, hflags⟩
  · rintro ⟨hinside, hflags⟩
    exact ⟨third, ⟨by omega, by omega, by omega, rfl⟩, hflags⟩

theorem decode_eq_ok_iff_accepts : decode encoded = .ok state ↔ Accepts encoded state := by
  obtain ⟨nonce, balance, flags⟩ := state
  rw [decode_eq_ok_iff]
  constructor
  · rintro ⟨first, second, hnonce, hbalance, ⟨hitems, rfl⟩ | ⟨third, hitems, hflags⟩⟩
    · obtain ⟨n, base, word, row, hlt, hinside, hend, rfl, hfirst, hrow⟩ :=
        Rlp.looseItems_eq_cons_iff.mp hitems
      obtain ⟨base', word', rest, hsecond, rfl, hrest⟩ := Rlp.payloads_eq_cons_iff.mp hrow
      exact .bare hfirst hsecond (Rlp.noItem_iff.mpr hrest) hlt hinside hend hnonce hbalance
    · obtain ⟨n, base, word, row, hlt, -, hend, rfl, hfirst, hrow⟩ :=
        Rlp.looseItems_eq_cons_iff.mp hitems
      obtain ⟨base', word', tail, hsecond, rfl, htail⟩ := Rlp.payloads_eq_cons_iff.mp hrow
      obtain ⟨base'', word'', rest, hthird, rfl, hrest⟩ := Rlp.payloads_eq_cons_iff.mp htail
      obtain ⟨hinside, rfl⟩ := (flagsOf_eq_ok_iff hfirst hsecond hthird hlt hend).mp hflags
      exact .flagged hfirst hsecond hthird (Rlp.noItem_iff.mpr hrest) hlt hinside hend hnonce hbalance
  · intro h
    cases h with
    | @bare _ _ n base base' word word' first second rest hfirst hsecond hrest hlt hinside hend hnonce
        hbalance =>
      have hrow := Rlp.payloads_eq_cons_iff.mpr ⟨base', word', rest, hsecond, rfl, Rlp.noItem_iff.mp hrest⟩
      exact ⟨first, second, hnonce, hbalance, .inl ⟨Rlp.looseItems_eq_cons_iff.mpr
        ⟨n, base, word, _, hlt, hinside, hend, rfl, hfirst, hrow⟩, rfl⟩⟩
    | @flagged _ _ n base base' base'' word word' word'' first second third rest hfirst hsecond hthird hrest
        hlt hinside hend hnonce hbalance =>
      have hflags := (flagsOf_eq_ok_iff hfirst hsecond hthird hlt hend).mpr ⟨hinside, rfl⟩
      have hrow := Rlp.payloads_eq_cons_iff.mpr ⟨base'', word'', rest, hthird, rfl, Rlp.noItem_iff.mp hrest⟩
      have hrow := Rlp.payloads_eq_cons_iff.mpr ⟨base', word', _, hsecond, rfl, hrow⟩
      rw [List.length_append] at hinside
      exact ⟨first, second, hnonce, hbalance, .inr ⟨third, Rlp.looseItems_eq_cons_iff.mpr
        ⟨n, base, word, _, hlt, by omega, hend, rfl, hfirst, hrow⟩, hflags⟩⟩

/-- A list of strings is taken for an account exactly if it begins with the digits of its amounts. -/
theorem isAccountList_iff :
    IsAccountList encoded nonce balance ↔
      (∃ flags, decode encoded = .ok ⟨nonce, balance, flags⟩) ∧ IsStringList encoded := by
  simp only [decode_eq_ok_iff]
  constructor
  · rintro ⟨row, first, second, more, hlist, hrow, hmore, hnonce, hbalance⟩
    refine ⟨?_, row, _, hlist, hrow⟩
    have hitems := hrow.looseItems_eq hlist
    rcases more with _ | ⟨third, _ | ⟨fourth, more⟩⟩
    · exact ⟨0, first, second, hnonce, hbalance, .inl ⟨hitems, rfl⟩⟩
    · obtain ⟨hlt, rfl⟩ := hlist.exists_header
      have hthird : Rlp.payloadAt row 2 = .ok third :=
        Rlp.payloadAt_of_payloads (by rw [hrow.payloads_eq]; rfl)
      refine ⟨third.headD 0, first, second, hnonce, hbalance, .inr ⟨third, hitems, ?_⟩⟩
      rw [flagsOf_header_append hlt (Nat.le_refl _), List.take_length, hthird]
      rfl
    · rw [List.length_cons, List.length_cons] at hmore
      omega
  · rintro ⟨⟨flags, first, second, hnonce, hbalance, hitems⟩, row, strings, hlist, hrow⟩
    rw [hrow.looseItems_eq hlist] at hitems
    rcases hitems with ⟨hitems, -⟩ | ⟨third, hitems, -⟩
    · cases hitems
      exact ⟨row, first, second, [], hlist, hrow, Nat.zero_le 1, hnonce, hbalance⟩
    · cases hitems
      exact ⟨row, first, second, [third], hlist, hrow, Nat.le_refl 1, hnonce, hbalance⟩

/-- A list that ends before the bytes do is not all there is. -/
theorem not_isStringList_of_extent {list : Rlp.Extent} (h : Rlp.extent encoded = .ok list)
    (hlength : list.total ≠ encoded.length) : ¬ IsStringList encoded := by
  rintro ⟨row, strings, hlist, -⟩
  obtain ⟨front, rfl, hextent⟩ := hlist.exists_extent []
  rw [List.append_nil, h, Except.ok.injEq] at hextent
  rw [hextent] at hlength
  exact hlength (Rlp.Extent.total_eq_length front row)

/-- A list that begins with a list has an item that is no string. -/
theorem not_isStringList_of_isList (h : Rlp.payload encoded = .ok row) (hinner : Rlp.isList row) :
    ¬ IsStringList encoded := by
  rintro ⟨found, strings, hlist, hstrings⟩
  have hpayload := hlist.payload_append []
  rw [List.append_nil, h, Except.ok.injEq] at hpayload
  subst hpayload
  cases hstrings with
  | nil => cases hinner
  | cons hword =>
    rw [hword.isList_append] at hinner
    exact absurd hinner (by decide)

end Decode

/-- Whatever is decoded is accepted as the grammar says. It is a list of strings that begins with nonce and
balance, and nothing else, exactly if it is one list of strings. -/
theorem decode_accepts_iff (encoded : Bytes) :
    (∀ state, decode encoded = .ok state ↔ Accepts encoded state) ∧
      ∀ nonce balance, IsAccountList encoded nonce balance ↔
        (∃ flags, decode encoded = .ok ⟨nonce, balance, flags⟩) ∧ IsStringList encoded :=
  ⟨fun _ => decode_eq_ok_iff_accepts, fun _ _ => isAccountList_iff⟩

/-- The balance behind the end of the list, a byte behind the items, and lists for the amounts. -/
theorem decode_accepts_other_lists :
    (decode [0xc1, 0x03, 0x05] = .ok ⟨3, 5, 0⟩ ∧ ¬ IsAccountList [0xc1, 0x03, 0x05] 3 5) ∧
      (decode [0xc2, 0x03, 0x05, 0xb8] = .ok ⟨3, 5, 0⟩ ∧ ¬ IsAccountList [0xc2, 0x03, 0x05, 0xb8] 3 5) ∧
      decode [0xc2, 0xc0, 0xc0] = .ok ⟨0, 0, 0⟩ ∧ ¬ IsAccountList [0xc2, 0xc0, 0xc0] 0 0 := by
  have hbehind : ¬ IsStringList [0xc1, 0x03, 0x05] :=
    @not_isStringList_of_extent _ ⟨1, 1⟩ (by decide) (by decide)
  have htrailing : ¬ IsStringList [0xc2, 0x03, 0x05, 0xb8] :=
    @not_isStringList_of_extent _ ⟨1, 2⟩ (by decide) (by decide)
  have hnested : ¬ IsStringList [0xc2, 0xc0, 0xc0] :=
    @not_isStringList_of_isList _ [0xc0, 0xc0] (by decide) (by decide)
  exact ⟨⟨by decide +kernel, fun h => hbehind (isAccountList_iff.mp h).2⟩,
    ⟨by decide +kernel, fun h => htrailing (isAccountList_iff.mp h).2⟩,
    by decide +kernel, fun h => hnested (isAccountList_iff.mp h).2⟩

end BlockAudit.AccountState
