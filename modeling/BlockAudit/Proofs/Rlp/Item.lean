import BlockAudit.Proofs.Rlp.Payload

/-!
Encoded items can be told apart. An encoding shows where it ends, so that even a row of them stands
for one list of items only.
-/
namespace BlockAudit.Rlp

section Header

variable {base base' : UInt8} {n m : Nat} {x y : Bytes}

/-- What the first byte of a header adds to its base. -/
private def lead (n : Nat) : Nat :=
  if n ≤ 55 then n else 55 + (bigEndian n).length

private theorem lead_lt (hn : n < 256 ^ 8) : lead n < 64 := by
  have hlen : (bigEndian n).length ≤ 8 := length_bigEndian_le hn
  unfold lead
  split <;> omega

private theorem header_eq (hbase : base ≤ 0xc0) (hn : n < 256 ^ 8) :
    ∃ first, header base n = first :: (if n ≤ 55 then [] else bigEndian n) ∧
      first.toNat = base.toNat + lead n := by
  unfold lead
  by_cases hshort : n ≤ 55
  · obtain ⟨first, heq, hfirst⟩ := header_of_le hbase hshort
    exact ⟨first, by rw [heq, if_pos hshort], by rw [hfirst, if_pos hshort]⟩
  · obtain ⟨first, heq, hfirst⟩ := header_of_gt hbase (Nat.lt_of_not_le hshort) hn
    exact ⟨first, by rw [heq, if_neg hshort], by rw [hfirst, if_neg hshort, Nat.add_assoc]⟩

private theorem eq_of_lead_eq (hlead : lead n = lead m)
    (h : (if n ≤ 55 then [] else bigEndian n) ++ x = (if m ≤ 55 then [] else bigEndian m) ++ y) :
    n = m ∧ x = y := by
  have hpos : ∀ k, 55 < k → (bigEndian k).length ≠ 0 := fun k hk hzero =>
    bigEndian_ne_nil (show k ≠ 0 by omega) (List.length_eq_zero_iff.mp hzero)
  unfold lead at hlead
  by_cases hn : n ≤ 55 <;> by_cases hm : m ≤ 55
  · rw [if_pos hn, if_pos hm] at hlead h
    exact ⟨hlead, h⟩
  · rw [if_pos hn, if_neg hm] at hlead
    have := hpos m (by omega)
    omega
  · rw [if_neg hn, if_pos hm] at hlead
    have := hpos n (by omega)
    omega
  · rw [if_neg hn, if_neg hm] at hlead h
    obtain ⟨hdigits, hrest⟩ := List.append_inj h (by omega)
    exact ⟨bigEndian_injective hdigits, hrest⟩

/-- A header tells strings from lists, and how long the payload after it is. -/
theorem header_append_inj (hbase : base = 0x80 ∨ base = 0xc0) (hbase' : base' = 0x80 ∨ base' = 0xc0)
    (hn : n < 256 ^ 8) (hm : m < 256 ^ 8) (h : header base n ++ x = header base' m ++ y) :
    base = base' ∧ n = m ∧ x = y := by
  have hle : base ≤ 0xc0 := by rcases hbase with rfl | rfl <;> decide
  have hle' : base' ≤ 0xc0 := by rcases hbase' with rfl | rfl <;> decide
  obtain ⟨first, heq, hfirst⟩ := header_eq hle hn
  obtain ⟨first', heq', hfirst'⟩ := header_eq hle' hm
  rw [heq, heq', List.cons_append, List.cons_append, List.cons.injEq] at h
  obtain ⟨rfl, h⟩ := h
  have hlt := lead_lt hn
  have hlt' := lead_lt hm
  have hnat : base.toNat = 0x80 ∨ base.toNat = 0xc0 := by rcases hbase with rfl | rfl <;> decide
  have hnat' : base'.toNat = 0x80 ∨ base'.toNat = 0xc0 := by
    rcases hbase' with rfl | rfl <;> decide
  have hbases : base = base' := UInt8.toNat_inj.mp (by omega)
  subst hbases
  exact ⟨rfl, eq_of_lead_eq (by omega) h⟩

/-- A byte that stands for itself begins no header. -/
theorem header_append_ne {byte : UInt8} (hbase : base = 0x80 ∨ base = 0xc0) (hn : n < 256 ^ 8)
    (hbyte : byte < 0x80) : byte :: x ≠ header base n ++ y := by
  intro h
  have hle : base ≤ 0xc0 := by rcases hbase with rfl | rfl <;> decide
  obtain ⟨first, heq, hfirst⟩ := header_eq hle hn
  rw [heq, List.cons_append, List.cons.injEq] at h
  obtain ⟨rfl, -⟩ := h
  have hnat : base.toNat = 0x80 ∨ base.toNat = 0xc0 := by rcases hbase with rfl | rfl <;> decide
  have hsmall : byte.toNat < 0x80 := hbyte
  omega

end Header

namespace Item

/-- The least first byte of the items of a kind that have a header. -/
def base : Item → UInt8
  | .string _ => 0x80
  | .list _ => 0xc0

/-- What follows the header. -/
def payload : Item → Bytes
  | .string bytes => bytes
  | .list items => encodeAll items

theorem base_cases (item : Item) : item.base = 0x80 ∨ item.base = 0xc0 := by
  cases item
  · exact .inl rfl
  · exact .inr rfl

theorem encode_cases (item : Item) :
    (∃ byte < 0x80, item = .string [byte] ∧ item.encode = [byte]) ∨
      item.encode = header item.base item.payload.length ++ item.payload := by
  cases item with
  | string bytes =>
    rw [encode]
    rcases encodeBytes_cases bytes with ⟨byte, hsmall, rfl, heq⟩ | heq
    · exact .inl ⟨byte, hsmall, rfl, heq⟩
    · exact .inr heq
  | list items =>
    rw [encode]
    exact .inr rfl

theorem encode_ne_nil (item : Item) : item.encode ≠ [] := by
  rcases encode_cases item with ⟨byte, -, -, heq⟩ | heq
  · rw [heq]
    exact List.cons_ne_nil _ _
  · rw [heq, header]
    split <;> simp

theorem length_payload_le (item : Item) : item.payload.length ≤ item.encode.length := by
  rcases encode_cases item with ⟨byte, -, rfl, heq⟩ | heq
  · rw [heq]
    exact Nat.le_refl 1
  · rw [heq, List.length_append]
    omega

/-- Two encodings at the same place are of items of one kind with one payload. -/
theorem payload_append_inj {a b : Item} {x y : Bytes} (ha : a.payload.length < 256 ^ 8)
    (hb : b.payload.length < 256 ^ 8) (h : a.encode ++ x = b.encode ++ y) :
    a.base = b.base ∧ a.payload = b.payload ∧ x = y := by
  rcases encode_cases a with ⟨byte, hbyte, rfl, heq⟩ | heq <;>
    rcases encode_cases b with ⟨byte', hbyte', rfl, heq'⟩ | heq'
  · rw [heq, heq'] at h
    obtain ⟨rfl, rfl⟩ := List.cons.inj h
    exact ⟨rfl, rfl, rfl⟩
  · rw [heq, heq', List.append_assoc] at h
    exact absurd h (header_append_ne b.base_cases hb hbyte)
  · rw [heq, heq', List.append_assoc] at h
    exact absurd h.symm (header_append_ne a.base_cases ha hbyte')
  · rw [heq, heq', List.append_assoc, List.append_assoc] at h
    obtain ⟨hbase, hlen, h⟩ := header_append_inj a.base_cases b.base_cases ha hb h
    obtain ⟨hpayload, hrest⟩ := List.append_inj h hlen
    exact ⟨hbase, hpayload, hrest⟩

mutual

theorem eq_of_payload_eq (a b : Item) (hbase : a.base = b.base) (h : a.payload = b.payload)
    (hlt : a.payload.length < 256 ^ 8) : a = b := by
  match a, b with
  | .string s, .string t => rw [show s = t from h]
  | .string _, .list _ => exact absurd hbase (show (0x80 : UInt8) ≠ 0xc0 by decide)
  | .list _, .string _ => exact absurd hbase (show (0xc0 : UInt8) ≠ 0x80 by decide)
  | .list as, .list bs => rw [encodeAll_inj as bs h hlt]

/-- A row of encodings stands for one list of items. -/
theorem encodeAll_inj (as bs : List Item) (h : encodeAll as = encodeAll bs)
    (hlt : (encodeAll as).length < 256 ^ 8) : as = bs := by
  match as, bs with
  | [], [] => rfl
  | [], b :: bs =>
    rw [encodeAll, encodeAll] at h
    exact absurd (List.append_eq_nil_iff.mp h.symm).1 b.encode_ne_nil
  | a :: as, [] =>
    rw [encodeAll, encodeAll] at h
    exact absurd (List.append_eq_nil_iff.mp h).1 a.encode_ne_nil
  | a :: as, b :: bs =>
    have hlt' := hlt
    rw [h] at hlt'
    rw [encodeAll, List.length_append] at hlt hlt'
    have ha := a.length_payload_le
    have hb := b.length_payload_le
    obtain ⟨hbase, hpayload, hrest⟩ := payload_append_inj (by omega) (by omega) h
    rw [eq_of_payload_eq a b hbase hpayload (by omega), encodeAll_inj as bs hrest (by omega)]

end

/-- An encoding stands for one item. -/
theorem encode_inj {a b : Item} (h : a.encode = b.encode) (hlt : a.encode.length < 256 ^ 8) :
    a = b := by
  have ha := a.length_payload_le
  have hb := b.length_payload_le
  rw [← h] at hb
  obtain ⟨hbase, hpayload, -⟩ :=
    payload_append_inj (by omega) (by omega) (congrArg (· ++ ([] : Bytes)) h)
  exact eq_of_payload_eq a b hbase hpayload (by omega)

/-- No encoding goes on where another one ends. -/
theorem eq_of_prefix_encode {a b : Item} (ha : a.payload.length < 256 ^ 8)
    (hb : b.payload.length < 256 ^ 8) (h : a.encode <+: b.encode) : a = b := by
  obtain ⟨rest, h⟩ := h
  obtain ⟨hbase, hpayload, -⟩ := payload_append_inj ha hb (h.trans (List.append_nil _).symm)
  exact eq_of_payload_eq a b hbase hpayload ha

theorem ofNat_inj {m n : Nat} (h : ofNat m = ofNat n) : m = n :=
  bigEndian_injective (string.inj h)

theorem ofWord_inj {a b : Word} (h : ofWord a = ofWord b) : a = b :=
  BitVec.eq_of_toNat_eq (ofNat_inj h)

theorem ofUInt64_inj {a b : UInt64} (h : ofUInt64 a = ofUInt64 b) : a = b :=
  UInt64.toNat_inj.mp (ofNat_inj h)

theorem ofBool_inj {a b : Bool} (h : ofBool a = ofBool b) : a = b := by
  have hnat : a.toNat = b.toNat := ofNat_inj h
  cases a <;> cases b <;> simp_all

theorem ofFixed_inj {size : Nat} {a b : FixedBytes size} (h : ofFixed a = ofFixed b) : a = b :=
  FixedBytes.ext (string.inj h)

theorem isList_encode_list {items : List Item} (hlt : (encodeAll items).length < 256 ^ 8) :
    isList (list items).encode = true := by
  rw [encode, isList_header (.inr rfl) hlt]
  rfl

/-- An item of a row is no longer than the row. -/
theorem length_encode_le_encodeAll {item : Item} {items : List Item} (h : item ∈ items) :
    item.encode.length ≤ (encodeAll items).length := by
  induction items with
  | nil => cases h
  | cons first rest ih =>
    rw [encodeAll, List.length_append]
    rcases List.mem_cons.mp h with rfl | hrest
    · exact Nat.le_add_right _ _
    · exact Nat.le_trans (ih hrest) (Nat.le_add_left _ _)

theorem length_encode_le_of_mem {item : Item} {items : List Item} (h : item ∈ items) :
    item.encode.length ≤ (list items).encode.length :=
  Nat.le_trans (length_encode_le_encodeAll h) (list items).length_payload_le

end Item

section EncodeBytes

private theorem length_header (base : UInt8) (n : Nat) :
    (header base n).length = if n ≤ 55 then 1 else 1 + (bigEndian n).length := by
  unfold header
  split
  · rfl
  · rw [List.length_cons, Nat.add_comm]

private theorem length_header_mono (base : UInt8) {m n : Nat} (h : m ≤ n) :
    (header base m).length ≤ (header base n).length := by
  have hdigits : (bigEndian m).length ≤ (bigEndian n).length :=
    length_bigEndian_le (Nat.lt_of_le_of_lt h (lt_pow_length_bigEndian n))
  rw [length_header, length_header]
  split_ifs <;> omega

theorem Item.encodeAll_append (items more : List Item) :
    encodeAll (items ++ more) = encodeAll items ++ encodeAll more := by
  induction items with
  | nil => rfl
  | cons first rest ih => rw [List.cons_append, encodeAll, ih, encodeAll, List.append_assoc]

/-- A list with further items at its end has a longer encoding. -/
theorem Item.length_encode_list_lt_append (items : List Item) {more : List Item} (h : more ≠ []) :
    (list items).encode.length < (list (items ++ more)).encode.length := by
  obtain ⟨first, rest, rfl⟩ := List.exists_cons_of_ne_nil h
  have hfirst := List.length_pos_iff.mpr first.encode_ne_nil
  have hpayload : (encodeAll (items ++ first :: rest)).length =
      (encodeAll items).length + (first.encode.length + (encodeAll rest).length) := by
    rw [encodeAll_append, encodeAll, List.length_append, List.length_append]
  have hheader := @length_header_mono 0xc0 (encodeAll items).length
    (encodeAll (items ++ first :: rest)).length (by omega)
  simp only [encode, List.length_append]
  omega

/-- Whether a list ends with some items shows in its encoding, however long. -/
theorem Item.eq_nil_iff_of_encode_eq {items more more' : List Item}
    (h : (list (items ++ more)).encode = (list (items ++ more')).encode) :
    more = [] ↔ more' = [] := by
  have hnil : ∀ {x y : List Item}, (list (items ++ x)).encode = (list (items ++ y)).encode →
      x = [] → y = [] := by
    rintro x y hxy rfl
    by_contra hne
    have hlt := length_encode_list_lt_append items hne
    rw [← hxy, List.append_nil] at hlt
    exact Nat.lt_irrefl _ hlt
  exact ⟨hnil h, hnil h.symm⟩

theorem length_encodeBytes_le {bytes : Bytes} (h : bytes.length ≤ 55) :
    (encodeBytes bytes).length ≤ bytes.length + 1 := by
  rcases encodeBytes_cases bytes with ⟨byte, -, rfl, heq⟩ | heq
  · rw [heq]
    exact Nat.le_succ 1
  · rw [heq, List.length_append, length_header, if_pos h]
    omega

theorem Item.encodeAll_eq_flatten (items : List Item) :
    encodeAll items = (items.map encode).flatten := by
  induction items with
  | nil => rfl
  | cons first rest ih => rw [encodeAll, ih, List.map_cons, List.flatten_cons]

/-- Lists of the same encoding, however long, have the same encodings item by item if their items have
encodings of the same lengths. -/
theorem Item.map_encode_of_encode_eq {items items' : List Item}
    (hlengths : (items.map encode).map List.length = (items'.map encode).map List.length)
    (h : (list items).encode = (list items').encode) : items.map encode = items'.map encode := by
  have hlength : (encodeAll items).length = (encodeAll items').length := by
    rw [encodeAll_eq_flatten, encodeAll_eq_flatten, List.length_flatten, List.length_flatten, hlengths]
  rw [encode, encode] at h
  rw [hlength] at h
  have hrow := List.append_cancel_left h
  rw [encodeAll_eq_flatten, encodeAll_eq_flatten] at hrow
  exact List.eq_iff_flatten_eq.mpr ⟨hrow, hlengths⟩

/-- A whole encoding stands for one byte string, of whatever length. -/
theorem encodeBytes_injective {s t : Bytes} (h : encodeBytes s = encodeBytes t) : s = t := by
  have hne : ∀ (byte : UInt8) (bytes : Bytes), byte < 0x80 →
      [byte] ≠ header 0x80 bytes.length ++ bytes := by
    intro byte bytes hbyte h
    have hlen := congrArg List.length h
    rw [List.length_append, length_header, List.length_singleton] at hlen
    have hnil : bytes = [] := by
      rw [← List.length_eq_zero_iff]
      split at hlen <;> omega
    subst hnil
    obtain rfl : byte = 0x80 := (List.cons.inj h).1
    exact absurd hbyte (by decide)
  rcases encodeBytes_cases s with ⟨byte, hbyte, rfl, heq⟩ | heq <;>
    rcases encodeBytes_cases t with ⟨byte', hbyte', rfl, heq'⟩ | heq' <;> rw [heq, heq'] at h
  · exact h
  · exact absurd h (hne byte t hbyte)
  · exact absurd h.symm (hne byte' s hbyte')
  · have hlen := congrArg List.length h
    rw [List.length_append, List.length_append] at hlen
    have hst : s.length = t.length := by
      rcases Nat.le_total s.length t.length with hle | hle
      · have := length_header_mono 0x80 hle
        omega
      · have := length_header_mono 0x80 hle
        omega
    rw [hst] at h
    exact List.append_cancel_left h

end EncodeBytes

end BlockAudit.Rlp
