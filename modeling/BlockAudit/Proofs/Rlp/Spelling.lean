import BlockAudit.Proofs.Rlp.Payload

/-!
What a reader takes for an item at the front of a buffer: a byte that stands for itself, or a payload after
the one header that announces its length. The front of an item alone is too short to be one, and a row of
items is read item by item. A reader that does not stop at the end of a list finds the items behind it too.
-/
namespace BlockAudit.Rlp

/-- The bytes spell an item with a payload. Its kind is told by the least first byte of its headers, 0x80
for strings and 0xc0 for lists. A string of a single small byte has two spellings. -/
inductive Spells : UInt8 → Bytes → Bytes → Prop where
  | byte {b : UInt8} (h : b < 0x80) : Spells 0x80 [b] [b]
  | headed {base : UInt8} {payload : Bytes} (hbase : base = 0x80 ∨ base = 0xc0)
      (hlt : payload.length < 256 ^ 8) :
      Spells base (header base payload.length ++ payload) payload

theorem Spells.base_cases {base : UInt8} {word payload : Bytes} (h : Spells base word payload) :
    base = 0x80 ∨ base = 0xc0 := by
  cases h with
  | byte => exact .inl rfl
  | headed hbase => exact hbase

/-- A string is spelled in its canonical form, or as a single small byte after a header. -/
theorem spells_string_iff {word bytes : Bytes} :
    Spells 0x80 word bytes ↔
      bytes.length < 2 ^ 64 ∧ word = encodeBytes bytes ∨
        ∃ byte < 0x80, bytes = [byte] ∧ word = [0x81, byte] := by
  constructor
  · intro h
    cases h with
    | byte hsmall => exact .inl ⟨Nat.one_lt_two_pow (by decide), (if_pos hsmall).symm⟩
    | headed hbase hlt =>
      rcases encodeBytes_cases bytes with ⟨byte, hsmall, rfl, -⟩ | heq
      · exact .inr ⟨byte, hsmall, rfl, rfl⟩
      · exact .inl ⟨hlt, heq.symm⟩
  · rintro (⟨hlt, rfl⟩ | ⟨byte, hsmall, rfl, rfl⟩)
    · rcases encodeBytes_cases bytes with ⟨byte, hsmall, rfl, heq⟩ | heq
      · rw [heq]
        exact .byte hsmall
      · rw [heq]
        exact .headed (.inl rfl) hlt
    · exact @Spells.headed 0x80 [byte] (.inl rfl) (Nat.one_lt_pow (by decide) (by decide))

section Announced

variable {base first : UInt8} {rest buffer : Bytes} {e : Extent} {n k : Nat}

theorem header_eq_singleton (hbase : base = 0x80 ∨ base = 0xc0) (hn : n ≤ 55)
    (hfirst : first.toNat = base.toNat + n) : header base n = [first] := by
  have hle : base ≤ 0xc0 := by rcases hbase with rfl | rfl <;> decide
  obtain ⟨other, heq, hother⟩ := header_of_le hle hn
  rw [heq, UInt8.toNat_inj.mp (hother.trans hfirst.symm)]

/-- The length that a long header announces is written in the digits of the number. -/
theorem exists_header_of_longExtent (hbase : base = 0x80 ∨ base = 0xc0) (hk : k ≤ 8)
    (hfirst : first.toNat = base.toNat + 55 + k) (h : longExtent rest k = .ok e) :
    ∃ n tail, n < 256 ^ 8 ∧ first :: rest = header base n ++ tail ∧
      e = ⟨(header base n).length, n⟩ := by
  have hle : base ≤ 0xc0 := by rcases hbase with rfl | rfl <;> decide
  unfold longExtent at h
  split at h
  · cases h
  · rename_i hhead
    split at h
    · cases h
    · rename_i hlength
      dsimp only at h
      split at h
      · cases h
      · rename_i hlong
        cases h
        let n := ofBigEndian (rest.take k)
        have htake : (rest.take k).length = k := List.length_take_of_le (Nat.le_of_not_lt hlength)
        have hlt : n < 256 ^ 8 := by
          have hdigits := ofBigEndian_lt (rest.take k)
          rw [htake] at hdigits
          exact Nat.lt_of_lt_of_le hdigits (Nat.pow_le_pow_right (by decide) hk)
        have hpos : k ≠ 0 := by
          rintro rfl
          exact hlong (Nat.zero_le 55)
        have hdigits : bigEndian n = rest.take k := by
          apply bigEndian_ofBigEndian
          rwa [List.head?_take, if_neg hpos]
        obtain ⟨other, heq, hother⟩ := header_of_gt hle (Nat.lt_of_not_le hlong) hlt
        rw [hdigits, htake] at hother
        rw [hdigits, UInt8.toNat_inj.mp (hother.trans hfirst.symm)] at heq
        refine ⟨n, rest.drop k, hlt, ?_, ?_⟩
        · rw [heq, List.cons_append, List.take_append_drop]
        · rw [heq, List.length_cons, htake, Nat.add_comm]

/-- Every header that is understood is the one that is written for the length. -/
theorem exists_header_of_announced (h : announced buffer = .ok e) :
    (∃ byte rest, byte < 0x80 ∧ buffer = byte :: rest ∧ e = ⟨0, 1⟩) ∨
      ∃ base n rest, (base = 0x80 ∨ base = 0xc0) ∧ n < 256 ^ 8 ∧ buffer = header base n ++ rest ∧
        e = ⟨(header base n).length, n⟩ := by
  cases buffer with
  | nil => cases h
  | cons first rest =>
    have hshort : ∀ base : UInt8, (base = 0x80 ∨ base = 0xc0) → ∀ n ≤ 55,
        first.toNat = base.toNat + n → Except.ok ⟨1, n⟩ = (.ok e : Except RlpError Extent) →
        ∃ base n tail, (base = 0x80 ∨ base = 0xc0) ∧ n < 256 ^ 8 ∧
          first :: rest = header base n ++ tail ∧ e = ⟨(header base n).length, n⟩ := by
      intro base hbase n hn hfirst hok
      cases hok
      have heq := header_eq_singleton hbase hn hfirst
      exact ⟨base, n, rest, hbase, Nat.lt_of_le_of_lt hn (by decide), by rw [heq]; rfl,
        by rw [heq]; rfl⟩
    have hlt := first.toNat_lt
    simp only [announced, UInt8.lt_iff_toNat_lt, UInt8.le_iff_toNat_le, UInt8.reduceToNat] at h
    split_ifs at h with hself hstring hstringLong hlist
    · cases h
      exact .inl ⟨first, rest, UInt8.lt_iff_toNat_lt.mpr hself, rfl, rfl⟩
    · exact .inr (hshort 0x80 (.inl rfl) _ (by omega) (by simp only [UInt8.reduceToNat]; omega) h)
    · obtain ⟨n, tail, hn⟩ := @exists_header_of_longExtent 0x80 first rest e _ (.inl rfl) (by omega)
        (by simp only [UInt8.reduceToNat]; omega) h
      exact .inr ⟨0x80, n, tail, .inl rfl, hn⟩
    · exact .inr (hshort 0xc0 (.inr rfl) _ (by omega) (by simp only [UInt8.reduceToNat]; omega) h)
    · obtain ⟨n, tail, hn⟩ := @exists_header_of_longExtent 0xc0 first rest e _ (.inr rfl) (by omega)
        (by simp only [UInt8.reduceToNat]; omega) h
      exact .inr ⟨0xc0, n, tail, .inr rfl, hn⟩

end Announced

section Extent

variable {base : UInt8} {word payload buffer rest front : Bytes} {e : Extent} {n : Nat}

theorem Extent.total_eq_length (front bytes : Bytes) :
    (⟨front.length, bytes.length⟩ : Extent).total = (front ++ bytes).length :=
  List.length_append.symm

theorem extent_of_announced (h : announced buffer = .ok e) :
    extent buffer = if buffer.length < e.total then .error .isTooShort else .ok e := by
  rw [extent, h]
  rfl

theorem announced_of_extent (h : extent buffer = .ok e) :
    announced buffer = .ok e ∧ e.total ≤ buffer.length := by
  cases ha : announced buffer with
  | error error =>
    rw [extent, ha] at h
    cases h
  | ok found =>
    rw [extent_of_announced ha] at h
    split at h
    · cases h
    · cases h
      exact ⟨rfl, by omega⟩

/-- An item is found at the front of a buffer, with its payload at its end. -/
theorem Spells.exists_extent (h : Spells base word payload) (rest : Bytes) :
    ∃ front, word = front ++ payload ∧
      extent (word ++ rest) = .ok ⟨front.length, payload.length⟩ := by
  cases h with
  | @byte b hsmall =>
    have hannounced : announced ([b] ++ rest) = .ok ⟨0, 1⟩ := if_pos hsmall
    refine ⟨[], rfl, ?_⟩
    rw [extent_of_announced hannounced, if_neg (by simp [Extent.total])]
    rfl
  | headed hbase hlt =>
    refine ⟨header base payload.length, rfl, ?_⟩
    rw [List.append_assoc, extent_of_announced (announced_header hbase hlt _),
      if_neg (by simp [Extent.total])]

theorem Spells.isList_append (h : Spells base word payload) (rest : Bytes) :
    isList (word ++ rest) = decide (base = 0xc0) := by
  cases h with
  | @byte b hsmall =>
    have hnot : ¬ 0xc0 ≤ b := by
      simp only [UInt8.lt_iff_toNat_lt, UInt8.le_iff_toNat_le, UInt8.reduceToNat] at hsmall ⊢
      omega
    exact decide_eq_false hnot
  | headed hbase hlt =>
    rw [List.append_assoc]
    exact isList_header hbase hlt _

/-- Whatever is found at the front of a buffer is an item that is spelled there. -/
theorem exists_spells_of_extent (h : extent buffer = .ok e) :
    ∃ base front payload rest, Spells base (front ++ payload) payload ∧
      buffer = front ++ payload ++ rest ∧ e = ⟨front.length, payload.length⟩ := by
  obtain ⟨hannounced, hle⟩ := announced_of_extent h
  rcases exists_header_of_announced hannounced with
    ⟨b, rest, hsmall, rfl, rfl⟩ | ⟨base, n, rest, hbase, hlt, rfl, rfl⟩
  · exact ⟨0x80, [], [b], rest, .byte hsmall, rfl, rfl⟩
  · have hn : n ≤ rest.length := by
      simp only [Extent.total, List.length_append] at hle
      omega
    have htake : (rest.take n).length = n := List.length_take_of_le hn
    refine ⟨base, header base n, rest.take n, rest.drop n, ?_, ?_, ?_⟩
    · have hspells := @Spells.headed base (rest.take n) hbase (by rwa [htake])
      rwa [htake] at hspells
    · rw [List.append_assoc, List.take_append_drop]
    · rw [htake]

/-- A part of a header announces nothing. -/
theorem announced_take_header (hbase : base = 0x80 ∨ base = 0xc0) (hlt : n < 256 ^ 8) {size : Nat}
    (hsize : size < (header base n).length) :
    announced ((header base n).take size) = .error .isTooShort := by
  cases size with
  | zero => rfl
  | succ size =>
    have hle : base ≤ 0xc0 := by rcases hbase with rfl | rfl <;> decide
    by_cases hshort : n ≤ 55
    · rw [header, if_pos hshort, List.length_singleton] at hsize
      omega
    · obtain ⟨first, heq, hfirst⟩ := header_of_gt hle (Nat.lt_of_not_le hshort) hlt
      rw [heq, List.length_cons] at hsize
      have hdigits : size < (bigEndian n).length := Nat.lt_of_succ_lt_succ hsize
      have hlength : ((bigEndian n).take size).length < (bigEndian n).length := by
        rw [List.length_take]
        omega
      have hhead : ((bigEndian n).take size).head? ≠ some 0 := by
        rw [List.head?_take]
        split
        · exact (Option.some_ne_none 0).symm
        · exact head?_bigEndian_ne n
      rw [heq, List.take_succ_cons, announced_of_long hbase (by omega) (length_bigEndian_le hlt) hfirst,
        longExtent, if_neg hhead, if_pos hlength]

/-- The front of an item is no item. -/
theorem Spells.extent_of_prefix (h : Spells base word payload) (hfront : front <+: word)
    (hne : front ≠ word) : extent front = .error .isTooShort := by
  have hlength : front.length < word.length :=
    Nat.lt_of_le_of_ne hfront.length_le fun heq => hne (hfront.eq_of_length heq)
  rw [List.prefix_iff_eq_take] at hfront
  cases h with
  | byte hsmall =>
    rw [List.length_singleton, Nat.lt_one_iff, List.length_eq_zero_iff] at hlength
    rw [hlength]
    rfl
  | headed hbase hlt =>
    rw [List.length_append] at hlength
    by_cases hheader : front.length < (header base payload.length).length
    · rw [List.take_append_of_le_length (Nat.le_of_lt hheader)] at hfront
      rw [hfront, extent, announced_take_header hbase hlt hheader]
      rfl
    · have hrest : front = header base payload.length ++
          payload.take (front.length - (header base payload.length).length) := by
        rwa [List.take_append, List.take_of_length_le (Nat.le_of_not_lt hheader)] at hfront
      have hannounced : announced front = .ok ⟨(header base payload.length).length, payload.length⟩ := by
        rw [hrest]
        exact announced_header hbase hlt _
      rw [extent_of_announced hannounced]
      exact if_pos hlength

end Extent

section Payloads

variable {base : UInt8} {word bytes row rest : Bytes} {tail : List Bytes} {index : Nat} {first : Extent}
  {error : RlpError}

theorem payloads_of_ok (h : extent row = .ok first) :
    payloads row = (row.drop first.header).take first.payload :: payloads (row.drop first.total) := by
  rw [payloads]
  split
  · rename_i h'
    rw [h] at h'
    cases h'
  · rename_i h'
    rw [h] at h'
    cases h'
    rfl

theorem payloads_of_error (h : extent row = .error error) : payloads row = [] := by
  rw [payloads]
  split
  · rfl
  · rename_i h'
    rw [h] at h'
    cases h'

/-- Nothing at the front of these bytes is an item. -/
def NoItem (rest : Bytes) : Prop :=
  ∀ base word bytes, Spells base word bytes → ¬ word <+: rest

theorem Spells.payload_append (h : Spells base word bytes) (rest : Bytes) :
    payload (word ++ rest) = .ok bytes := by
  obtain ⟨front, rfl, hextent⟩ := h.exists_extent rest
  rw [payload, hextent, ok_bind, List.append_assoc, List.drop_left, List.take_left, pure_eq_ok]

theorem Spells.payloads_append (h : Spells base word bytes) (rest : Bytes) :
    payloads (word ++ rest) = bytes :: payloads rest := by
  obtain ⟨front, rfl, hextent⟩ := h.exists_extent rest
  rw [payloads_of_ok hextent, Extent.total_eq_length, List.drop_left, List.append_assoc, List.drop_left,
    List.take_left]

theorem noItem_iff : NoItem rest ↔ payloads rest = [] := by
  constructor
  · intro h
    cases hextent : extent rest with
    | error error => exact payloads_of_error hextent
    | ok first =>
      obtain ⟨base, front, bytes, more, hspells, rfl, -⟩ := exists_spells_of_extent hextent
      exact absurd (List.prefix_append _ _) (h base _ bytes hspells)
  · rintro h base word bytes hspells ⟨more, rfl⟩
    rw [hspells.payloads_append] at h
    cases h

theorem payloads_eq_cons_iff :
    payloads row = bytes :: tail ↔
      ∃ base word rest, Spells base word bytes ∧ row = word ++ rest ∧ payloads rest = tail := by
  constructor
  · intro h
    cases hextent : extent row with
    | error error =>
      rw [payloads_of_error hextent] at h
      cases h
    | ok first =>
      obtain ⟨base, front, found, rest, hspells, rfl, -⟩ := exists_spells_of_extent hextent
      rw [hspells.payloads_append, List.cons.injEq] at h
      obtain ⟨rfl, htail⟩ := h
      exact ⟨base, _, rest, hspells, rfl, htail⟩
  · rintro ⟨base, word, rest, hspells, rfl, rfl⟩
    exact hspells.payloads_append rest

theorem Spells.payloadAt_append_succ (h : Spells base word bytes) (rest : Bytes) (index : Nat) :
    payloadAt (word ++ rest) (index + 1) = payloadAt rest index := by
  obtain ⟨front, rfl, hextent⟩ := h.exists_extent rest
  rw [payloadAt, hextent, ok_bind, Extent.total_eq_length, List.drop_left]

/-- What is found in a row is read at its index. -/
theorem payloadAt_of_payloads (h : (payloads row)[index]? = some bytes) :
    payloadAt row index = .ok bytes := by
  generalize hfound : payloads row = found at h
  induction found generalizing row index with
  | nil => cases h
  | cons first tail ih =>
    obtain ⟨base, word, rest, hspells, rfl, hrest⟩ := payloads_eq_cons_iff.mp hfound
    cases index with
    | zero =>
      cases h
      exact hspells.payload_append rest
    | succ index =>
      rw [hspells.payloadAt_append_succ]
      exact ih hrest h

end Payloads

section Cut

variable {base : UInt8} {word bytes found : Bytes} {index size : Nat}

/-- An item of a row that ends too early is missing, as far as it is not whole. -/
theorem Spells.extent_take (h : Spells base word bytes) (hsize : size < word.length) (rest : Bytes) :
    extent ((word ++ rest).take size) = .error .isTooShort := by
  rw [List.take_append_of_le_length (Nat.le_of_lt hsize)]
  apply h.extent_of_prefix (List.take_prefix size word)
  intro heq
  have hlength := congrArg List.length heq
  rw [List.length_take] at hlength
  omega

theorem Spells.payloadAt_take_zero (h : Spells base word bytes) (rest : Bytes) :
    payloadAt ((word ++ rest).take size) 0 = .ok found ↔ word.length ≤ size ∧ bytes = found := by
  rw [payloadAt]
  by_cases hsize : word.length ≤ size
  · rw [List.take_append, List.take_of_length_le hsize, h.payload_append, Except.ok.injEq]
    exact (and_iff_right hsize).symm
  · rw [payload, h.extent_take (Nat.lt_of_not_le hsize)]
    exact iff_of_false (by rintro ⟨⟩) fun hand => hsize hand.1

theorem Spells.payloadAt_take_succ (h : Spells base word bytes) (rest : Bytes) :
    payloadAt ((word ++ rest).take size) (index + 1) = .ok found ↔
      word.length ≤ size ∧ payloadAt (rest.take (size - word.length)) index = .ok found := by
  by_cases hsize : word.length ≤ size
  · rw [List.take_append, List.take_of_length_le hsize, h.payloadAt_append_succ]
    exact (and_iff_right hsize).symm
  · rw [payloadAt, h.extent_take (Nat.lt_of_not_le hsize)]
    exact iff_of_false (by rintro ⟨⟩) fun hand => hsize hand.1

end Cut

section Loose

variable {base : UInt8} {word bytes buffer row rest : Bytes} {tail : List Bytes} {list : Extent} {n : Nat}

/-- A list is found behind a header, if as many bytes follow as it announces. -/
theorem extent_header_append (hlt : n < 256 ^ 8) (hle : n ≤ row.length) :
    extent (header 0xc0 n ++ row) = .ok ⟨(header 0xc0 n).length, n⟩ := by
  rw [extent_of_announced (announced_header (.inr rfl) hlt row), if_neg]
  simp only [Extent.total, List.length_append]
  omega

theorem exists_header_of_isList (hlist : isList buffer) (hextent : extent buffer = .ok list) :
    ∃ n row, n < 256 ^ 8 ∧ n ≤ row.length ∧ buffer = header 0xc0 n ++ row ∧
      list = ⟨(header 0xc0 n).length, n⟩ := by
  obtain ⟨base, front, bytes, rest, hspells, rfl, rfl⟩ := exists_spells_of_extent hextent
  rw [hspells.isList_append, decide_eq_true_iff] at hlist
  subst hlist
  generalize hword : front ++ bytes = word at hspells
  cases hspells with
  | headed hbase hlt =>
    obtain rfl := List.append_cancel_right hword
    refine ⟨bytes.length, bytes ++ rest, hlt, ?_, List.append_assoc _ _ _, rfl⟩
    rw [List.length_append]
    exact Nat.le_add_right _ _

/-- No list gives an error, and a list without a first item gives no items. -/
theorem looseItems_cases (buffer : Bytes) :
    (isList buffer = false ∧ looseItems buffer = .error .expectedToBeList) ∨
      (isList buffer ∧ (∃ error, extent buffer = .error error) ∧ looseItems buffer = .ok []) ∨
      (∃ list, isList buffer ∧ extent buffer = .ok list ∧
        (∃ error, extent ((buffer.drop list.header).take list.payload) = .error error) ∧
        looseItems buffer = .ok []) ∨
      ∃ list first, isList buffer ∧ extent buffer = .ok list ∧
        extent ((buffer.drop list.header).take list.payload) = .ok first ∧
        looseItems buffer = .ok (payloads (buffer.drop list.header)) := by
  rw [looseItems]
  cases isList buffer with
  | false => exact .inl ⟨rfl, rfl⟩
  | true =>
    cases extent buffer with
    | error error => exact .inr (.inl ⟨rfl, ⟨error, rfl⟩, rfl⟩)
    | ok list =>
      dsimp only
      cases hfirst : extent ((buffer.drop list.header).take list.payload) with
      | error error => exact .inr (.inr (.inl ⟨list, rfl, rfl, ⟨error, hfirst⟩, rfl⟩))
      | ok first => exact .inr (.inr (.inr ⟨list, first, rfl, rfl, hfirst, rfl⟩))

/-- The end of a list bounds the first of its items and no other. -/
theorem looseItems_eq_cons_iff :
    looseItems buffer = .ok (bytes :: tail) ↔
      ∃ n base word rest, n < 256 ^ 8 ∧ word.length ≤ n ∧ n ≤ (word ++ rest).length ∧
        buffer = header 0xc0 n ++ (word ++ rest) ∧ Spells base word bytes ∧ payloads rest = tail := by
  constructor
  · intro h
    rcases looseItems_cases buffer with ⟨-, hloose⟩ | ⟨-, -, hloose⟩ | ⟨list, -, -, -, hloose⟩ |
      ⟨list, first, hlist, hextent, hfirst, hloose⟩
    case inr.inr.inr =>
      obtain ⟨n, row, hlt, hle, rfl, rfl⟩ := exists_header_of_isList hlist hextent
      rw [List.drop_left] at hfirst
      dsimp only at hfirst
      rw [hloose, List.drop_left, Except.ok.injEq] at h
      obtain ⟨base, front, found, more, hspells, htake, -⟩ := exists_spells_of_extent hfirst
      have hrow : row = front ++ found ++ (more ++ row.drop n) := by
        rw [← List.append_assoc, ← htake, List.take_append_drop]
      have hword : (front ++ found).length ≤ n := by
        have hlength := congrArg List.length htake
        rw [List.length_take, List.length_append] at hlength
        omega
      rw [hrow, hspells.payloads_append, List.cons.injEq] at h
      obtain ⟨rfl, htail⟩ := h
      exact ⟨n, base, _, _, hlt, hword, by rwa [← hrow], by rw [← hrow], hspells, htail⟩
    all_goals
      rw [hloose] at h
      cases h
  · rintro ⟨n, base, word, rest, hlt, hword, hle, rfl, hspells, rfl⟩
    have hlist : isList (header 0xc0 n ++ (word ++ rest)) = true := isList_header (.inr rfl) hlt _
    obtain ⟨front, hfront, hfirst⟩ := hspells.exists_extent (rest.take (n - word.length))
    rw [looseItems, hlist, extent_header_append hlt hle]
    dsimp only
    rw [List.drop_left, List.take_append, List.take_of_length_le hword, hfirst, hspells.payloads_append]
    rfl

end Loose

/-- The bytes spell items of one kind, one after the other. -/
inductive SpellsAll (base : UInt8) : Bytes → List Bytes → Prop where
  | nil : SpellsAll base [] []
  | cons {word bytes rest : Bytes} {tail : List Bytes} (hword : Spells base word bytes)
      (hrest : SpellsAll base rest tail) : SpellsAll base (word ++ rest) (bytes :: tail)

section Rows

variable {base : UInt8} {row encoded : Bytes} {found : List Bytes}

theorem SpellsAll.payloads_eq (h : SpellsAll base row found) : payloads row = found := by
  induction h with
  | nil => exact payloads_of_error rfl
  | cons hword _ ih => rw [hword.payloads_append, ih]

theorem Spells.exists_header (h : Spells 0xc0 encoded row) :
    row.length < 256 ^ 8 ∧ encoded = header 0xc0 row.length ++ row := by
  cases h with
  | headed hbase hlt => exact ⟨hlt, rfl⟩

/-- A list that ends where its items end has no others. -/
theorem SpellsAll.looseItems_eq (h : SpellsAll base row found) (hlist : Spells 0xc0 encoded row) :
    looseItems encoded = .ok found := by
  obtain ⟨hlt, rfl⟩ := hlist.exists_header
  cases h with
  | nil => rfl
  | @cons word bytes rest tail hword hrest =>
    rw [List.length_append] at hlt
    refine looseItems_eq_cons_iff.mpr ⟨(word ++ rest).length, base, word, rest, ?_, ?_, Nat.le_refl _,
      rfl, hword, hrest.payloads_eq⟩ <;> rw [List.length_append] <;> omega

end Rows

end BlockAudit.Rlp
