import BlockAudit.Proofs.Trie.Decode
import BlockAudit.Proofs.Trie.SharedPath.Spelling

/-!
The reader of messages accepts its grammar and nothing else. Every step succeeds exactly where bytes
stand that the grammar allows there, and ends where they do.
-/
namespace BlockAudit

namespace Trie

variable {message : Bytes} {offset next : Nat}

namespace Rskip107

namespace Flags

theorem number_ofByte (byte : UInt8) : (ofByte byte).number = byte.toNat % 64 := by
  have h : ∀ n : Fin 256, (ofByte (UInt8.ofNat n)).number = n % 64 := by decide +kernel
  simpa using h ⟨byte.toNat, byte.toNat_lt⟩

theorem number_injective {a b : Flags} (h : a.number = b.number) : a = b := by
  have hback : ∀ flags : Flags, ofByte (.ofNat flags.number) = flags := by
    rintro ⟨a, b, c, d, e, f⟩
    revert a b c d e f
    decide
  rw [← hback a, h, hback]

theorem ofByte_of_number {first : UInt8} {flags : Flags} (h : first.toNat % 64 = flags.number) :
    ofByte first = flags := by
  apply number_injective
  rw [number_ofByte, h]

end Flags

section Parts

variable {store : ValueStore} {present : Bool}

theorem readPath_eq_ok_iff {path : BitPath} (hoffset : 1 ≤ message.length) :
    readPath message present = .ok (path, next) ↔
      ∃ bytes, StandsAt bytes message 1 ∧ PathPart present bytes path ∧
        next = 1 + bytes.length := by
  unfold readPath
  cases present with
  | false =>
    rw [if_neg Bool.false_ne_true]
    constructor
    · intro h
      cases h
      exact ⟨[], standsAt_nil hoffset, .absent, rfl⟩
    · rintro ⟨_, -, ⟨⟩, rfl⟩
      rfl
  | true =>
    rw [if_pos rfl, SharedPath.decode_eq_ok_iff]
    constructor
    · rintro ⟨bytes, hstands, h, hnext⟩
      exact ⟨bytes, hstands, .present h, hnext⟩
    · rintro ⟨bytes, hstands, ⟨⟩ | h, hnext⟩
      exact ⟨bytes, hstands, h, hnext⟩

theorem readSize_eq_ok_iff {size : Option UInt64} (hoffset : offset ≤ message.length) :
    readSize message present offset = .ok (size, next) ↔
      ∃ bytes, StandsAt bytes message offset ∧ SizePart present bytes size ∧
        next = offset + bytes.length := by
  unfold readSize
  cases present with
  | false =>
    rw [if_neg Bool.false_ne_true]
    constructor
    · intro h
      cases h
      exact ⟨[], standsAt_nil hoffset, .absent, rfl⟩
    · rintro ⟨_, -, ⟨⟩, rfl⟩
      rfl
  | true =>
    rw [if_pos rfl, bind_eq_ok_iff]
    simp only [liftM_field_eq_ok_iff, VarInt.read_eq_ok_iff]
    constructor
    · rintro ⟨v, ⟨bytes, hstands, h, hsize⟩, hv⟩
      cases hv
      exact ⟨bytes, hstands, .present h, by rw [hsize]⟩
    · rintro ⟨bytes, hstands, ⟨⟩ | h, rfl⟩
      exact ⟨⟨_, bytes.length⟩, ⟨bytes, hstands, h, rfl⟩, rfl⟩

theorem decodeChild_eq_ok_iff {inlined : Bool} {child : Child}
    {inner : (m : Bytes) → m.length < message.length → Except DecodeError Node}
    (hinner : ∀ m h node, inner m h = .ok node ↔ Denotes store m node)
    (hoffset : offset ≤ message.length) :
    decodeChild message inner present inlined offset = .ok (child, next) ↔
      ∃ bytes, StandsAt bytes message offset ∧ ChildPart store present inlined bytes child ∧
        next = offset + bytes.length := by
  cases present with
  | false =>
    constructor
    · intro h
      cases h
      exact ⟨[], standsAt_nil hoffset, .absent, rfl⟩
    · rintro ⟨_, -, ⟨⟩, rfl⟩
      rfl
  | true =>
    cases inlined with
    | false =>
      constructor
      · intro h
        obtain ⟨hash, hhash, h⟩ := bind_eq_ok_iff.mp h
        rw [liftM_field_eq_ok_iff, field_eq_ok_iff] at hhash
        obtain ⟨hstands, hlen⟩ := hhash
        cases h
        have hpart : ChildPart store true false (FixedBytes.takeFrom 32 hash).toBytes _ := .hashed
        rw [FixedBytes.toBytes_takeFrom hlen] at hpart
        exact ⟨hash, hstands, hpart, by rw [hlen]⟩
      · rintro ⟨_, hstands, hpart, rfl⟩
        cases hpart with
        | @hashed hash => rw [decodeChild_hash hstands, hash.length_toBytes]
    | true =>
      constructor
      · intro h
        obtain ⟨declared, hdeclared, h⟩ := bind_eq_ok_iff.mp h
        rw [liftM_field_eq_ok_iff, byteField_eq_ok_iff] at hdeclared
        dsimp only at h
        split at h
        · cases h
        · rename_i inside hinside
          obtain ⟨hstands, hlen⟩ := field_eq_ok_iff.mp hinside
          obtain ⟨node, hnode, h⟩ := bind_eq_ok_iff.mp h
          rw [mapError_eq_ok_iff, hinner] at hnode
          cases h
          refine ⟨_, standsAt_cons_iff.mpr ⟨hdeclared, hstands⟩, .inMemory hlen hnode, ?_⟩
          rw [List.length_cons, hlen]
          omega
      · rintro ⟨_, hstands, hpart, rfl⟩
        cases hpart with
        | inMemory hlen hdenotes =>
          rw [decodeChild_inline hstands hlen fun h => (hinner _ h _).mpr hdenotes,
            List.length_cons, Nat.add_assoc, Nat.add_comm 1]

private theorem decodeValue_eq_ok_iff {isLong : Bool} {label result : Label}
    (hoffset : offset ≤ message.length) :
    decodeValue store message isLong offset label = .ok result ↔
      ∃ bytes, StandsAt bytes message offset ∧ ValuePart store label isLong bytes result ∧
        message.length = offset + bytes.length := by
  unfold decodeValue
  cases isLong with
  | false =>
    rw [if_neg Bool.false_ne_true, pure_eq_ok, Except.ok.injEq]
    constructor
    · rintro rfl
      refine ⟨message.drop offset, standsAt_drop hoffset, ?_, ?_⟩
      · unfold Label.withInlineValue
        split
        · rename_i hempty
          rw [List.isEmpty_iff.mp hempty]
          exact .none
        · rename_i hempty
          exact .inline (by simpa using hempty)
      · rw [List.length_drop]
        omega
    · rintro ⟨bytes, hstands, hpart, hend⟩
      rw [hstands.drop hend]
      cases hpart with
      | none => rfl
      | inline hne => rw [Label.withInlineValue, if_neg (by simpa using hne)]
  | true =>
    rw [if_pos rfl]
    simp only [bind_eq_ok_iff, liftM_field_eq_ok_iff, field_eq_ok_iff, Uint24.decode_eq_ok_iff]
    constructor
    · rintro ⟨hash, ⟨hhash, hlen⟩, _, ⟨digits, hdigits, hthree, rfl⟩, h⟩
      split at h
      · cases h
      rename_i hend
      cases h
      have hstands : StandsAt (hash ++ digits) message offset :=
        standsAt_append_iff.mpr ⟨hhash, hlen.symm ▸ hdigits⟩
      have hpart : ValuePart store label true
        ((FixedBytes.takeFrom 32 hash).toBytes ++ digits) _ := .long hthree
      rw [FixedBytes.toBytes_takeFrom hlen] at hpart
      refine ⟨_, hstands, hpart, ?_⟩
      have hle := hstands.le_length
      rw [List.length_append, hlen, hthree] at hle ⊢
      omega
    · rintro ⟨_, hstands, hpart, hend⟩
      cases hpart with
      | @long hash digits hthree =>
        obtain ⟨hhash, hdigits⟩ := standsAt_append_iff.mp hstands
        rw [hash.length_toBytes] at hdigits
        refine ⟨_, ⟨hhash, hash.length_toBytes⟩, _, ⟨digits, hdigits, hthree, rfl⟩, ?_⟩
        rw [List.length_append, hash.length_toBytes, hthree] at hend
        rw [if_neg (by omega), takeFrom_toBytes]
        rfl

end Parts

theorem decodeWith_eq_ok_iff {store : ValueStore} {node : Node}
    {inner : (m : Bytes) → m.length < message.length → Except DecodeError Node}
    (hinner : ∀ m h node, inner m h = .ok node ↔ Denotes store m node) :
    decodeWith store message inner = .ok node ↔ Denotes store message node := by
  rw [decodeWith_eq]
  constructor
  · intro h
    obtain ⟨first, hfirst, h⟩ := bind_eq_ok_iff.mp h
    rw [liftM_field_eq_ok_iff, byteField_eq_ok_iff] at hfirst
    obtain ⟨⟨bits, _⟩, hread, h⟩ := bind_eq_ok_iff.mp h
    obtain ⟨path, hpath, hbits, rfl⟩ := (readPath_eq_ok_iff hfirst.le_length).mp hread
    obtain ⟨⟨leftChild, _⟩, hread, h⟩ := bind_eq_ok_iff.mp h
    obtain ⟨left, hleft, hleftChild, rfl⟩ :=
      (decodeChild_eq_ok_iff hinner hpath.le_length).mp hread
    obtain ⟨⟨rightChild, _⟩, hread, h⟩ := bind_eq_ok_iff.mp h
    obtain ⟨right, hright, hrightChild, rfl⟩ :=
      (decodeChild_eq_ok_iff hinner hleft.le_length).mp hread
    obtain ⟨⟨below, _⟩, hread, h⟩ := bind_eq_ok_iff.mp h
    obtain ⟨size, hsize, hbelow, rfl⟩ := (readSize_eq_ok_iff hright.le_length).mp hread
    obtain ⟨label, hread, h⟩ := bind_eq_ok_iff.mp h
    obtain ⟨value, hvalue, hlabel, hend⟩ := (decodeValue_eq_ok_iff hsize.le_length).mp hread
    cases h
    have hstands : StandsAt (first :: (path ++ (left ++ (right ++ (size ++ value))))) message 0 :=
      standsAt_cons_iff.mpr ⟨hfirst, standsAt_append_iff.mpr ⟨hpath, standsAt_append_iff.mpr
        ⟨hleft, standsAt_append_iff.mpr ⟨hright, standsAt_append_iff.mpr ⟨hsize, hvalue⟩⟩⟩⟩⟩
    rw [(standsAt_zero_iff (by simp [hend]; omega)).mp hstands]
    exact .parts (Flags.number_ofByte first).symm hbits hleftChild hrightChild hbelow hlabel
  · rintro ⟨hflags, hbits, hleftChild, hrightChild, hbelow, hlabel⟩
    rename_i first flags path left right size value bits leftChild rightChild below label
    obtain rfl : Flags.ofByte first = flags := Flags.ofByte_of_number hflags
    obtain ⟨hfirst, hstands⟩ := standsAt_cons_iff.mp (standsAt_self _)
    obtain ⟨hpath, hstands⟩ := standsAt_append_iff.mp hstands
    obtain ⟨hleft, hstands⟩ := standsAt_append_iff.mp hstands
    obtain ⟨hright, hstands⟩ := standsAt_append_iff.mp hstands
    obtain ⟨hsize, hvalue⟩ := standsAt_append_iff.mp hstands
    refine bind_eq_ok_iff.mpr ⟨first, liftM_field_eq_ok_iff.mpr hfirst.byteField, ?_⟩
    refine bind_eq_ok_iff.mpr
      ⟨(bits, _), (readPath_eq_ok_iff hfirst.le_length).mpr ⟨path, hpath, hbits, rfl⟩, ?_⟩
    refine bind_eq_ok_iff.mpr ⟨(leftChild, _),
      (decodeChild_eq_ok_iff hinner hpath.le_length).mpr ⟨left, hleft, hleftChild, rfl⟩, ?_⟩
    refine bind_eq_ok_iff.mpr ⟨(rightChild, _),
      (decodeChild_eq_ok_iff hinner hleft.le_length).mpr ⟨right, hright, hrightChild, rfl⟩, ?_⟩
    refine bind_eq_ok_iff.mpr ⟨(below, _),
      (readSize_eq_ok_iff hright.le_length).mpr ⟨size, hsize, hbelow, rfl⟩, ?_⟩
    refine bind_eq_ok_iff.mpr
      ⟨label, (decodeValue_eq_ok_iff hsize.le_length).mpr ⟨value, hvalue, hlabel, ?_⟩, rfl⟩
    simp
    omega

/-- The reader accepts its grammar at every depth. -/
theorem decode_eq_ok_iff {store : ValueStore} {node : Node} :
    decode store message = .ok node ↔ Denotes store message node := by
  induction hn : message.length using Nat.strongRecOn generalizing message node with
  | ind n ih =>
    subst hn
    rw [decode]
    exact decodeWith_eq_ok_iff fun m h node => ih m.length h rfl

/-- A byte string is read as a node exactly if it denotes that node in the grammar of messages. -/
theorem decode_iff_denotes (store : ValueStore) (message : Bytes) (node : Node) :
    decode store message = .ok node ↔ Denotes store message node :=
  decode_eq_ok_iff

end Rskip107

end Trie

end BlockAudit
