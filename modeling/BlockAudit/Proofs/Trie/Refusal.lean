import BlockAudit.Proofs.Trie.OrchidParse

/-!
What is wrong with the fields of a message that is refused. Every field is read at an offset within the
message, or at its end, so that one that cannot be read goes on behind the end. Apart from that a path may be
announced too long, bytes may follow a long value, and the older layout has a first byte and flags to check.
-/
namespace BlockAudit

/-- A field that begins in the buffer, or where it ends, and goes on behind its end. -/
def FieldError.Overruns (error : FieldError) (buffer : Bytes) : Prop :=
  ∃ offset needed, error = .truncated offset needed buffer.length ∧
    offset ≤ buffer.length ∧ buffer.length < offset + needed

section Overruns

variable {buffer : Bytes} {offset needed : Nat} {error : FieldError}

theorem overruns_of_field (hoffset : offset ≤ buffer.length)
    (h : field buffer offset needed = .error error) : error.Overruns buffer := by
  unfold field at h
  split at h
  case isTrue => cases h
  case isFalse hend =>
    cases h
    exact ⟨offset, needed, rfl, hoffset, Nat.lt_of_not_le hend⟩

theorem overruns_of_byteField (hoffset : offset ≤ buffer.length)
    (h : byteField buffer offset = .error error) : error.Overruns buffer := by
  rw [byteField_eq, map_eq_error_iff] at h
  exact overruns_of_field hoffset h

theorem VarInt.overruns_of_read (hoffset : offset ≤ buffer.length)
    (h : read buffer offset = .error error) : error.Overruns buffer := by
  unfold read at h
  rcases bind_eq_error_iff.mp h with h | ⟨marker, hmarker, h⟩
  · exact overruns_of_byteField hoffset h
  -- where the marker is read, what it announces begins within the buffer
  have hpayload : offset + 1 ≤ buffer.length := (byteField_eq_ok_iff.mp hmarker).le_length
  split at h
  · cases h
  · rcases bind_eq_error_iff.mp h with h | ⟨digits, -, h⟩
    · exact overruns_of_field hpayload h
    · cases h

theorem Uint24.overruns_of_decode (hoffset : offset ≤ buffer.length)
    (h : decode buffer offset = .error error) : error.Overruns buffer := by
  rw [decode, map_eq_error_iff] at h
  exact overruns_of_field hoffset h

end Overruns

namespace Trie

variable {store : ValueStore} {message : Bytes} {offset : Nat} {error : DecodeError}

theorem exists_overruns_of_liftM {α : Type} {x : Except FieldError α}
    (hx : ∀ cause, x = .error cause → cause.Overruns message)
    (h : (liftM x : Except DecodeError α) = .error error) :
    ∃ cause : FieldError, cause.Overruns message ∧ error = .truncated cause := by
  obtain ⟨cause, hcause, herror⟩ := liftM_field_eq_error_iff.mp h
  exact ⟨cause, hx cause hcause, herror.symm⟩

/-- The bytes that a length needs are enough for its bits. -/
theorem ofPacked_of_field {packed : Bytes} {length : Nat}
    (h : field message offset (BitPath.packedLength length) = .ok packed) :
    BitPath.ofPacked packed length = .ok ((BitPath.ofBytes packed).take length) := by
  have hsize := (length_of_field h).1
  exact BitPath.ofPacked_eq_ok_iff.mpr ⟨Nat.le_of_eq hsize.symm, rfl⟩

namespace Rskip107

/-- Bytes follow a message with a long value, which has to end the whole. -/
def Trailing (store : ValueStore) (message : Bytes) : Prop :=
  ∃ front tail node, message = front ++ tail ∧ tail ≠ [] ∧ Denotes store front node ∧ node.isLong

/-- What is reported of the fields of a message, those of the messages inside it apart. -/
inductive Refuses (store : ValueStore) (message : Bytes) : DecodeError → Prop where
  | truncated {cause : FieldError} (h : cause.Overruns message) :
      Refuses store message (.truncated cause)
  | pathTooLong {length : UInt64} (h : SharedPath.maxLength < length.toNat) :
      Refuses store message (.pathTooLong length)
  | trailing (h : Trailing store message) : Refuses store message (.lengthMismatch message.length)

theorem refuses_of_liftM {α : Type} {x : Except FieldError α}
    (hx : ∀ cause, x = .error cause → cause.Overruns message)
    (h : (liftM x : Except DecodeError α) = .error error) : Refuses store message error := by
  obtain ⟨cause, hcause, rfl⟩ := exists_overruns_of_liftM hx h
  exact .truncated hcause

theorem refuses_of_decodeLength (hoffset : offset ≤ message.length)
    (h : SharedPath.decodeLength message offset = .error error) : Refuses store message error := by
  unfold SharedPath.decodeLength at h
  rcases bind_eq_error_iff.mp h with h | ⟨first, hfirst, h⟩
  · exact refuses_of_liftM (fun _ => overruns_of_byteField hoffset) h
  rw [liftM_field_eq_ok_iff, byteField_eq_ok_iff] at hfirst
  dsimp only at h
  split at h
  · cases h
  · split at h
    · rcases bind_eq_error_iff.mp h with h | ⟨length, -, h⟩
      · exact refuses_of_liftM (fun _ => VarInt.overruns_of_read hfirst.le_length) h
      · split at h
        · rename_i hmax
          cases h
          exact .pathTooLong hmax
        · cases h
    · cases h

theorem refuses_of_decodePath (hoffset : offset ≤ message.length)
    (h : SharedPath.decode message offset = .error error) : Refuses store message error := by
  unfold SharedPath.decode at h
  rcases bind_eq_error_iff.mp h with h | ⟨⟨length, start⟩, hlength, h⟩
  · exact refuses_of_decodeLength hoffset h
  obtain ⟨front, hfront, -, rfl⟩ := SharedPath.decodeLength_eq_ok_iff.mp hlength
  rcases bind_eq_error_iff.mp h with h | ⟨packed, hpacked, h⟩
  · exact refuses_of_liftM (fun _ => overruns_of_field hfront.le_length) h
  rw [liftM_field_eq_ok_iff] at hpacked
  rw [ofPacked_of_field hpacked] at h
  cases h

theorem refuses_of_readPath {present : Bool} (hoffset : 1 ≤ message.length)
    (h : readPath message present = .error error) : Refuses store message error := by
  unfold readPath at h
  split at h
  · exact refuses_of_decodePath hoffset h
  · cases h

theorem refuses_of_readSize {present : Bool} (hoffset : offset ≤ message.length)
    (h : readSize message present offset = .error error) : Refuses store message error := by
  unfold readSize at h
  split at h
  · rcases bind_eq_error_iff.mp h with h | ⟨v, -, h⟩
    · exact refuses_of_liftM (fun _ => VarInt.overruns_of_read hoffset) h
    · cases h
  · cases h

/-- A child is refused for a field of the message, or for a message that stands there as the child. -/
theorem refuses_of_decodeChild {present inlined : Bool}
    {inner : (m : Bytes) → m.length < message.length → Except DecodeError Node}
    (hoffset : offset ≤ message.length)
    (h : decodeChild message inner present inlined offset = .error error) :
    Refuses store message error ∨
      ∃ declared inside, ∃ hlt cause, (present ∧ inlined) ∧
        StandsAt (declared :: inside) message offset ∧ inside.length = declared.toNat ∧
        inner inside hlt = .error cause ∧ error = cause.atInline declared.toNat := by
  cases present with
  | false => cases h
  | true =>
    cases inlined with
    | false =>
      rcases bind_eq_error_iff.mp h with h | ⟨hash, -, h⟩
      · exact .inl (refuses_of_liftM (fun _ => overruns_of_field hoffset) h)
      · cases h
    | true =>
      rcases bind_eq_error_iff.mp h with h | ⟨declared, hdeclared, h⟩
      · exact .inl (refuses_of_liftM (fun _ => overruns_of_byteField hoffset) h)
      rw [liftM_field_eq_ok_iff, byteField_eq_ok_iff] at hdeclared
      dsimp only at h
      split at h
      · rename_i cause hcause
        cases h
        exact .inl (.truncated (overruns_of_field hdeclared.le_length hcause))
      · rename_i inside hinside
        obtain ⟨hstands, hlength⟩ := field_eq_ok_iff.mp hinside
        rcases bind_eq_error_iff.mp h with h | ⟨node, -, h⟩
        · obtain ⟨cause, hcause, rfl⟩ := mapError_eq_error_iff.mp h
          exact .inr ⟨declared, inside, _, cause, ⟨rfl, rfl⟩,
            standsAt_cons_iff.mpr ⟨hdeclared, hstands⟩, hlength, hcause, rfl⟩
        · cases h

/-- A value is refused for one of its fields, or for the bytes behind it if it is long. -/
theorem overruns_or_trails_of_decodeValue {isLong : Bool} {label : Label}
    (hoffset : offset ≤ message.length)
    (h : decodeValue store message isLong offset label = .error error) :
    (∃ cause : FieldError, cause.Overruns message ∧ error = .truncated cause) ∨
      ∃ value result, isLong = true ∧ StandsAt value message offset ∧
        ValuePart store label true value result ∧ result.isLong ∧
        offset + value.length < message.length ∧ error = .lengthMismatch message.length := by
  unfold decodeValue at h
  split at h
  case isFalse => cases h
  case isTrue hlong =>
    rcases bind_eq_error_iff.mp h with h | ⟨hash, hhash, h⟩
    · exact .inl (exists_overruns_of_liftM (fun _ => overruns_of_field hoffset) h)
    rw [liftM_field_eq_ok_iff, field_eq_ok_iff] at hhash
    obtain ⟨hhash, hsize⟩ := hhash
    have hnext := hhash.le_length
    rw [hsize] at hnext
    rcases bind_eq_error_iff.mp h with h | ⟨length, hlength, h⟩
    · exact .inl (exists_overruns_of_liftM (fun _ => Uint24.overruns_of_decode hnext) h)
    rw [liftM_field_eq_ok_iff, Uint24.decode_eq_ok_iff] at hlength
    obtain ⟨digits, hdigits, hthree, rfl⟩ := hlength
    split at h
    case isFalse => cases h
    case isTrue hend =>
      cases h
      have hpart : ValuePart store label true
        ((FixedBytes.takeFrom 32 hash).toBytes ++ digits) _ := .long hthree
      rw [FixedBytes.toBytes_takeFrom hsize] at hpart
      have hstands : StandsAt (hash ++ digits) message offset :=
        standsAt_append_iff.mpr ⟨hhash, hsize.symm ▸ hdigits⟩
      refine .inr ⟨_, _, hlong, hstands, hpart, rfl, ?_, rfl⟩
      rw [List.length_append, hsize, hthree]
      exact hend

end Rskip107

namespace Orchid

/-- What is reported of a message in the older layout. -/
inductive Refuses (message : Bytes) : DecodeError → Prop where
  | truncated {cause : FieldError} (h : cause.Overruns message) : Refuses message (.truncated cause)
  | invalidArity {first : UInt8} (hfirst : StandsAt [first] message 0) (h : first ≠ arity) :
      Refuses message (.invalidArity first)
  | unknownFlags {flags : UInt8} (hflags : StandsAt [flags] message 1)
      (h : flags &&& ~~~(secureFlag ||| longValueFlag) ≠ 0) :
      Refuses message (.invalidFlags flags.toNat)
  | unknownChildren {digits : Bytes} (hdigits : StandsAt digits message 2)
      (h : 3 < ofBigEndian digits) : Refuses message (.invalidFlags (ofBigEndian digits))

theorem refuses_of_liftM {α : Type} {x : Except FieldError α}
    (hx : ∀ cause, x = .error cause → cause.Overruns message)
    (h : (liftM x : Except DecodeError α) = .error error) : Refuses message error := by
  obtain ⟨cause, hcause, rfl⟩ := exists_overruns_of_liftM hx h
  exact .truncated hcause

theorem refuses_of_decodeChild {present : Bool} (hoffset : offset ≤ message.length)
    (h : decodeChild message present offset = .error error) : Refuses message error := by
  unfold decodeChild at h
  split at h
  · rcases bind_eq_error_iff.mp h with h | ⟨hash, -, h⟩
    · exact refuses_of_liftM (fun _ => overruns_of_field hoffset) h
    · cases h
  · cases h

theorem refuses_of_decodeValue {isLong : Bool} {label : Label} (hoffset : offset ≤ message.length)
    (h : decodeValue store message isLong offset label = .error error) : Refuses message error := by
  unfold decodeValue at h
  split at h
  · rcases bind_eq_error_iff.mp h with h | ⟨hash, -, h⟩
    · exact refuses_of_liftM (fun _ => overruns_of_field hoffset) h
    · cases h
  · cases h

theorem refuses_of_decode (h : decode store message = .error error) : Refuses message error := by
  unfold decode at h
  rcases bind_eq_error_iff.mp h with h | ⟨first, hfirst, h⟩
  · exact refuses_of_liftM (fun _ => overruns_of_byteField (Nat.zero_le _)) h
  rw [liftM_field_eq_ok_iff, byteField_eq_ok_iff] at hfirst
  dsimp only at h
  split at h
  · rename_i harity
    cases h
    exact .invalidArity hfirst harity
  rcases bind_eq_error_iff.mp h with h | ⟨flags, hflags, h⟩
  · exact refuses_of_liftM (fun _ => overruns_of_byteField hfirst.le_length) h
  rw [liftM_field_eq_ok_iff, byteField_eq_ok_iff] at hflags
  split at h
  · rename_i hknown
    cases h
    exact .unknownFlags hflags hknown
  rcases bind_eq_error_iff.mp h with h | ⟨present, hpresent, h⟩
  · exact refuses_of_liftM (fun _ => overruns_of_field hflags.le_length) h
  rw [liftM_field_eq_ok_iff] at hpresent
  have hnext := (length_of_field hpresent).2
  split at h
  · rename_i hmany
    cases h
    exact .unknownChildren (field_eq_ok_iff.mp hpresent).1 hmany
  rcases bind_eq_error_iff.mp h with h | ⟨length, hlength, h⟩
  · exact refuses_of_liftM (fun _ => overruns_of_field hnext) h
  rw [liftM_field_eq_ok_iff] at hlength
  have hnext := (length_of_field hlength).2
  rcases bind_eq_error_iff.mp h with h | ⟨packed, hpacked, h⟩
  · exact refuses_of_liftM (fun _ => overruns_of_field hnext) h
  rw [liftM_field_eq_ok_iff] at hpacked
  obtain ⟨hsize, hnext⟩ := length_of_field hpacked
  rw [ofPacked_of_field hpacked, liftM_bitPath_ok, ok_bind] at h
  rw [← hsize] at hnext
  rcases bind_eq_error_iff.mp h with h | ⟨⟨left, _⟩, hread, h⟩
  · exact refuses_of_decodeChild hnext h
  obtain ⟨_, -, -, hleft, rfl⟩ := (decodeChild_eq_ok_iff hnext).mp hread
  rcases bind_eq_error_iff.mp h with h | ⟨⟨right, _⟩, hread, h⟩
  · exact refuses_of_decodeChild hleft.le_length h
  obtain ⟨_, -, -, hright, rfl⟩ := (decodeChild_eq_ok_iff hleft.le_length).mp hread
  rcases bind_eq_error_iff.mp h with h | ⟨label, -, h⟩
  · exact refuses_of_decodeValue hright.le_length h
  · cases h

end Orchid

end Trie

end BlockAudit
