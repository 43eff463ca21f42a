import BlockAudit.Proofs.Trie.Refusal
import BlockAudit.Proofs.Trie.Trailing

/-!
Messages inside messages, and what is reported of the whole when one of them is refused. The message right
around it turns missing bytes into the length that it announces, and no message further out changes that. So
what is reported of a field is true of the outermost message, however deep others lie.
-/
namespace BlockAudit.Trie

variable {store : ValueStore} {message inside : Bytes} {declared : UInt8} {error : DecodeError}

theorem DecodeError.atInline_atInline (error : DecodeError) (declared outer : Nat) :
    (error.atInline declared).atInline outer = error.atInline declared := by
  cases error <;> rfl

namespace Rskip107

/-- Reading a message gets to one inside it: what stands before that is read, and the byte right before it
announces its length. -/
inductive Reaches (store : ValueStore) (message : Bytes) : UInt8 → Bytes → Prop where
  | left {first declared : UInt8} {flags : Flags} {path inside : Bytes} {bits : BitPath}
      (hfront : first :: (path ++ declared :: inside) <+: message)
      (hflags : first.toNat % 64 = flags.number)
      (hpath : PathPart flags.sharedPath path bits)
      (hinline : flags.leftPresent ∧ flags.leftInline)
      (hlength : inside.length = declared.toNat) : Reaches store message declared inside
  | right {first declared : UInt8} {flags : Flags} {path left inside : Bytes} {bits : BitPath}
      {leftChild : Child}
      (hfront : first :: (path ++ (left ++ declared :: inside)) <+: message)
      (hflags : first.toNat % 64 = flags.number)
      (hpath : PathPart flags.sharedPath path bits)
      (hleft : ChildPart store flags.leftPresent flags.leftInline left leftChild)
      (hinline : flags.rightPresent ∧ flags.rightInline)
      (hlength : inside.length = declared.toNat) : Reaches store message declared inside

theorem Reaches.length_lt (h : Reaches store message declared inside) :
    inside.length < message.length := by
  cases h with
  | left hfront =>
    have hle := hfront.length_le
    simp only [List.length_cons, List.length_append] at hle
    omega
  | right hfront =>
    have hle := hfront.length_le
    simp only [List.length_cons, List.length_append] at hle
    omega

/-- Nothing behind a message inside is looked at before that is read. -/
theorem decode_error_of_reaches (h : Reaches store message declared inside)
    (herror : decode store inside = .error error) :
    decode store message = .error (error.atInline declared.toNat) := by
  rw [decode, decodeWith_eq]
  cases h with
  | @left first _ flags path _ bits hfront hflags hpath hinline hlength =>
    obtain rfl : Flags.ofByte first = flags := Flags.ofByte_of_number hflags
    obtain ⟨hfirst, hstands⟩ := standsAt_cons_iff.mp (prefix_iff_standsAt_zero.mp hfront)
    obtain ⟨hpath_stands, hinside⟩ := standsAt_append_iff.mp hstands
    have hread := (readPath_eq_ok_iff hfirst.le_length).mpr ⟨path, hpath_stands, hpath, rfl⟩
    have hrefused : decodeChild message (fun m _ => decode store m) true true _ = _ :=
      decodeChild_inline_error hinside hlength fun _ => herror
    rw [hfirst.byteField, liftM_field_ok, ok_bind]
    dsimp only
    rw [hread, ok_bind, hinline.1, hinline.2, hrefused, error_bind]
  | @right first _ flags path left _ bits leftChild hfront hflags hpath hleft hinline hlength =>
    obtain rfl : Flags.ofByte first = flags := Flags.ofByte_of_number hflags
    obtain ⟨hfirst, hstands⟩ := standsAt_cons_iff.mp (prefix_iff_standsAt_zero.mp hfront)
    obtain ⟨hpath_stands, hstands⟩ := standsAt_append_iff.mp hstands
    obtain ⟨hleft_stands, hinside⟩ := standsAt_append_iff.mp hstands
    have hread := (readPath_eq_ok_iff hfirst.le_length).mpr ⟨path, hpath_stands, hpath, rfl⟩
    have hread_left := (decodeChild_eq_ok_iff (fun _ _ _ => decode_eq_ok_iff)
      hpath_stands.le_length).mpr ⟨left, hleft_stands, hleft, rfl⟩
    have hrefused : decodeChild message (fun m _ => decode store m) true true _ = _ :=
      decodeChild_inline_error hinside hlength fun _ => herror
    rw [hfirst.byteField, liftM_field_ok, ok_bind]
    dsimp only
    rw [hread, ok_bind, hread_left, ok_bind, hinline.1, hinline.2, hrefused, error_bind]

theorem trailing_of_front {front : Bytes} {node : Node} (hfront : front <+: message)
    (hlt : front.length < message.length) (hdenotes : Denotes store front node)
    (hlong : node.isLong) : Trailing store message := by
  obtain ⟨tail, hwhole⟩ := hfront
  have htail : tail ≠ [] := by
    intro hnil
    rw [← hwhole, hnil, List.append_nil] at hlt
    exact Nat.lt_irrefl _ hlt
  exact ⟨front, tail, node, hwhole.symm, htail, hdenotes, hlong⟩

/-- A message is refused for its own fields, or for a message inside that reading it gets to. -/
theorem refuses_or_reaches_of_decode (h : decode store message = .error error) :
    Refuses store message error ∨
      ∃ declared inside cause, Reaches store message declared inside ∧
        decode store inside = .error cause ∧ error = cause.atInline declared.toNat := by
  rw [decode, decodeWith_eq] at h
  rcases bind_eq_error_iff.mp h with h | ⟨first, hfirst, h⟩
  · exact .inl (refuses_of_liftM (fun _ => overruns_of_byteField (Nat.zero_le _)) h)
  rw [liftM_field_eq_ok_iff, byteField_eq_ok_iff] at hfirst
  have hflags := (Flags.number_ofByte first).symm
  dsimp only at h
  generalize Flags.ofByte first = flags at hflags h
  rcases bind_eq_error_iff.mp h with h | ⟨⟨bits, _⟩, hread, h⟩
  · exact .inl (refuses_of_readPath hfirst.le_length h)
  obtain ⟨path, hpath, hbits, rfl⟩ := (readPath_eq_ok_iff hfirst.le_length).mp hread
  have hinner : ∀ m (_ : m.length < message.length) node,
      decode store m = .ok node ↔ Denotes store m node := fun _ _ _ => decode_eq_ok_iff
  rcases bind_eq_error_iff.mp h with h | ⟨⟨leftChild, _⟩, hread, h⟩
  · rcases refuses_of_decodeChild hpath.le_length h with
      h | ⟨declared, inside, _, cause, hinline, hinside, hlength, hcause, rfl⟩
    · exact .inl h
    have hstands := standsAt_cons_iff.mpr ⟨hfirst, standsAt_append_iff.mpr ⟨hpath, hinside⟩⟩
    have hreaches : Reaches store message declared inside :=
      .left (prefix_iff_standsAt_zero.mpr hstands) hflags hbits hinline hlength
    exact .inr ⟨declared, inside, cause, hreaches, hcause, rfl⟩
  obtain ⟨left, hleft, hleftChild, rfl⟩ := (decodeChild_eq_ok_iff hinner hpath.le_length).mp hread
  rcases bind_eq_error_iff.mp h with h | ⟨⟨rightChild, _⟩, hread, h⟩
  · rcases refuses_of_decodeChild hleft.le_length h with
      h | ⟨declared, inside, _, cause, hinline, hinside, hlength, hcause, rfl⟩
    · exact .inl h
    have hstands := standsAt_cons_iff.mpr ⟨hfirst, standsAt_append_iff.mpr
      ⟨hpath, standsAt_append_iff.mpr ⟨hleft, hinside⟩⟩⟩
    have hreaches : Reaches store message declared inside :=
      .right (prefix_iff_standsAt_zero.mpr hstands) hflags hbits hleftChild hinline hlength
    exact .inr ⟨declared, inside, cause, hreaches, hcause, rfl⟩
  obtain ⟨right, hright, hrightChild, rfl⟩ :=
    (decodeChild_eq_ok_iff hinner hleft.le_length).mp hread
  left
  rcases bind_eq_error_iff.mp h with h | ⟨⟨below, _⟩, hread, h⟩
  · exact refuses_of_readSize hright.le_length h
  obtain ⟨size, hsize, hbelow, rfl⟩ := (readSize_eq_ok_iff hright.le_length).mp hread
  rcases bind_eq_error_iff.mp h with h | ⟨label, -, h⟩
  · rcases overruns_or_trails_of_decodeValue hsize.le_length h with
      ⟨cause, hcause, rfl⟩ | ⟨value, label, hlong, hvalue, hlabel, hlabel_long, hend, rfl⟩
    · exact .truncated hcause
    -- up to the end of its long value the message is one that is read
    have hdenotes := Denotes.parts hflags hbits hleftChild hrightChild hbelow (hlong ▸ hlabel)
    have hstands := standsAt_cons_iff.mpr ⟨hfirst, standsAt_append_iff.mpr ⟨hpath,
      standsAt_append_iff.mpr ⟨hleft, standsAt_append_iff.mpr ⟨hright,
        standsAt_append_iff.mpr ⟨hsize, hvalue⟩⟩⟩⟩⟩
    have hfront := prefix_iff_standsAt_zero.mpr hstands
    refine .trailing (trailing_of_front hfront ?_ hdenotes hlabel_long)
    simp only [List.length_cons, List.length_append]
    omega
  · cases h

/-- A message inside another, at any depth, and the length that the message right around it announces. -/
inductive Nested (store : ValueStore) : Bytes → UInt8 → Bytes → Prop where
  | child {message inside : Bytes} {declared : UInt8} (h : Reaches store message declared inside) :
      Nested store message declared inside
  | deeper {message between inside : Bytes} {outer declared : UInt8}
      (h : Reaches store message outer between) (hinside : Nested store between declared inside) :
      Nested store message declared inside

theorem Nested.ne_nil (h : Nested store message declared inside) : message ≠ [] := by
  have hpos : 0 < message.length := by
    cases h with
    | child h => exact Nat.zero_lt_of_lt h.length_lt
    | deeper h => exact Nat.zero_lt_of_lt h.length_lt
  exact List.length_pos_iff.mp hpos

/-- What is wrong with a message at any depth is reported of the whole. -/
theorem decode_error_of_nested (h : Nested store message declared inside)
    (herror : decode store inside = .error error) :
    decode store message = .error (error.atInline declared.toNat) := by
  induction h with
  | child h => exact decode_error_of_reaches h herror
  | deeper h _ ih => rw [decode_error_of_reaches h (ih herror), DecodeError.atInline_atInline]

/-- Whatever is reported of a message is wrong with its own fields, or with those of one inside it. -/
theorem refuses_or_nested_of_decode (h : decode store message = .error error) :
    Refuses store message error ∨
      ∃ declared inside cause, Nested store message declared inside ∧ Refuses store inside cause ∧
        decode store inside = .error cause ∧ error = cause.atInline declared.toNat := by
  induction hn : message.length using Nat.strongRecOn generalizing message error with
  | ind n ih =>
    subst hn
    rcases refuses_or_reaches_of_decode h with h | ⟨outer, between, cause, hreaches, hbetween, rfl⟩
    · exact .inl h
    right
    rcases ih _ hreaches.length_lt hbetween rfl with
      hrefuses | ⟨declared, inside, cause, hnested, hrefuses, hinside, rfl⟩
    · exact ⟨outer, between, cause, .child hreaches, hrefuses, hbetween, rfl⟩
    · exact ⟨declared, inside, cause, .deeper hreaches hnested, hrefuses, hinside,
        cause.atInline_atInline _ _⟩

theorem overruns_of_decode {cause : FieldError}
    (h : decode store message = .error (.truncated cause)) : cause.Overruns message := by
  rcases refuses_or_nested_of_decode h with hrefuses | ⟨_, _, inner, _, _, _, herror⟩
  · cases hrefuses with
    | truncated hcause => exact hcause
  · cases inner <;> cases herror

/-- Nothing is reported but what the fields of some message can be refused for. -/
theorem decode_ne_error (htruncated : ∀ cause, error ≠ .truncated cause)
    (hpath : ∀ length, error ≠ .pathTooLong length) (hsize : ∀ size, error ≠ .lengthMismatch size) :
    decode store message ≠ .error error := by
  intro h
  rcases refuses_or_nested_of_decode h with hrefuses | ⟨_, _, _, _, hrefuses, _, rfl⟩
  · cases hrefuses with
    | truncated => exact htruncated _ rfl
    | pathTooLong => exact hpath _ rfl
    | trailing => exact hsize _ rfl
  · cases hrefuses with
    | truncated => exact hsize _ rfl
    | pathTooLong => exact hpath _ rfl
    | trailing => exact hsize _ rfl

theorem decode_of_trailing (h : Trailing store message) :
    decode store message = .error (.lengthMismatch message.length) := by
  obtain ⟨front, tail, node, rfl, htail, hdenotes, hlong⟩ := h
  rw [decode_append (decode_eq_ok_iff.mpr hdenotes) htail, if_pos hlong]

/-- A length is reported of a message inside that is too short for its fields, or of a message with bytes
behind its long value. -/
theorem decode_eq_lengthMismatch_iff {size : Nat} :
    decode store message = .error (.lengthMismatch size) ↔
      (∃ declared inside cause, Nested store message declared inside ∧
        decode store inside = .error (.truncated cause) ∧ declared.toNat = size) ∨
      ∃ inside, (inside = message ∨ ∃ declared, Nested store message declared inside) ∧
        Trailing store inside ∧ inside.length = size := by
  constructor
  · intro h
    rcases refuses_or_nested_of_decode h with
      hrefuses | ⟨declared, inside, cause, hnested, hrefuses, hcause, herror⟩
    · cases hrefuses with
      | trailing htrailing => exact .inr ⟨message, .inl rfl, htrailing, rfl⟩
    · cases hrefuses with
      | truncated =>
        cases herror
        exact .inl ⟨declared, inside, _, hnested, hcause, rfl⟩
      | pathTooLong => cases herror
      | trailing htrailing =>
        cases herror
        exact .inr ⟨inside, .inr ⟨declared, hnested⟩, htrailing, rfl⟩
  · intro h
    rcases h with ⟨declared, inside, cause, hnested, hcause, rfl⟩ | ⟨inside, hplace, htrailing, rfl⟩
    · exact decode_error_of_nested hnested hcause
    have hinside := decode_of_trailing htrailing
    rcases hplace with rfl | ⟨declared, hnested⟩
    · exact hinside
    · exact decode_error_of_nested hnested hinside

theorem decode_nil (store : ValueStore) : decode store [] = .error (.truncated (.truncated 0 1 0)) := by
  rw [decode]
  rfl

/-- In the current layout the byte that opens the older one announces nothing but a value in full, which is
always read. -/
theorem exists_decode_arity (store : ValueStore) (rest : Bytes) :
    ∃ node, decode store (Orchid.arity :: rest) = .ok node := by
  rw [decode, decodeWith_eq]
  exact ⟨_, rfl⟩

end Rskip107

namespace Node

/-- A message is refused because it is empty, or by the reader of its layout. -/
theorem cases_of_ofMessage (h : ofMessage store message = .error error) :
    error = .emptyMessage ∨ Orchid.Refuses message error ∨
      Rskip107.decode store message = .error error := by
  cases message with
  | nil =>
    cases h
    exact .inl rfl
  | cons first rest =>
    rw [ofMessage] at h
    split at h
    · exact .inr (.inl (Orchid.refuses_of_decode h))
    · exact .inr (.inr h)

/-- A message that the current layout refuses is not one of the older layout. -/
theorem ofMessage_of_decode (hne : message ≠ []) (h : Rskip107.decode store message = .error error) :
    ofMessage store message = .error error := by
  cases message with
  | nil => exact absurd rfl hne
  | cons first rest =>
    have hfirst : first ≠ Orchid.arity := by
      intro heq
      obtain ⟨node, hnode⟩ := Rskip107.exists_decode_arity store rest
      rw [heq, hnode] at h
      cases h
    rw [ofMessage, if_neg hfirst, h]

theorem ofMessage_ne_path (cause : BitPathError) : ofMessage store message ≠ .error (.path cause) := by
  intro h
  rcases cases_of_ofMessage h with herror | hrefuses | h
  · cases herror
  · cases hrefuses
  · exact absurd h (Rskip107.decode_ne_error nofun nofun nofun)

theorem overruns_of_ofMessage {cause : FieldError}
    (h : ofMessage store message = .error (.truncated cause)) : cause.Overruns message := by
  rcases cases_of_ofMessage h with herror | hrefuses | h
  · cases herror
  · cases hrefuses with
    | truncated hcause => exact hcause
  · exact Rskip107.overruns_of_decode h

theorem ofMessage_eq_lengthMismatch_iff {size : Nat} :
    ofMessage store message = .error (.lengthMismatch size) ↔
      Rskip107.decode store message = .error (.lengthMismatch size) := by
  constructor
  · intro h
    rcases cases_of_ofMessage h with herror | hrefuses | h
    · cases herror
    · cases hrefuses
    · exact h
  · intro h
    have hne : message ≠ [] := by
      intro hnil
      rw [hnil, Rskip107.decode_nil] at h
      cases h
    exact ofMessage_of_decode hne h

/-- No message is refused for the bits of its path. In the current layout none is found empty, nor its first
byte or its flags invalid. A field that is reported as truncated begins in the outermost message, at its end
at the latest, and goes on behind its end. Where a message inside is too short for one of its fields, at any
depth, the length that its parent announces for it is reported instead. Besides, a length is reported only of
a message with bytes behind its long value. -/
theorem ofMessage_errors_accurate (store : ValueStore) (message : Bytes) :
    (∀ cause, ofMessage store message ≠ .error (.path cause)) ∧
    (Rskip107.decode store message ≠ .error .emptyMessage ∧
      (∀ arity, Rskip107.decode store message ≠ .error (.invalidArity arity)) ∧
      ∀ flags, Rskip107.decode store message ≠ .error (.invalidFlags flags)) ∧
    (∀ cause, ofMessage store message = .error (.truncated cause) → cause.Overruns message) ∧
    (∀ declared inside cause, Rskip107.Nested store message declared inside →
      Rskip107.decode store inside = .error (.truncated cause) →
        cause.Overruns inside ∧
          ofMessage store message = .error (.lengthMismatch declared.toNat)) ∧
    ∀ size, ofMessage store message = .error (.lengthMismatch size) ↔
      (∃ declared inside cause, Rskip107.Nested store message declared inside ∧
        Rskip107.decode store inside = .error (.truncated cause) ∧ declared.toNat = size) ∨
      ∃ inside, (inside = message ∨ ∃ declared, Rskip107.Nested store message declared inside) ∧
        Rskip107.Trailing store inside ∧ inside.length = size := by
  refine ⟨ofMessage_ne_path, ⟨?_, fun arity => ?_, fun flags => ?_⟩, fun cause => overruns_of_ofMessage,
    fun declared inside cause hnested h => ⟨?_, ?_⟩, fun size => ?_⟩
  · exact Rskip107.decode_ne_error nofun nofun nofun
  · exact Rskip107.decode_ne_error nofun nofun nofun
  · exact Rskip107.decode_ne_error nofun nofun nofun
  · exact Rskip107.overruns_of_decode h
  · exact ofMessage_of_decode hnested.ne_nil (Rskip107.decode_error_of_nested hnested h)
  · rw [ofMessage_eq_lengthMismatch_iff, Rskip107.decode_eq_lengthMismatch_iff]

/-- Two messages inside one another, the inner one of a single byte that announces a long value, and a message
that ends within the hash of its left child. -/
theorem ofMessage_errors_accurate_deep :
    let inner : Bytes := [0x60]
    let outer : Bytes := [0x4a, 3, 0x4a, 1, 0x60]
    let short : Bytes := [0x48, 1, 2, 3, 4]
    (Rskip107.Nested .none outer 1 inner ∧
      Rskip107.decode .none inner = .error (.truncated (.truncated 1 32 1)) ∧
      ofMessage .none outer = .error (.lengthMismatch 1)) ∧
    ofMessage .none short = .error (.truncated (.truncated 1 32 5)) ∧
      (FieldError.truncated 1 32 5).Overruns short := by
  intro inner outer short
  let flags : Rskip107.Flags := ⟨false, false, true, false, true, false⟩
  have hnested : Rskip107.Nested .none outer 1 inner := by
    have hpath : Rskip107.PathPart flags.sharedPath [] [] := .absent
    have hflags : (0x4a : UInt8).toNat % 64 = flags.number := by decide
    have houter : Rskip107.Reaches .none outer 3 [0x4a, 1, 0x60] :=
      .left ⟨[], rfl⟩ hflags hpath ⟨rfl, rfl⟩ rfl
    have hinner : Rskip107.Reaches .none [0x4a, 1, 0x60] 1 inner :=
      .left ⟨[], rfl⟩ hflags hpath ⟨rfl, rfl⟩ rfl
    exact .deeper houter (.child hinner)
  have hinner : Rskip107.decode .none inner = .error (.truncated (.truncated 1 32 1)) := by
    decide +kernel
  have hshort : ofMessage .none short = .error (.truncated (.truncated 1 32 5)) := by
    decide +kernel
  obtain ⟨-, -, -, hdeep, -⟩ := ofMessage_errors_accurate .none outer
  obtain ⟨-, -, hfield, -⟩ := ofMessage_errors_accurate .none short
  exact ⟨⟨hnested, hinner, (hdeep 1 inner _ hnested hinner).2⟩, hshort, hfield _ hshort⟩

/-- What is wrong with a message inside otherwise is reported as it is. -/
example : ofMessage .none (0x4a :: 11 :: 0x50 :: List.replicate 10 0xff) =
    .error (.pathTooLong 0xffffffffffffffff) := by
  decide +kernel

end Node

end BlockAudit.Trie
