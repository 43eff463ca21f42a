import BlockAudit.Proofs.Trie.OrchidParse

/-!
Bytes after a message that is read as a node. A value in full goes on into them, and after a long value
of the current layout they are refused. Only after a long value of the older layout nothing shows of them.
-/
namespace BlockAudit

namespace Trie

/-- A label whose value goes on. -/
def Label.extend (label : Label) (tail : Bytes) : Label :=
  let value := label.value.getD [] ++ tail
  { label with value := some value, valueLength := .ofNat value.length }

def Node.extend (node : Node) (tail : Bytes) : Node :=
  { node with toLabel := node.toLabel.extend tail }

variable {store : ValueStore} {message tail : Bytes} {node : Node} {offset : Nat}

theorem Label.extend_ne (label : Label) (htail : tail ≠ []) : label.extend tail ≠ label := by
  intro h
  have hvalue : some (label.value.getD [] ++ tail) = label.value := congrArg Label.value h
  cases hv : label.value with
  | none =>
    rw [hv] at hvalue
    cases hvalue
  | some value =>
    rw [hv, Option.getD_some, Option.some.injEq] at hvalue
    exact htail (List.append_right_eq_self.mp hvalue)

theorem Node.extend_ne (node : Node) (htail : tail ≠ []) : node.extend tail ≠ node := fun h =>
  node.toLabel.extend_ne htail (congrArg Node.toLabel h)

theorem Label.extend_withInlineValue {label : Label} (hvalue : label.value = none) (rest : Bytes)
    (htail : tail ≠ []) :
    (label.withInlineValue rest).extend tail = label.withInlineValue (rest ++ tail) := by
  have hmore : (rest ++ tail).isEmpty = false := by simp [htail]
  cases rest with
  | nil => simp [extend, withInlineValue, hvalue, htail]
  | cons first rest => simp [extend, withInlineValue]

namespace Rskip107

section Front

variable {more : Bytes} {next : Nat} {present : Bool}

/-- A reader whose result is told by the bytes at its offset does not look behind them. -/
theorem extend_of_iff {α : Type} {read : Bytes → Except DecodeError (α × Nat)}
    {Part : Bytes → α → Prop} {value : α}
    (hread : ∀ buffer value next, offset ≤ buffer.length →
      (read buffer = .ok (value, next) ↔
        ∃ bytes, StandsAt bytes buffer offset ∧ Part bytes value ∧ next = offset + bytes.length))
    (hoffset : offset ≤ message.length) (h : read message = .ok (value, next)) (more : Bytes) :
    next ≤ message.length ∧ read (message ++ more) = .ok (value, next) := by
  obtain ⟨bytes, hstands, hpart, rfl⟩ := (hread _ _ _ hoffset).mp h
  have hmore := hstands.extend more
  have hoffset_more := Nat.le_trans (Nat.le_add_right _ _) hmore.le_length
  exact ⟨hstands.le_length, (hread _ _ _ hoffset_more).mpr ⟨bytes, hmore, hpart, rfl⟩⟩

theorem readPath_extend {path : BitPath} (hoffset : 1 ≤ message.length)
    (h : readPath message present = .ok (path, next)) (more : Bytes) :
    next ≤ message.length ∧ readPath (message ++ more) present = .ok (path, next) :=
  extend_of_iff (fun _ _ _ => readPath_eq_ok_iff) hoffset h more

theorem decodeChild_extend {inlined : Bool} {child : Child} (hoffset : offset ≤ message.length)
    (h : decodeChild message (fun m _ => decode store m) present inlined offset = .ok (child, next))
    (more : Bytes) :
    next ≤ message.length ∧
      decodeChild (message ++ more) (fun m _ => decode store m) present inlined offset =
        .ok (child, next) :=
  extend_of_iff (fun _ _ _ => decodeChild_eq_ok_iff fun _ _ _ => decode_eq_ok_iff) hoffset h more

theorem readSize_extend {size : Option UInt64} (hoffset : offset ≤ message.length)
    (h : readSize message present offset = .ok (size, next)) (more : Bytes) :
    next ≤ message.length ∧ readSize (message ++ more) present offset = .ok (size, next) :=
  extend_of_iff (fun _ _ _ => readSize_eq_ok_iff) hoffset h more

/-- Reads what precedes the value: the node without it, whether it is long, and where it begins. -/
def readFront (store : ValueStore) (message : Bytes) : Except DecodeError (Node × Bool × Nat) := do
  let flags := Flags.ofByte (← byteField message 0)
  let path ← readPath message flags.sharedPath
  let left ← decodeChild message (fun m _ => decode store m) flags.leftPresent flags.leftInline path.2
  let right ← decodeChild message (fun m _ => decode store m) flags.rightPresent flags.rightInline
    left.2
  let size ← readSize message (flags.leftPresent || flags.rightPresent) right.2
  let front : Node := ⟨{ path := path.1, childrenSize := size.1 }, left.1, right.1⟩
  return (front, flags.longValue, size.2)

theorem decode_eq_readFront (store : ValueStore) (message : Bytes) :
    decode store message = do
      let front ← readFront store message
      let label ← decodeValue store message front.2.1 front.2.2 front.1.toLabel
      return { front.1 with toLabel := label } := by
  rw [decode, decodeWith_eq]
  simp only [readFront, bind_assoc, pure_bind]

/-- What precedes the value is read as before, whatever follows the message. -/
theorem readFront_extend {front : Node} {isLong : Bool}
    (h : readFront store message = .ok (front, isLong, offset)) (more : Bytes) :
    (front.value = none ∧ front.valueHash = none ∧ offset ≤ message.length) ∧
      readFront store (message ++ more) = .ok (front, isLong, offset) := by
  unfold readFront at h ⊢
  obtain ⟨first, hfirst, h⟩ := bind_eq_ok_iff.mp h
  rw [liftM_field_eq_ok_iff, byteField_eq_ok_iff] at hfirst
  dsimp only at h
  obtain ⟨⟨bits, afterPath⟩, hread, h⟩ := bind_eq_ok_iff.mp h
  obtain ⟨hpath, hread_path⟩ := readPath_extend hfirst.le_length hread more
  obtain ⟨⟨left, afterLeft⟩, hread, h⟩ := bind_eq_ok_iff.mp h
  obtain ⟨hleft, hread_left⟩ := decodeChild_extend hpath hread more
  obtain ⟨⟨right, afterRight⟩, hread, h⟩ := bind_eq_ok_iff.mp h
  obtain ⟨hright, hread_right⟩ := decodeChild_extend hleft hread more
  obtain ⟨⟨size, afterSize⟩, hread, h⟩ := bind_eq_ok_iff.mp h
  obtain ⟨hsize, hread_size⟩ := readSize_extend hright hread more
  cases h
  refine ⟨⟨rfl, rfl, hsize⟩, ?_⟩
  simp only [(hfirst.extend more).byteField, liftM_field_ok, ok_bind, hread_path, hread_left,
    hread_right, hread_size, pure_eq_ok]

end Front

section Value

variable {label result : Label}

/-- A value in full goes on. -/
theorem decodeValue_append_of_inline (hvalue : label.value = none)
    (hoffset : offset ≤ message.length) (htail : tail ≠ [])
    (h : decodeValue store message false offset label = .ok result) :
    decodeValue store (message ++ tail) false offset label = .ok (result.extend tail) := by
  cases h
  rw [Label.extend_withInlineValue hvalue _ htail, ← List.drop_append_of_le_length hoffset]
  rfl

/-- A hash and a length have to end the message. -/
theorem decodeValue_append_of_long (htail : tail ≠ [])
    (h : decodeValue store message true offset label = .ok result) :
    decodeValue store (message ++ tail) true offset label =
      .error (.lengthMismatch (message ++ tail).length) := by
  unfold decodeValue at h ⊢
  rw [if_pos rfl] at h ⊢
  obtain ⟨hash, hhash, h⟩ := bind_eq_ok_iff.mp h
  obtain ⟨length, hlength, -⟩ := bind_eq_ok_iff.mp h
  rw [liftM_field_eq_ok_iff] at hhash hlength
  obtain ⟨digits, hdigits, hthree, hvalue⟩ := Uint24.decode_eq_ok_iff.mp hlength
  have hlength_read := Uint24.decode_eq_ok_iff.mpr
    ⟨digits, hdigits.extend tail, hthree, hvalue⟩
  -- the length ends at 35 bytes, within what was there before
  have hend : offset + 35 < (message ++ tail).length := by
    have hle := hdigits.le_length
    have hpos := List.length_pos_iff.mpr htail
    rw [List.length_append]
    omega
  rw [field_extend hhash, liftM_field_ok, ok_bind, hlength_read, liftM_field_ok, ok_bind,
    if_pos hend]
  rfl

theorem isLong_of_decodeValue {isLong : Bool} (hhash : label.valueHash = none)
    (h : decodeValue store message isLong offset label = .ok result) : result.isLong = isLong := by
  cases isLong with
  | false =>
    cases h
    rw [Label.isLong, Label.valueHash_withInlineValue, hhash]
    rfl
  | true =>
    unfold decodeValue at h
    rw [if_pos rfl] at h
    obtain ⟨hash, -, h⟩ := bind_eq_ok_iff.mp h
    obtain ⟨length, -, h⟩ := bind_eq_ok_iff.mp h
    split at h
    · cases h
    · cases h
      rfl

end Value

theorem decode_append (h : decode store message = .ok node) (htail : tail ≠ []) :
    decode store (message ++ tail) =
      if node.isLong then .error (.lengthMismatch (message ++ tail).length)
      else .ok (node.extend tail) := by
  rw [decode_eq_readFront] at h ⊢
  obtain ⟨⟨front, isLong, offset⟩, hfront, h⟩ := bind_eq_ok_iff.mp h
  obtain ⟨label, hlabel, h⟩ := bind_eq_ok_iff.mp h
  cases h
  obtain ⟨⟨hvalue, hhash, hoffset⟩, hread⟩ := readFront_extend hfront tail
  have hlong : label.isLong = isLong := isLong_of_decodeValue hhash hlabel
  rw [hread, ok_bind, hlong]
  cases isLong with
  | false =>
    rw [decodeValue_append_of_inline hvalue hoffset htail hlabel]
    rfl
  | true =>
    rw [decodeValue_append_of_long htail hlabel]
    rfl

end Rskip107

namespace Orchid

/-- Parts with bytes at their end. -/
def Parts.extend (parts : Parts) (more : Bytes) : Parts :=
  { parts with
    tail := parts.tail ++ more
    hash_le := fun hlong => by
      have hle := parts.hash_le hlong
      rw [List.length_append]
      omega }

theorem Parts.bytes_extend (parts : Parts) (more : Bytes) :
    (parts.extend more).bytes = parts.bytes ++ more := by
  simp [bytes, extend]

/-- Nothing but the hash is read of a long value. -/
theorem tailLabel_append {isLong : Bool} {path : BitPath} {rest : Bytes} (htail : tail ≠ [])
    (hrest : isLong → 32 ≤ rest.length) :
    tailLabel store path isLong (rest ++ tail) =
      if isLong then tailLabel store path isLong rest
      else (tailLabel store path isLong rest).extend tail := by
  cases isLong with
  | false => exact (Label.extend_withInlineValue rfl rest htail).symm
  | true =>
    have hhash : FixedBytes.takeFrom 32 (rest ++ tail) = FixedBytes.takeFrom 32 rest := by
      rw [← takeFrom_take, List.take_append_of_le_length (hrest rfl), takeFrom_take]
    simp only [tailLabel, if_true, hhash]

theorem Parts.node_extend (parts : Parts) (htail : tail ≠ []) :
    (parts.extend tail).node store =
      if parts.isLong then parts.node store else (parts.node store).extend tail := by
  have hle : parts.isLong → 32 ≤ parts.tail.length := parts.hash_le
  change (⟨tailLabel store parts.path parts.isLong (parts.tail ++ tail), _, _⟩ : Node) = _
  rw [tailLabel_append htail hle]
  split <;> rfl

theorem decode_append (h : decode store message = .ok node) (htail : tail ≠ []) :
    decode store (message ++ tail) =
      if node.isLong then .ok node else .ok (node.extend tail) := by
  obtain ⟨parts, rfl, rfl⟩ := (decode_eq_ok_iff store message node).mp h
  rw [← parts.bytes_extend, decode_bytes, parts.node_extend htail, parts.isLong_node]
  split <;> rfl

end Orchid

theorem Node.ofMessage_append (htail : tail ≠ []) (h : ofMessage store message = .ok node) :
    ofMessage store (message ++ tail) =
      if node.isLong then
        if message.head? = some Orchid.arity then .ok node
        else .error (.lengthMismatch (message ++ tail).length)
      else .ok (node.extend tail) := by
  cases message with
  | nil => cases h
  | cons first rest =>
    rw [List.cons_append, ofMessage]
    rw [ofMessage] at h
    by_cases harity : first = Orchid.arity
    · rw [if_pos harity] at h ⊢
      rw [← List.cons_append, Orchid.decode_append h htail, List.head?_cons, harity, if_pos rfl]
    · have hhead : (first :: rest).head? ≠ some Orchid.arity := by simpa using harity
      rw [if_neg harity] at h ⊢
      rw [← List.cons_append, Rskip107.decode_append h htail, if_neg hhead]

/-- After a message that is read, further bytes make another node or an error, with one exception: a
message of the older layout with a long value is read as the same node whatever stands behind it. A value
in full goes on into them. -/
theorem Node.ofMessage_append_eq_iff (htail : tail ≠ []) (h : ofMessage store message = .ok node) :
    (ofMessage store (message ++ tail) = .ok node ↔
        message.head? = some Orchid.arity ∧ node.isLong) ∧
      (message.head? ≠ some Orchid.arity → node.isLong →
        ofMessage store (message ++ tail) = .error (.lengthMismatch (message ++ tail).length)) ∧
      (¬ node.isLong → ofMessage store (message ++ tail) = .ok (node.extend tail)) := by
  have happend := ofMessage_append htail h
  by_cases hlong : node.isLong
  · rw [if_pos hlong] at happend
    by_cases harity : message.head? = some Orchid.arity
    · rw [if_pos harity] at happend
      exact ⟨iff_of_true happend ⟨harity, hlong⟩, fun hne => absurd harity hne,
        fun hshort => absurd hlong hshort⟩
    · rw [if_neg harity] at happend
      refine ⟨?_, fun _ _ => happend, fun hshort => absurd hlong hshort⟩
      rw [happend]
      exact iff_of_false nofun fun hopen => harity hopen.1
  · rw [if_neg hlong] at happend
    refine ⟨?_, fun _ hlong' => absurd hlong' hlong, fun _ => happend⟩
    rw [happend, Except.ok.injEq]
    exact iff_of_false (node.extend_ne htail) fun hopen => hlong hopen.2

/-- A leaf of the older layout with a long value. -/
def openMessage : Bytes :=
  [2, 2, 0, 0, 0, 0] ++ List.replicate 32 7

/-- The same leaf in the current layout. -/
def closedMessage : Bytes :=
  [0x60] ++ List.replicate 32 7 ++ [0, 0, 33]

def openNode : Node :=
  { valueHash := some (.takeFrom 32 (List.replicate 32 7)) }

def closedNode : Node :=
  { openNode with valueLength := 33 }

theorem Node.ofMessage_append_eq_iff_sample :
    (ofMessage .none openMessage = .ok openNode ∧
        ofMessage .none (openMessage ++ [1]) = .ok openNode) ∧
      ofMessage .none closedMessage = .ok closedNode ∧
        ofMessage .none (closedMessage ++ [1]) = .error (.lengthMismatch 37) := by
  have hopen : ofMessage .none openMessage = .ok openNode := by decide +kernel
  have hclosed : ofMessage .none closedMessage = .ok closedNode := by decide +kernel
  have htail : ([1] : Bytes) ≠ [] := List.cons_ne_nil _ _
  obtain ⟨hsame, -, -⟩ := ofMessage_append_eq_iff htail hopen
  obtain ⟨-, herror, -⟩ := ofMessage_append_eq_iff htail hclosed
  exact ⟨⟨hopen, hsame.mpr ⟨rfl, rfl⟩⟩, hclosed, herror (by decide) rfl⟩

/-- A byte after the hash of a long value does not show. -/
theorem Node.ofMessage_append_openMessage :
    ofMessage .none openMessage = .ok openNode ∧ ([1] : Bytes) ≠ [] ∧
      ofMessage .none (openMessage ++ [1]) = .ok openNode := by
  decide +kernel

end Trie

end BlockAudit
