import BlockAudit.Proofs.Trie.Parse
import BlockAudit.Proofs.Trie.RoundTrip

/-!
Messages that denote a node, and the one that is written for it. What a reader lets pass, numbers and paths
spelled longer than they have to be and bits that are not looked at, is gone after it is written again, and
nothing changes after that.
-/
namespace BlockAudit

namespace Trie

theorem Node.isTerminal_eq (node : Node) :
    node.isTerminal = (node.left.isAbsent && node.right.isAbsent) := by
  unfold isTerminal
  cases node.left <;> cases node.right <;> rfl

namespace Rskip107

variable {store : ValueStore} {present inlined isLong : Bool} {bytes message : Bytes}

theorem PathPart.length_path_le {path : BitPath} (h : PathPart present bytes path) :
    path.length ≤ SharedPath.maxLength := by
  cases h with
  | absent => exact Nat.zero_le _
  | present h =>
    obtain ⟨form, packed, -, hform, -⟩ := h.exists_parts
    exact hform.length_le

/-- A path is written in no more bytes than it was read from. -/
theorem PathPart.length_encode_le {path : BitPath} (h : PathPart present bytes path) :
    (SharedPath.encode path).length ≤ bytes.length := by
  cases h with
  | absent => exact Nat.le_refl 0
  | present h => exact h.length_encode_le

theorem SizePart.isNone_eq {below : Option UInt64} (h : SizePart present bytes below) :
    below.isNone = !present := by
  cases h <;> rfl

theorem ChildPart.isAbsent_eq {child : Child} (h : ChildPart store present inlined bytes child) :
    child.isAbsent = !present := by
  cases h <;> rfl

/-- What stands for a child in memory is a message that denotes it, after a byte. -/
theorem ChildPart.exists_inside {child : Child} {node : Node}
    (h : ChildPart store present inlined bytes child) (hchild : child = node.toChild) :
    ∃ declared inside, bytes = declared :: inside ∧ Denotes store inside node := by
  cases h with
  | absent => cases hchild
  | hashed => cases hchild
  | @inMemory declared inside node' hlength hdenotes =>
    obtain ⟨label, left, right⟩ := node
    obtain ⟨label', left', right'⟩ := node'
    cases hchild
    exact ⟨declared, inside, rfl, hdenotes⟩

section Value

variable {bits : BitPath} {below : Option UInt64} {label : Label}

/-- The other fields of the label are left alone. -/
theorem ValuePart.fields_eq
    (h : ValuePart store { path := bits, childrenSize := below } isLong bytes label) :
    label.path = bits ∧ label.childrenSize = below := by
  cases h <;> exact ⟨rfl, rfl⟩

/-- Three bytes are a number of 24 bits, which a label has room for. -/
theorem toNat_ofNat_ofBigEndian {digits : Bytes} (h : digits.length = 3) :
    (UInt32.ofNat (ofBigEndian digits)).toNat = ofBigEndian digits ∧
      ofBigEndian digits ≤ Uint24.max := by
  have hlt := ofBigEndian_lt digits
  rw [h] at hlt
  have hmax : Uint24.max = 16777215 := rfl
  rw [UInt32.toNat_ofNat', Nat.mod_eq_of_lt (by omega)]
  exact ⟨rfl, by omega⟩

/-- The value is written as it was read. -/
theorem ValuePart.valueBytes_eq
    (h : ValuePart store { path := bits, childrenSize := below } isLong bytes label) :
    label.valueBytes = bytes := by
  cases h with
  | none => rfl
  | inline hne => rfl
  | @long hash digits hthree =>
    obtain ⟨hlength, -⟩ := toNat_ofNat_ofBigEndian hthree
    have hdigits := bigEndianFixed_ofBigEndian digits
    rw [hthree] at hdigits
    rw [Label.valueBytes, hlength, Uint24.bytes, Uint24.size, hdigits]

theorem ValuePart.regular
    (h : ValuePart store { path := bits, childrenSize := below } isLong bytes label) :
    label.Regular := by
  cases h with
  | none => exact ⟨fun _ => .inl ⟨rfl, rfl⟩, nofun⟩
  | inline hne => exact ⟨fun _ => .inr ⟨bytes, hne, rfl, rfl⟩, nofun⟩
  | @long hash digits hthree =>
    obtain ⟨hlength, hmax⟩ := toNat_ofNat_ofBigEndian hthree
    exact ⟨nofun, fun _ => Nat.le_trans (Nat.le_of_eq hlength) hmax⟩

/-- What the store says about a long value is asked again with the same answer. -/
theorem ValuePart.readBack_eq
    (h : ValuePart store { path := bits, childrenSize := below } isLong bytes label) :
    label.readBack store = label := by
  cases h <;> rfl

end Value

theorem Denotes.readBack_label {node : Node} (h : Denotes store message node) :
    node.toLabel.readBack store = node.toLabel := by
  cases h with
  | parts hflags hpath hleft hright hsize hvalue => exact hvalue.readBack_eq

theorem Denotes.length_path_le {node : Node} (h : Denotes store message node) :
    node.path.length ≤ SharedPath.maxLength := by
  cases h with
  | parts hflags hpath hleft hright hsize hvalue =>
    rw [hvalue.fields_eq.1]
    exact hpath.length_path_le

mutual

theorem ChildPart.regular {present inlined : Bool} {bytes : Bytes} {child : Child} :
    ChildPart store present inlined bytes child → child.Regular
  | .absent => trivial
  | .hashed => trivial
  | .inMemory _ h => h.regular

/-- The fields of a node that a message denotes fit together, and so do those of the nodes inside. -/
theorem Denotes.regular {message : Bytes} {node : Node} : Denotes store message node → node.Regular
  | .parts hflags hpath hleft hright hsize hvalue => by
    refine ⟨hvalue.regular, ?_, hleft.regular, hright.regular⟩
    rw [hvalue.fields_eq.2, hsize.isNone_eq, Node.isTerminal_eq, hleft.isAbsent_eq, hright.isAbsent_eq,
      Bool.not_or]

end

/-- A node without children is written in no more bytes than it was read from. -/
theorem Denotes.length_message_le {node : Node} (h : Denotes store message node)
    (hterminal : node.isTerminal) : node.message.length ≤ message.length := by
  obtain ⟨hl, hr⟩ := Node.isTerminal_iff.mp hterminal
  have hslots : node.left.written.slot.bytes = [] ∧ node.right.written.slot.bytes = [] := by
    rw [hl, hr]
    exact ⟨rfl, rfl⟩
  have hsize : node.sizeBytes = [] := if_pos hterminal
  rw [node.message_eq, hslots.1, hslots.2, hsize]
  cases h with
  | parts hflags hpath hleft hright hbelow hvalue =>
    have hle := hpath.length_encode_le
    rw [← hvalue.fields_eq.1] at hle
    rw [hvalue.valueBytes_eq]
    simp only [List.length_cons, List.length_append, List.length_nil]
    omega

/-- A message in which `inside` stands inline for `child`, on the side that the bit selects. -/
inductive Inlines (store : ValueStore) : Bytes → Bool → Bytes → Node → Prop where
  | parts {first : UInt8} {flags : Flags} {path size value : Bytes} {bits : BitPath}
      {below : Option UInt64} {label : Label} {bit : Bool} {declared : UInt8} {inside : Bytes}
      {child : Node} (sides : Bool → Bytes) (children : Bool → Child)
      (hflags : first.toNat % 64 = flags.number)
      (hpath : PathPart flags.sharedPath path bits)
      (hleft : ChildPart store flags.leftPresent flags.leftInline (sides false) (children false))
      (hright : ChildPart store flags.rightPresent flags.rightInline (sides true) (children true))
      (hsize : SizePart (flags.leftPresent || flags.rightPresent) size below)
      (hvalue : ValuePart store { path := bits, childrenSize := below } flags.longValue value label)
      (hside : sides bit = declared :: inside) (hchild : children bit = child.toChild) :
      Inlines store (first :: (path ++ (sides false ++ (sides true ++ (size ++ value))))) bit inside
        child

theorem Inlines.denotes {bit : Bool} {inside : Bytes} {child : Node}
    (h : Inlines store message bit inside child) :
    Denotes store inside child ∧
      ∃ node, Denotes store message node ∧ node.child bit = child.toChild := by
  obtain ⟨sides, children, hflags, hpath, hleft, hright, hsize, hvalue, hside, hchild⟩ := h
  have hinside : ∃ declared inside, sides bit = declared :: inside ∧ Denotes store inside child := by
    cases bit with
    | false => exact hleft.exists_inside hchild
    | true => exact hright.exists_inside hchild
  obtain ⟨_, _, hbytes, hinside⟩ := hinside
  rw [hside] at hbytes
  cases hbytes
  refine ⟨hinside, _, .parts hflags hpath hleft hright hsize hvalue, ?_⟩
  cases bit with
  | false => exact hchild
  | true => exact hchild

theorem Denotes.exists_inlines {node child : Node} {bit : Bool} (h : Denotes store message node)
    (hchild : node.child bit = child.toChild) :
    ∃ inside, Inlines store message bit inside child := by
  cases h with
  | @parts _ _ _ left right _ _ _ leftChild rightChild _ _ hflags hpath hleft hright hsize hvalue =>
    cases bit with
    | false =>
      obtain ⟨declared, inside, hside, -⟩ := hleft.exists_inside hchild
      exact ⟨inside, .parts (Bool.rec left right) (Bool.rec leftChild rightChild) hflags hpath hleft
        hright hsize hvalue hside hchild⟩
    | true =>
      obtain ⟨declared, inside, hside, -⟩ := hright.exists_inside hchild
      exact ⟨inside, .parts (Bool.rec left right) (Bool.rec leftChild rightChild) hflags hpath hleft
        hright hsize hvalue hside hchild⟩

end Rskip107

section Linked

theorem Child.isAbsent_linked (child : Child) : child.linked.isAbsent = child.isAbsent := by
  cases child with
  | absent => rfl
  | hashed hash => rfl
  | inMemory label left right =>
    rw [linked]
    split <;> rfl

/-- A child appears in a message as what its parent's message knows of it. -/
theorem Child.slot_linked (child : Child) : child.linked.written.slot = child.written.slot := by
  cases child with
  | absent => rfl
  | hashed hash => rfl
  | inMemory label left right =>
    rw [linked]
    split
    case isTrue => rfl
    case isFalse hinline => rw [slot_inMemory, if_neg (mt isInline_inMemory.mpr hinline), written]

variable {node : Node}

theorem Node.isTerminal_linked (node : Node) : node.linked.isTerminal = node.isTerminal := by
  rw [isTerminal_eq, isTerminal_eq, linked]
  dsimp only
  rw [Child.isAbsent_linked, Child.isAbsent_linked]

theorem Node.flags_linked (node : Node) : node.linked.flags = node.flags := by
  unfold flags flagsWith linked
  dsimp only
  rw [Child.slot_linked, Child.slot_linked]

/-- A size that is recorded does not depend on the children. -/
theorem Node.sizeBytes_linked (hsize : node.childrenSize.isNone = node.isTerminal) :
    node.linked.sizeBytes = node.sizeBytes := by
  unfold sizeBytes
  rw [isTerminal_linked]
  by_cases hterminal : node.isTerminal
  · rw [if_pos hterminal, if_pos hterminal]
  · have hsome : node.childrenSize ≠ none := by
      rw [ne_eq, ← Option.isNone_iff_eq_none, hsize]
      exact hterminal
    obtain ⟨size, hsize⟩ := Option.ne_none_iff_exists'.mp hsome
    have hsize_linked : node.linked.childrenSize = some size := hsize
    rw [if_neg hterminal, if_neg hterminal, sizeBelow, sizeBelow, sizeBelowWith, sizeBelowWith,
      isTerminal_linked, if_neg hterminal, if_neg hterminal, hsize, hsize_linked]

theorem Node.message_linked (hsize : node.childrenSize.isNone = node.isTerminal) :
    node.linked.message = node.message := by
  rw [message_eq, message_eq, flags_linked, sizeBytes_linked hsize, linked]
  dsimp only
  rw [Child.slot_linked, Child.slot_linked]

end Linked

namespace Rskip107

variable {store : ValueStore} {message : Bytes} {node : Node}

theorem ChildPart.readBack_eq {present inlined : Bool} {bytes : Bytes} {child : Child}
    (h : ChildPart store present inlined bytes child) : child.readBack store = child.linked := by
  cases h with
  | absent => rfl
  | hashed => rfl
  | inMemory hlength h =>
    rw [Node.toChild, Child.readBack, Child.linked, h.readBack_label]

theorem Denotes.readBack_eq (h : Denotes store message node) :
    node.readBack store = node.linked := by
  rw [Node.readBack, Node.linked, h.readBack_label]
  cases h with
  | parts hflags hpath hleft hright hsize hvalue => rw [hleft.readBack_eq, hright.readBack_eq]

/-- What is written for a node that was read is read as the same node, with larger children replaced by
their hashes, and written for it again. A child that stays inline takes no more bytes than the message
inside that it was read from. -/
theorem decode_message_of_decode (h : decode store message = .ok node) :
    decode store node.message = .ok node.linked ∧ node.linked.message = node.message ∧
      ∀ bit child,
        (node.child bit = child.toChild ↔ ∃ inside, Inlines store message bit inside child) ∧
          ∀ inside, Inlines store message bit inside child → child.toChild.isInline →
            child.message.length ≤ inside.length := by
  have hdenotes := decode_eq_ok_iff.mp h
  have hregular := hdenotes.regular
  have hpath := hdenotes.length_path_le
  have hmax : SharedPath.maxLength = 524280 := rfl
  refine ⟨?_, Node.message_linked hregular.2.1, fun bit child => ⟨⟨hdenotes.exists_inlines, ?_⟩, ?_⟩⟩
  · rw [decode_message store hregular (by omega), if_pos hpath, hdenotes.readBack_eq]
  · rintro ⟨inside, hinlines⟩
    obtain ⟨-, node', hdenotes', hchild⟩ := hinlines.denotes
    obtain rfl : node' = node := by
      have hdecode := decode_eq_ok_iff.mpr hdenotes'
      rw [h] at hdecode
      exact (Except.ok.inj hdecode).symm
    exact hchild
  · intro inside hinlines hinline
    obtain ⟨hterminal, -⟩ := Child.isInline_inMemory.mp hinline
    exact hinlines.denotes.1.length_message_le hterminal

/-- A leaf whose path is announced after the marker, though it has a single bit. -/
def redundantLeaf : Node :=
  ⟨{ path := [true], value := some [7], valueLength := 1 }, .absent, .absent⟩

/-- A branch over that leaf and over a branch, which does not stay inline. -/
def redundantBranch : Node :=
  ⟨{ path := [true, false, true], value := some [9], valueLength := 1, childrenSize := some 5 },
    redundantLeaf.toChild, .inMemory { childrenSize := some 0 } (.inMemory {} .absent .absent) .absent⟩

/-- A message with all that is not looked at: other version bits, flags of children that are not there,
bits behind a path, and numbers that are wider than they have to be. -/
def redundantMessage : Bytes :=
  [0xdf, 0xff, 0xfd, 3, 0, 0xbf] ++ [5, 0xd3, 0xff, 1, 0xff, 7] ++ [4, 0x4a, 1, 0x40, 0] ++
    [0xfe, 5, 0, 0, 0] ++ [9]

theorem decode_message_of_decode_redundant :
    decode .none redundantMessage = .ok redundantBranch ∧
      decode .none redundantBranch.message = .ok redundantBranch.linked ∧
      redundantBranch.linked.message = redundantBranch.message ∧
      ∃ inside, Inlines .none redundantMessage false inside redundantLeaf ∧
        redundantLeaf.message.length ≤ inside.length := by
  have hread : decode .none redundantMessage = .ok redundantBranch := by decide +kernel
  have hinline : redundantLeaf.toChild.isInline := by decide +kernel
  obtain ⟨hagain, hmessage, hchildren⟩ := decode_message_of_decode hread
  obtain ⟨hfound, hlength⟩ := hchildren false redundantLeaf
  obtain ⟨inside, hinside⟩ := hfound.mp rfl
  exact ⟨hread, hagain, hmessage, inside, hinside, hlength inside hinside hinline⟩

end Rskip107

end Trie

end BlockAudit
