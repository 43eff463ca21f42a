import BlockAudit.Proofs.Trie.OrchidInjective
import BlockAudit.Proofs.Trie.Parse
import BlockAudit.Trie.Layout

/-!
The messages of the older layout, said without the reader: which parts they have, and which node the parts
denote. The reader accepts these messages and nothing else. One bit of the flags, the bits that fill up the
last byte of the path and the bytes after the hash of a long value are free.
-/
namespace BlockAudit.Trie

/-- A child that is there if its hash is. -/
def Child.ofLink (link : Option Hash) : Child :=
  link.elim .absent .hashed

namespace Orchid

/-- What follows the children, as a value: by the hash at its front if it is long, else in full. -/
def tailLabel (store : ValueStore) (path : BitPath) (isLong : Bool) (tail : Bytes) : Label :=
  if isLong then
    let hash := FixedBytes.takeFrom 32 tail
    let value := store hash
    { path, value, valueLength := .ofNat (value.getD []).length, valueHash := some hash }
  else Label.withInlineValue { path } tail

section TailLabel

variable (store : ValueStore) (path : BitPath) (isLong : Bool) (tail : Bytes)

theorem path_tailLabel : (tailLabel store path isLong tail).path = path := by
  unfold tailLabel Label.withInlineValue
  split
  · rfl
  · split <;> rfl

theorem isLong_tailLabel : (tailLabel store path isLong tail).isLong = isLong := by
  unfold tailLabel Label.withInlineValue
  cases isLong
  · rw [if_neg Bool.false_ne_true]
    split <;> rfl
  · rfl

/-- What is written of the value. -/
theorem valueLink_tailLabel :
    (tailLabel store path isLong tail).valueLink =
      if isLong then (FixedBytes.takeFrom 32 tail).toBytes else tail := by
  unfold tailLabel Label.withInlineValue
  cases isLong
  · rw [if_neg Bool.false_ne_true, if_neg Bool.false_ne_true]
    split
    · rename_i hempty
      exact (List.isEmpty_iff.mp hempty).symm
    · rfl
  · rfl

end TailLabel

/-- The parts of a message that do not follow from others. -/
structure Parts where
  flags : UInt8
  /-- The length of the path in bits. -/
  length : Nat
  packed : Bytes
  left : Option Hash
  right : Option Hash
  /-- What follows the children. -/
  tail : Bytes
  known : flags &&& ~~~(secureFlag ||| longValueFlag) = 0
  length_lt : length < 2 ^ 16
  length_packed : packed.length = BitPath.packedLength length
  hash_le : flags &&& longValueFlag != 0 → 32 ≤ tail.length

namespace Parts

variable (parts : Parts)

def isLong : Bool :=
  parts.flags &&& longValueFlag != 0

def path : BitPath :=
  (BitPath.ofBytes parts.packed).take parts.length

def bytes : Bytes :=
  arity :: parts.flags :: (bigEndianFixed 2 (presence parts.left parts.right) ++
    (bigEndianFixed 2 parts.length ++ (parts.packed ++ (linkBytes parts.left ++
      (linkBytes parts.right ++ parts.tail)))))

def node (store : ValueStore) : Node :=
  ⟨tailLabel store parts.path parts.isLong parts.tail, .ofLink parts.left, .ofLink parts.right⟩

theorem length_bytes :
    parts.bytes.length = 6 + parts.packed.length + (linkBytes parts.left).length +
      (linkBytes parts.right).length + parts.tail.length := by
  simp only [bytes, List.length_cons, List.length_append, length_bigEndianFixed]
  omega

theorem length_path : parts.path.length = parts.length := by
  rw [path, List.length_take, BitPath.length_ofBytes, parts.length_packed, BitPath.packedLength]
  omega

theorem path_node (store : ValueStore) : (parts.node store).path = parts.path :=
  path_tailLabel store parts.path parts.isLong parts.tail

theorem isLong_node (store : ValueStore) : (parts.node store).isLong = parts.isLong :=
  isLong_tailLabel store parts.path parts.isLong parts.tail

/-- Where the parts stand in their message. -/
theorem standsAt_bytes :
    (StandsAt [arity] parts.bytes 0 ∧ StandsAt [parts.flags] parts.bytes 1) ∧
      (StandsAt (bigEndianFixed 2 (presence parts.left parts.right)) parts.bytes 2 ∧
        StandsAt (bigEndianFixed 2 parts.length) parts.bytes 4 ∧
        StandsAt parts.packed parts.bytes 6) ∧
      StandsAt (linkBytes parts.left) parts.bytes (6 + parts.packed.length) ∧
      StandsAt (linkBytes parts.right) parts.bytes
        (6 + parts.packed.length + (linkBytes parts.left).length) ∧
      StandsAt parts.tail parts.bytes (6 + parts.packed.length + (linkBytes parts.left).length +
        (linkBytes parts.right).length) := by
  have hmessage : StandsAt parts.bytes parts.bytes 0 := standsAt_self _
  nth_rewrite 1 [bytes] at hmessage
  obtain ⟨harity, hmessage⟩ := hmessage.cons
  obtain ⟨hflags, hmessage⟩ := hmessage.cons
  obtain ⟨hpresent, hmessage⟩ := hmessage.append
  obtain ⟨hlength, hmessage⟩ := hmessage.append
  obtain ⟨hpacked, hmessage⟩ := hmessage.append
  obtain ⟨hleft, hmessage⟩ := hmessage.append
  obtain ⟨hright, htail⟩ := hmessage.append
  simp only [length_bigEndianFixed, Nat.zero_add, Nat.reduceAdd] at hflags hpresent hlength
  simp only [length_bigEndianFixed, Nat.zero_add, Nat.reduceAdd] at hpacked hleft hright htail
  exact ⟨⟨harity, hflags⟩, ⟨hpresent, hlength, hpacked⟩, hleft, hright, htail⟩

end Parts

variable {message : Bytes} {offset next : Nat} {store : ValueStore}

theorem presence_le (left right : Option Hash) : presence left right ≤ 3 := by
  unfold presence
  split <;> split <;> omega

theorem testBit_presence (left right : Option Hash) :
    (presence left right).testBit 0 = left.isSome ∧
      (presence left right).testBit 1 = right.isSome := by
  cases left <;> cases right <;> simp [presence, Nat.testBit]

theorem presence_of_testBit {present : Nat} {left right : Option Hash} (hle : present ≤ 3)
    (hleft : left.isSome = present.testBit 0) (hright : right.isSome = present.testBit 1) :
    presence left right = present := by
  unfold presence
  rw [hleft, hright]
  have hcases : present = 0 ∨ present = 1 ∨ present = 2 ∨ present = 3 := by omega
  rcases hcases with rfl | rfl | rfl | rfl <;> rfl

/-- A child is read where its hash stands, and ends with it. -/
theorem decodeChild_eq_ok_iff {present : Bool} {child : Child} (hoffset : offset ≤ message.length) :
    decodeChild message present offset = .ok (child, next) ↔
      ∃ link, link.isSome = present ∧ child = .ofLink link ∧
        StandsAt (linkBytes link) message offset ∧ next = offset + (linkBytes link).length := by
  unfold decodeChild
  constructor
  · intro h
    split at h
    · rename_i hpresent
      obtain ⟨hash, hhash, h⟩ := bind_eq_ok_iff.mp h
      rw [liftM_field_eq_ok_iff, field_eq_ok_iff] at hhash
      obtain ⟨hstands, hlen⟩ := hhash
      cases h
      have hbytes : linkBytes (some (FixedBytes.takeFrom 32 hash)) = hash := by
        simp [linkBytes, FixedBytes.toBytes_takeFrom hlen]
      refine ⟨some (.takeFrom 32 hash), hpresent.symm, rfl, ?_, ?_⟩
      · rwa [hbytes]
      · rw [hbytes, hlen]
    · rename_i hpresent
      cases h
      exact ⟨none, by simpa using hpresent, rfl, standsAt_nil hoffset, rfl⟩
  · rintro ⟨link, rfl, rfl, hstands, rfl⟩
    cases link with
    | none => rfl
    | some hash =>
      have hbytes : linkBytes (some hash) = hash.toBytes := by simp [linkBytes]
      rw [hbytes] at hstands ⊢
      simp only [Option.isSome_some, if_true, field_hash hstands, liftM_field_ok, ok_bind,
        takeFrom_toBytes, pure_eq_ok, hash.length_toBytes]
      rfl

/-- The rest of a message is read as its value. -/
theorem decodeValue_eq_ok_iff {isLong : Bool} {path : BitPath} {label : Label}
    (hoffset : offset ≤ message.length) :
    decodeValue store message isLong offset { path } = .ok label ↔
      ∃ tail, (isLong → 32 ≤ tail.length) ∧ label = tailLabel store path isLong tail ∧
        StandsAt tail message offset ∧ message.length = offset + tail.length := by
  have hrest := standsAt_drop hoffset
  have hlength : message.length = offset + (message.drop offset).length := by
    rw [List.length_drop]
    omega
  unfold decodeValue tailLabel
  cases isLong with
  | false =>
    rw [if_neg Bool.false_ne_true, pure_eq_ok, Except.ok.injEq]
    constructor
    · rintro rfl
      exact ⟨message.drop offset, by simp, rfl, hrest, hlength⟩
    · rintro ⟨tail, -, rfl, hstands, hend⟩
      rw [hstands.drop hend]
      rfl
  | true =>
    rw [if_pos rfl]
    constructor
    · intro h
      obtain ⟨hash, hhash, h⟩ := bind_eq_ok_iff.mp h
      rw [liftM_field_eq_ok_iff] at hhash
      obtain ⟨-, hle⟩ := length_of_field hhash
      rw [field, if_pos hle, Except.ok.injEq] at hhash
      subst hhash
      cases h
      refine ⟨message.drop offset, fun _ => by omega, ?_, hrest, hlength⟩
      rw [takeFrom_take]
      rfl
    · rintro ⟨tail, hle, rfl, hstands, hend⟩
      have hle := hle rfl
      have hfield : field message offset 32 = .ok (tail.take 32) := by
        rw [field, if_pos (by omega), hstands.drop hend]
      rw [hfield, liftM_field_ok, ok_bind, takeFrom_take]
      rfl

/-- Reads what comes after the six bytes at the front of a message. -/
def decodeBody (store : ValueStore) (message : Bytes) (isLong : Bool) (present length : Nat) :
    Except DecodeError Node := do
  let packed ← field message 6 (BitPath.packedLength length)
  let path ← BitPath.ofPacked packed length
  let (left, offset) ← decodeChild message (present.testBit 0) (6 + packed.length)
  let (right, offset) ← decodeChild message (present.testBit 1) offset
  let label ← decodeValue store message isLong offset { path }
  return ⟨label, left, right⟩

private theorem exists_head_of_decode {node : Node} (h : decode store message = .ok node) :
    ∃ flags present length,
      (StandsAt [arity] message 0 ∧ StandsAt [flags] message 1 ∧
        StandsAt (bigEndianFixed 2 present) message 2 ∧
        StandsAt (bigEndianFixed 2 length) message 4) ∧
      (flags &&& ~~~(secureFlag ||| longValueFlag) = 0 ∧ present ≤ 3 ∧ length < 2 ^ 16) ∧
      decodeBody store message (flags &&& longValueFlag != 0) present length = .ok node := by
  unfold decode at h
  obtain ⟨first, hfirst, h⟩ := bind_eq_ok_iff.mp h
  rw [liftM_field_eq_ok_iff, byteField_eq_ok_iff] at hfirst
  split at h
  · cases h
  rename_i harity
  obtain ⟨flags, hflags, h⟩ := bind_eq_ok_iff.mp h
  rw [liftM_field_eq_ok_iff, byteField_eq_ok_iff] at hflags
  split at h
  · cases h
  rename_i hknown
  obtain ⟨_, hpresent, h⟩ := bind_eq_ok_iff.mp h
  rw [liftM_field_eq_ok_iff, field_bigEndianFixed_iff] at hpresent
  obtain ⟨present, hpresent_lt, rfl, hpresent⟩ := hpresent
  rw [ofBigEndian_bigEndianFixed, Nat.mod_eq_of_lt hpresent_lt] at h
  dsimp only at h
  split at h
  · cases h
  rename_i hle
  obtain ⟨_, hlength, h⟩ := bind_eq_ok_iff.mp h
  rw [liftM_field_eq_ok_iff, field_bigEndianFixed_iff] at hlength
  obtain ⟨length, hlength_lt, rfl, hlength⟩ := hlength
  rw [ofBigEndian_bigEndianFixed, Nat.mod_eq_of_lt hlength_lt] at h
  obtain rfl : first = arity := not_not.mp harity
  exact ⟨flags, present, length, ⟨hfirst, hflags, hpresent, hlength⟩,
    ⟨not_not.mp hknown, Nat.not_lt.mp hle, hlength_lt⟩, h⟩

/-- What is read as a node has parts that denote the node. -/
theorem exists_parts_of_decode {node : Node} (h : decode store message = .ok node) :
    ∃ parts : Parts, message = parts.bytes ∧ node = parts.node store := by
  obtain ⟨flags, present, length, ⟨harity, hflags, hpresent, hlength⟩, ⟨hknown, hle, hlt⟩, h⟩ :=
    exists_head_of_decode h
  unfold decodeBody at h
  obtain ⟨packed, hpacked, h⟩ := bind_eq_ok_iff.mp h
  rw [liftM_field_eq_ok_iff, field_eq_ok_iff] at hpacked
  obtain ⟨hpacked, hpacked_length⟩ := hpacked
  obtain ⟨path, hpath, h⟩ := bind_eq_ok_iff.mp h
  rw [liftM_bitPath_eq_ok_iff, BitPath.ofPacked_eq_ok_iff] at hpath
  obtain ⟨-, rfl⟩ := hpath
  obtain ⟨⟨leftChild, _⟩, hread, h⟩ := bind_eq_ok_iff.mp h
  obtain ⟨left, hleft_some, rfl, hleft, rfl⟩ := (decodeChild_eq_ok_iff hpacked.le_length).mp hread
  obtain ⟨⟨rightChild, _⟩, hread, h⟩ := bind_eq_ok_iff.mp h
  obtain ⟨right, hright_some, rfl, hright, rfl⟩ := (decodeChild_eq_ok_iff hleft.le_length).mp hread
  obtain ⟨label, hread, h⟩ := bind_eq_ok_iff.mp h
  obtain ⟨tail, htail_le, rfl, htail, hend⟩ := (decodeValue_eq_ok_iff hright.le_length).mp hread
  cases h
  obtain rfl := presence_of_testBit hle hleft_some hright_some
  let parts : Parts :=
    { flags, length, packed, left, right, tail
      known := hknown
      length_lt := hlt
      length_packed := hpacked_length
      hash_le := htail_le }
  have hstands : StandsAt parts.bytes message 0 := by
    refine standsAt_cons_iff.mpr ⟨harity, standsAt_cons_iff.mpr ⟨hflags, ?_⟩⟩
    refine standsAt_append_iff.mpr ⟨hpresent, standsAt_append_iff.mpr ⟨?_, ?_⟩⟩
    · rwa [length_bigEndianFixed]
    · rw [length_bigEndianFixed, length_bigEndianFixed]
      exact standsAt_append_iff.mpr ⟨hpacked, standsAt_append_iff.mpr ⟨hleft,
        standsAt_append_iff.mpr ⟨hright, htail⟩⟩⟩
  have hbytes : message = parts.bytes :=
    (standsAt_zero_iff (hend.trans parts.length_bytes.symm)).mp hstands
  exact ⟨parts, hbytes, rfl⟩

/-- Parts are read as the node that they denote. -/
theorem decode_bytes (store : ValueStore) (parts : Parts) :
    decode store parts.bytes = .ok (parts.node store) := by
  have hlength := parts.length_bytes
  obtain ⟨⟨harity, hflags⟩, ⟨hpresent, hsize, hpacked⟩, hleft, hright, htail⟩ := parts.standsAt_bytes
  have hle := presence_le parts.left parts.right
  obtain ⟨hpresent, hpresent_value⟩ := field_bigEndianFixed (by omega) hpresent
  obtain ⟨hsize, hsize_value⟩ := field_bigEndianFixed parts.length_lt hsize
  have hpacked := hpacked.field
  rw [parts.length_packed] at hpacked
  have hpath : BitPath.ofPacked parts.packed parts.length = .ok parts.path :=
    BitPath.ofPacked_eq_ok_iff.mpr ⟨Nat.le_of_eq parts.length_packed.symm, rfl⟩
  obtain ⟨hleft_some, hright_some⟩ := testBit_presence parts.left parts.right
  have hleft := (decodeChild_eq_ok_iff (by omega)).mpr ⟨parts.left, rfl, rfl, hleft, rfl⟩
  have hright := (decodeChild_eq_ok_iff (by omega)).mpr ⟨parts.right, rfl, rfl, hright, rfl⟩
  have hlong : (parts.flags &&& longValueFlag != 0) = parts.isLong := rfl
  have hvalue : decodeValue store parts.bytes parts.isLong _ { path := parts.path } = .ok _ :=
    (decodeValue_eq_ok_iff (by omega)).mpr ⟨parts.tail, parts.hash_le, rfl, htail, by omega⟩
  simp only [decode, harity.byteField, hflags.byteField, liftM_field_ok, ok_bind, ne_eq,
    not_true_eq_false, if_false, parts.known, hpresent, hpresent_value, Nat.not_lt.mpr hle, hsize,
    hsize_value, hpacked, hpath, liftM_bitPath_ok, hleft_some, hleft, hright_some, hright, hlong,
    hvalue, gt_iff_lt]
  rfl

/-- A message is read as a node exactly if its parts denote that node. -/
theorem decode_eq_ok_iff (store : ValueStore) (message : Bytes) (node : Node) :
    decode store message = .ok node ↔
      ∃ parts : Parts, message = parts.bytes ∧ node = parts.node store := by
  constructor
  · exact exists_parts_of_decode
  · rintro ⟨parts, rfl, rfl⟩
    exact decode_bytes store parts

end Orchid

end BlockAudit.Trie
