import BlockAudit.Proofs.Trie.OrchidReadBack
import BlockAudit.Proofs.Trie.RoundTrip

/-!
Writer and reader of the older layout undo each other. A node made of parts is read back from its message,
and a message is written again from the node that it is read as, if nothing in it is free to be otherwise.
-/
namespace BlockAudit.Trie

namespace Orchid

/-- The length of the path, as a message announces it. -/
def announcedLength (message : Bytes) : Nat :=
  ofBigEndian ((message.drop 4).take 2)

/-- The bits of the bytes that hold the path. -/
def packedBits (message : Bytes) : BitPath :=
  BitPath.ofBytes ((message.drop 6).take (BitPath.packedLength (announcedLength message)))

/-- Where the children of a message end. -/
def childrenEnd (message : Bytes) : Nat :=
  let present := ofBigEndian ((message.drop 2).take 2)
  6 + BitPath.packedLength (announcedLength message) + 32 * (present.testBit 0).toNat +
    32 * (present.testBit 1).toNat

/-- Nothing in a message is free to be otherwise. -/
structure Tight (message : Bytes) : Prop where
  /-- The secure bit is clear. -/
  secure : ∀ flags ∈ message[1]?, flags &&& secureFlag = 0
  /-- The bits after the path are zero. -/
  padding : ∀ bit ∈ (packedBits message).drop (announcedLength message), bit = false
  /-- Nothing stands after the hash of a long value. -/
  ending : ∀ flags ∈ message[1]?, flags &&& longValueFlag != 0 →
    message.length = childrenEnd message + 32

variable {parts : Parts} {store : ValueStore}

theorem ofBigEndian_take_drop {message : Bytes} {offset size n : Nat} (hlt : n < 256 ^ size)
    (hb : StandsAt (bigEndianFixed size n) message offset) :
    ofBigEndian ((message.drop offset).take size) = n := by
  have htake := hb.take_drop
  rw [length_bigEndianFixed] at htake
  rw [htake, ofBigEndian_bigEndianFixed, Nat.mod_eq_of_lt hlt]

theorem announcedLength_bytes (parts : Parts) : announcedLength parts.bytes = parts.length := by
  obtain ⟨-, ⟨-, hlength, -⟩, -⟩ := parts.standsAt_bytes
  exact ofBigEndian_take_drop parts.length_lt hlength

theorem packedBits_bytes (parts : Parts) :
    packedBits parts.bytes = BitPath.ofBytes parts.packed := by
  obtain ⟨-, ⟨-, -, hpacked⟩, -⟩ := parts.standsAt_bytes
  rw [packedBits, announcedLength_bytes, ← parts.length_packed, hpacked.take_drop]

theorem childrenEnd_bytes (parts : Parts) :
    childrenEnd parts.bytes + parts.tail.length = parts.bytes.length := by
  obtain ⟨-, ⟨hpresent, -, -⟩, -⟩ := parts.standsAt_bytes
  have hle := presence_le parts.left parts.right
  obtain ⟨hleft, hright⟩ := testBit_presence parts.left parts.right
  rw [childrenEnd, ofBigEndian_take_drop (by omega) hpresent, announcedLength_bytes, hleft, hright,
    parts.length_bytes, parts.length_packed, length_linkBytes, length_linkBytes]

theorem tight_bytes_iff :
    Tight parts.bytes ↔
      parts.flags &&& secureFlag = 0 ∧
        (∀ bit ∈ (BitPath.ofBytes parts.packed).drop parts.length, bit = false) ∧
        (parts.isLong → parts.tail.length = 32) := by
  obtain ⟨⟨-, hflags⟩, -, -⟩ := parts.standsAt_bytes
  have hget := hflags.getElem?
  have hend := childrenEnd_bytes parts
  constructor
  · rintro ⟨hsecure, hpadding, hending⟩
    rw [announcedLength_bytes, packedBits_bytes] at hpadding
    refine ⟨hsecure _ hget, hpadding, fun hlong => ?_⟩
    have hlength := hending _ hget hlong
    omega
  · rintro ⟨hsecure, hpadding, hending⟩
    constructor
    · rw [hget]
      rintro _ ⟨⟩
      exact hsecure
    · rwa [announcedLength_bytes, packedBits_bytes]
    · rw [hget]
      rintro _ ⟨⟩ hlong
      have hlength := hending hlong
      omega

/-- What is written is tight. -/
theorem tight_orchidMessage {node : Node} (hlt : node.path.length < 2 ^ 16) :
    Tight node.orchidMessage := by
  rw [← bytes_ofNode hlt, tight_bytes_iff]
  refine ⟨?_, ?_, fun hlong => ?_⟩
  · change (if node.isLong then longValueFlag else 0) &&& secureFlag = 0
    split <;> decide
  · change ∀ bit ∈ (BitPath.ofBytes node.path.pack).drop node.path.length, bit = false
    rw [BitPath.ofBytes_pack, List.drop_left' rfl]
    exact fun bit hbit => List.eq_of_mem_replicate hbit
  · rw [isLong_ofNode] at hlong
    exact node.length_valueLink_of_isLong hlong

/-- Flags without the secure bit are those that a writer sets. -/
theorem ite_longValueFlag {flags : UInt8} (hknown : flags &&& ~~~(secureFlag ||| longValueFlag) = 0)
    (hsecure : flags &&& secureFlag = 0) :
    (if flags &&& longValueFlag != 0 then longValueFlag else 0) = flags := by
  have h : ∀ n : Fin 256, UInt8.ofNat n &&& ~~~(secureFlag ||| longValueFlag) = 0 →
      UInt8.ofNat n &&& secureFlag = 0 →
      (if UInt8.ofNat n &&& longValueFlag != 0 then longValueFlag else 0) = UInt8.ofNat n := by
    decide +kernel
  simpa [hknown, hsecure] using h ⟨flags.toNat, flags.toNat_lt⟩

@[simp] theorem orchidHash?_ofLink (link : Option Hash) :
    (Child.ofLink link).orchidHash? = link := by
  cases link <;> rfl

/-- A tight message is written again from the node that it is read as. -/
theorem orchidMessage_node (htight : Tight parts.bytes) :
    (parts.node store).orchidMessage = parts.bytes := by
  obtain ⟨hsecure, hpadding, hending⟩ := tight_bytes_iff.mp htight
  have hlink : (parts.node store).valueLink = parts.tail := by
    rw [Parts.node, valueLink_tailLabel]
    split
    · rename_i hlong
      exact FixedBytes.toBytes_takeFrom (hending hlong)
    · rfl
  have hflags : (if parts.isLong then longValueFlag else 0) = parts.flags :=
    ite_longValueFlag parts.known hsecure
  have hpack : parts.path.pack = parts.packed :=
    BitPath.pack_take_ofBytes parts.length_packed hpadding
  rw [Node.orchidMessage, messageWith_eq, parts.path_node, parts.isLong_node, hlink, hflags, hpack,
    parts.length_path, Parts.bytes, Parts.node, orchidHash?_ofLink, orchidHash?_ofLink]

end Orchid

/-- A long value whose bytes are in the store is read back with them. -/
theorem Label.orchidReadBack_of_storedIn {store : ValueStore} {label : Label}
    (h : label.StoredIn store)
    (hhash : label.valueHash = (label.value.filter fun v => v.length > maxInlineValue).map keccak)
    (hlength : label.valueLength = .ofNat (label.value.getD []).length) :
    label.orchidReadBack store = { label with childrenSize := none } := by
  have hread := readBack_of_storedIn h hhash
  rw [orchidReadBack, hread]
  cases hv : label.valueHash with
  | none => rfl
  | some hash =>
    have hvalue : store hash = label.value := by
      rw [readBack_of_long hv] at hread
      exact congrArg Label.value hread
    dsimp only
    rw [hvalue, ← hlength]

/-- A node made of parts is read back from its message, with its children by their hashes and without the
size of its subtree, if the length of its path fits 16 bits. A message is written again from the node
that it is read as exactly if nothing in it is free to be otherwise. -/
theorem orchid_round_trip (store : ValueStore) :
    (∀ (path : BitPath) (value : Option Bytes) (left right : Child), path.length ≤ 65535 →
        (Node.ofParts path value left right).toLabel.StoredIn store →
        Node.ofMessage store (Node.ofParts path value left right).orchidMessage =
          .ok { Node.ofParts path value left right with
            childrenSize := none
            left := .ofLink left.orchidHash?
            right := .ofLink right.orchidHash? }) ∧
      ∀ (message : Bytes) (node : Node), Orchid.decode store message = .ok node →
        (node.orchidMessage = message ↔ Orchid.Tight message) := by
  constructor
  · intro path value left right hlength hstored
    have hlt : (Node.ofParts path value left right).path.length < 2 ^ 16 := by
      rw [Node.path_ofParts]
      omega
    rw [Node.ofMessage_orchidMessage store (Node.plain_ofParts path value left right) hlt,
      Node.orchidReadBack, Label.orchidReadBack_of_storedIn hstored
        (Node.valueHash_eq_map_keccak path value left right)
        (Node.valueLength_eq_length path value left right), Node.left_ofParts, Node.right_ofParts]
  · intro message node h
    obtain ⟨parts, rfl, rfl⟩ := (Orchid.decode_eq_ok_iff store message node).mp h
    constructor
    · intro hsame
      have hlt : (parts.node store).path.length < 2 ^ 16 := by
        rw [parts.path_node, parts.length_path]
        exact parts.length_lt
      rw [← hsame]
      exact Orchid.tight_orchidMessage hlt
    · exact Orchid.orchidMessage_node

/-- A long value over a leaf and a child that is known by its hash. -/
def sampleFork : Node :=
  .ofParts [true, false] (some (List.replicate 33 7)) (Node.leaf [true] [1]).toChild
    (.hashed emptyTrieHash)

/-- The sample is read back, and a leaf is written as it was read unless it had the secure bit and a
padding of ones. -/
theorem orchid_round_trip_sampleFork :
    Node.ofMessage (fun _ => some (List.replicate 33 7)) sampleFork.orchidMessage =
        .ok { sampleFork with
          childrenSize := none
          left := .ofLink (Node.leaf [true] [1]).toChild.orchidHash?
          right := .ofLink (some emptyTrieHash) } ∧
      (Node.leaf [true, false, true] [9]).orchidMessage = [2, 0, 0, 0, 0, 3, 0xa0, 9] ∧
      (Node.leaf [true, false, true] [9]).orchidMessage ≠ [2, 1, 0, 0, 0, 3, 0xbf, 9] := by
  have hread : Orchid.decode .none [2, 0, 0, 0, 0, 3, 0xa0, 9] =
      .ok (Node.leaf [true, false, true] [9]) := by rfl
  have hread' : Orchid.decode .none [2, 1, 0, 0, 0, 3, 0xbf, 9] =
      .ok (Node.leaf [true, false, true] [9]) := by rfl
  obtain ⟨hparts, -⟩ := orchid_round_trip fun _ => some (List.replicate 33 7)
  obtain ⟨-, hmessage⟩ := orchid_round_trip .none
  refine ⟨hparts [true, false] _ _ _ (by decide) ?_, (hmessage _ _ hread).mpr ?_, fun hsame => ?_⟩
  · rintro _ ⟨⟩ -
    rfl
  · constructor <;> decide +kernel
  · obtain ⟨hsecure, -, -⟩ := (hmessage _ _ hread').mp hsame
    exact absurd (hsecure 1 rfl) (by decide)

end BlockAudit.Trie
