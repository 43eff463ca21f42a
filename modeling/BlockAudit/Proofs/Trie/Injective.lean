import BlockAudit.Proofs.Trie.Message

/-!
Messages of the current layout tell nodes apart. Each part shows where it ends, so two equal
messages have equal parts one after the other; only the number of bits in a path is cut to a machine
word, and there the length of what follows decides.
-/
namespace BlockAudit

theorem FixedBytes.append_inj {size : Nat} {a b : FixedBytes size} {x y : Bytes}
    (h : a.toBytes ++ x = b.toBytes ++ y) : a = b ∧ x = y := by
  obtain ⟨hab, hxy⟩ := List.append_inj h (a.length_toBytes.trans b.length_toBytes.symm)
  exact ⟨FixedBytes.ext hab, hxy⟩

theorem BitPath.pack_append_inj {p q : BitPath} {x y : Bytes} (hlen : p.length = q.length)
    (h : p.pack ++ x = q.pack ++ y) : p = q ∧ x = y := by
  obtain ⟨hpq, hxy⟩ := List.append_inj h (by rw [length_pack, length_pack, hlen])
  exact ⟨pack_injective hlen hpq, hxy⟩

theorem VarInt.encode_append_inj {v w : VarInt} (hv : v.Fits) (hw : w.Fits) {x y : Bytes}
    (h : v.encode ++ x = w.encode ++ y) : v = w ∧ x = y := by
  have hreadv : read (v.encode ++ x) 0 = .ok v := read_encode hv ⟨[], x, rfl, rfl⟩
  have hreadw : read (w.encode ++ y) 0 = .ok w := read_encode hw ⟨[], y, rfl, rfl⟩
  rw [h, hreadw] at hreadv
  cases hreadv
  exact ⟨rfl, List.append_cancel_left h⟩

namespace Trie

namespace SharedPath

/-- The first byte that announces a length, as a number. -/
def lead (length : Nat) : Nat :=
  if 1 ≤ length ∧ length ≤ 32 then length - 1
  else if 160 ≤ length ∧ length ≤ 382 then length - 128
  else 255

theorem encodeLength_eq (length : Nat) :
    encodeLength length =
      .ofNat (lead length) ::
        if lead length = 255 then (VarInt.ofValue (.ofNat length)).encode else [] := by
  unfold encodeLength lead
  split_ifs
  · omega
  · rfl
  · omega
  · rfl
  · rfl
  · omega

theorem lead_lt (length : Nat) : lead length < 256 := by
  unfold lead
  split_ifs <;> omega

theorem eq_of_lead_eq {m n : Nat} (h : lead m = lead n) (hm : lead m ≠ 255) : m = n := by
  unfold lead at h hm
  split_ifs at h hm <;> omega

/-- An announced length is known up to a machine word. -/
theorem encodeLength_append_inj {m n : Nat} {x y : Bytes}
    (h : encodeLength m ++ x = encodeLength n ++ y) :
    UInt64.ofNat m = UInt64.ofNat n ∧ encodeLength m = encodeLength n ∧ x = y := by
  rw [encodeLength_eq m, encodeLength_eq n, List.cons_append, List.cons_append] at h
  obtain ⟨hfirst, hrest⟩ := List.cons.inj h
  have hlead : lead m = lead n := by
    rw [← toNat_ofNat_byte (lead_lt m), hfirst, toNat_ofNat_byte (lead_lt n)]
  by_cases hmarker : lead m = 255
  · rw [if_pos hmarker, if_pos (hlead ▸ hmarker)] at hrest
    obtain ⟨hvalue, hxy⟩ :=
      VarInt.encode_append_inj (VarInt.fits_ofValue _) (VarInt.fits_ofValue _) hrest
    have hword : UInt64.ofNat m = UInt64.ofNat n := congrArg VarInt.value hvalue
    refine ⟨hword, ?_, hxy⟩
    rw [encodeLength_eq m, encodeLength_eq n, hlead, hword]
  · obtain rfl := eq_of_lead_eq hlead hmarker
    exact ⟨rfl, rfl, List.append_cancel_left hrest⟩

/-- A path is known from its bytes if what follows is small beside a machine word. -/
theorem encode_append_inj {p q : BitPath} {x y : Bytes} (hempty : p.isEmpty = q.isEmpty)
    (hx : x.length < 2 ^ 32) (hy : y.length < 2 ^ 32) (h : encode p ++ x = encode q ++ y) :
    p = q ∧ x = y := by
  by_cases hp : p.isEmpty
  · have hq : q.isEmpty := hempty ▸ hp
    rw [encode, encode, if_pos hp, if_pos hq] at h
    rw [List.isEmpty_iff] at hp hq
    exact ⟨hp.trans hq.symm, h⟩
  · have hq : ¬ q.isEmpty := hempty ▸ hp
    rw [encode, encode, if_neg hp, if_neg hq, List.append_assoc, List.append_assoc] at h
    obtain ⟨hword, -, hpack⟩ := encodeLength_append_inj h
    have hmod : p.length % 2 ^ 64 = q.length % 2 ^ 64 := by
      have := congrArg UInt64.toNat hword
      rwa [UInt64.toNat_ofNat', UInt64.toNat_ofNat'] at this
    have htotal := congrArg List.length hpack
    rw [List.length_append, List.length_append, BitPath.length_pack, BitPath.length_pack,
      BitPath.packedLength, BitPath.packedLength] at htotal
    have hlen : p.length = q.length := by omega
    exact BitPath.pack_append_inj hlen hpack

end SharedPath

open Rskip107

/-- What is written of a child of a node, read off its bytes and the flags. -/
theorem Child.slot_append_inj {c d : Child} {x y : Bytes}
    (hpresent : c.written.slot.isPresent = d.written.slot.isPresent)
    (hinline : c.written.slot.isInline = d.written.slot.isInline)
    (h : c.written.slot.bytes ++ x = d.written.slot.bytes ++ y) :
    c.written.slot = d.written.slot ∧ x = y := by
  have hc := c.length_slot_le
  have hd := d.length_slot_le
  cases hsc : c.written.slot with
  | absent =>
    cases hsd : d.written.slot with
    | absent => simpa [hsc, hsd, Slot.bytes] using h
    | hash e => simp [hsc, hsd, Slot.isPresent] at hpresent
    | inline e => simp [hsc, hsd, Slot.isPresent] at hpresent
  | hash e =>
    cases hsd : d.written.slot with
    | absent => simp [hsc, hsd, Slot.isPresent] at hpresent
    | inline e => simp [hsc, hsd, Slot.isInline] at hinline
    | hash f =>
      rw [hsc, hsd] at h
      obtain ⟨rfl, hxy⟩ := FixedBytes.append_inj h
      exact ⟨rfl, hxy⟩
  | inline e =>
    cases hsd : d.written.slot with
    | absent => simp [hsc, hsd, Slot.isPresent] at hpresent
    | hash f => simp [hsc, hsd, Slot.isInline] at hinline
    | inline f =>
      rw [hsc, Slot.bytes, List.length_cons] at hc
      rw [hsd, Slot.bytes, List.length_cons] at hd
      rw [hsc, hsd, Slot.bytes, Slot.bytes, List.cons_append, List.cons_append] at h
      obtain ⟨hfirst, hrest⟩ := List.cons.inj h
      have hlen : e.length = f.length := by
        rw [← SharedPath.toNat_ofNat_byte (show e.length < 256 by omega), hfirst,
          SharedPath.toNat_ofNat_byte (show f.length < 256 by omega)]
      obtain ⟨rfl, hxy⟩ := List.append_inj hrest hlen
      exact ⟨rfl, hxy⟩

theorem Node.sizeBytes_append_inj {m n : Node} {x y : Bytes}
    (hterminal : m.isTerminal = n.isTerminal) (h : m.sizeBytes ++ x = n.sizeBytes ++ y) :
    x = y := by
  unfold sizeBytes at h
  rw [hterminal] at h
  split at h
  · exact h
  · exact (VarInt.encode_append_inj (VarInt.fits_ofValue _) (VarInt.fits_ofValue _) h).2

/-- What a message has of a value, but for the length of a long one. -/
def Label.valueLink (label : Label) : Bytes :=
  match label.valueHash with
  | some hash => hash.toBytes
  | none => label.value.getD []

theorem Label.valueLink_eq {a b : Label} (hlong : a.isLong = b.isLong)
    (h : a.valueBytes = b.valueBytes) : a.valueLink = b.valueLink := by
  unfold valueBytes at h
  unfold valueLink
  unfold isLong at hlong
  cases ha : a.valueHash with
  | none =>
    cases hb : b.valueHash with
    | none => rwa [ha, hb] at h
    | some f => simp [ha, hb] at hlong
  | some e =>
    cases hb : b.valueHash with
    | none => simp [ha, hb] at hlong
    | some f =>
      rw [ha, hb] at h
      rw [(FixedBytes.append_inj h).1]

/-- Equal messages come from nodes with the same path and value, and with children written alike. -/
theorem Node.message_inj {m n : Node} (hm : m.valueBytes.length ≤ 35)
    (hn : n.valueBytes.length ≤ 35) (h : m.message = n.message) :
    m.path = n.path ∧ m.left.written.slot = n.left.written.slot ∧
      m.right.written.slot = n.right.written.slot ∧ m.isLong = n.isLong ∧
      m.valueLink = n.valueLink := by
  rw [m.message_eq, n.message_eq] at h
  obtain ⟨hfirst, hpath⟩ := List.cons.inj h
  have hflags : m.flags = n.flags := Flags.toByte_injective hfirst
  have hempty : m.path.isEmpty = n.path.isEmpty := by
    simpa [flags, flagsWith] using congrArg Flags.sharedPath hflags
  have hterminal : m.isTerminal = n.isTerminal := by
    have hm := m.isPresent_or_isPresent
    rw [hflags, n.isPresent_or_isPresent] at hm
    exact (Bool.not_inj hm).symm
  have htail : ∀ node : Node, node.valueBytes.length ≤ 35 →
      (node.left.written.slot.bytes ++ (node.right.written.slot.bytes ++
        (node.sizeBytes ++ node.valueBytes))).length < 2 ^ 32 := by
    intro node hvalue
    have hleft := node.left.length_slot_le
    have hright := node.right.length_slot_le
    have hsize := node.length_sizeBytes_le
    simp only [List.length_append]
    omega
  obtain ⟨hpath, hleft⟩ := SharedPath.encode_append_inj hempty (htail m hm) (htail n hn) hpath
  obtain ⟨hleft, hright⟩ := Child.slot_append_inj (congrArg Flags.leftPresent hflags)
    (congrArg Flags.leftInline hflags) hleft
  obtain ⟨hright, hsize⟩ := Child.slot_append_inj (congrArg Flags.rightPresent hflags)
    (congrArg Flags.rightInline hflags) hright
  have hvalue : m.valueBytes = n.valueBytes := sizeBytes_append_inj hterminal hsize
  have hlong : m.isLong = n.isLong := congrArg Flags.longValue hflags
  exact ⟨hpath, hleft, hright, hlong, Label.valueLink_eq hlong hvalue⟩

end Trie

end BlockAudit
