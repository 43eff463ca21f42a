import BlockAudit.Trie.Key
import Mathlib.Data.List.DropRight
import Mathlib.Data.List.TakeWhile

/-!
How the keys of the state trie lie to each other. The hashed parts of a key spread keys evenly, and nothing
is asked of them here: what a key is of can be told from the address and the slot that follow them.
-/
namespace BlockAudit

/-- Behind as many bytes, a string is the beginning of another one as it would be alone. -/
theorem append_prefix_append_iff {x y s t : Bytes} (h : x.length = y.length) :
    x ++ s <+: y ++ t ↔ x = y ∧ s <+: t := by
  constructor
  · rintro ⟨rest, hrest⟩
    rw [List.append_assoc] at hrest
    obtain ⟨hxy, hst⟩ := List.append_inj hrest h
    exact ⟨hxy, rest, hst⟩
  · rintro ⟨rfl, hst⟩
    exact (List.prefix_append_right_inj x).mpr hst

/-- What is stripped are zeros, so that their number tells them. -/
theorem replicate_append_stripLeadingZeros (bytes : Bytes) :
    List.replicate (bytes.length - (stripLeadingZeros bytes).length) 0 ++ stripLeadingZeros bytes =
      bytes := by
  have hsplit : bytes.takeWhile (· == 0) ++ stripLeadingZeros bytes = bytes :=
    List.takeWhile_append_dropWhile
  have hlength := congrArg List.length hsplit
  rw [List.length_append] at hlength
  have hzeros : bytes.takeWhile (· == 0) =
      List.replicate (bytes.length - (stripLeadingZeros bytes).length) 0 := by
    refine List.eq_replicate_iff.mpr ⟨by omega, fun byte hbyte => ?_⟩
    simpa using List.mem_takeWhile_imp hbyte
  rw [← hzeros, hsplit]

/-- Leading zeros can be stripped from strings of one size without a loss. -/
theorem stripLeadingZeros_injective {size : Nat} {s t : FixedBytes size}
    (h : stripLeadingZeros s.toBytes = stripLeadingZeros t.toBytes) : s = t := by
  ext1
  have hs := replicate_append_stripLeadingZeros s.toBytes
  have ht := replicate_append_stripLeadingZeros t.toBytes
  rw [s.length_toBytes, h] at hs
  rw [t.length_toBytes] at ht
  exact hs.symm.trans ht

theorem stripLeadingZeros_eq_nil_iff {slot : Hash} :
    stripLeadingZeros slot.toBytes = [] ↔ slot = .zero 32 := by
  have hzero : stripLeadingZeros (FixedBytes.zero 32).toBytes = [] := by decide
  constructor
  · intro h
    exact stripLeadingZeros_injective (h.trans hzero.symm)
  · rintro rfl
    exact hzero

namespace Trie

namespace Key

theorem length_securePart (material : Bytes) : (securePart material).length = 10 := by
  rw [securePart, List.length_take, FixedBytes.length_toBytes]
  rfl

theorem length_account (address : Address) : (account address).length = 31 := by
  rw [account, List.length_append, List.length_cons, length_securePart, address.length_toBytes]

theorem account_injective {a b : Address} (h : account a = account b) : a = b := by
  have hlength : (0x00 :: securePart a.toBytes).length = (0x00 :: securePart b.toBytes).length := by
    rw [List.length_cons, List.length_cons, length_securePart, length_securePart]
  exact FixedBytes.ext (List.append_inj_right h hlength)

theorem slotSuffix_empty (slot : Hash) :
    slotSuffix .empty slot = stripLeadingZeros slot.toBytes := by
  unfold slotSuffix
  split <;> simp_all

theorem slotSuffix_singleZero (slot : Hash) :
    slotSuffix .singleZero slot =
      if slot = .zero 32 then [0x00] else stripLeadingZeros slot.toBytes := by
  have hzero : stripLeadingZeros slot.toBytes = [] ↔ slot = .zero 32 := stripLeadingZeros_eq_nil_iff
  unfold slotSuffix
  split <;> simp_all

/-- A kept zero is a leading one. -/
theorem stripLeadingZeros_slotSuffix (zeroSlot : ZeroSlot) (slot : Hash) :
    stripLeadingZeros (slotSuffix zeroSlot slot) = stripLeadingZeros slot.toBytes := by
  have hstripped : stripLeadingZeros (stripLeadingZeros slot.toBytes) =
      stripLeadingZeros slot.toBytes := List.dropWhile_idempotent ..
  cases zeroSlot with
  | empty => rw [slotSuffix_empty, hstripped]
  | singleZero =>
    rw [slotSuffix_singleZero]
    split
    case isTrue hzero => exact (stripLeadingZeros_eq_nil_iff.mpr hzero).symm
    case isFalse => exact hstripped

theorem slotSuffix_injective {zeroSlot : ZeroSlot} {s t : Hash}
    (h : slotSuffix zeroSlot s = slotSuffix zeroSlot t) : s = t := by
  apply stripLeadingZeros_injective
  rw [← stripLeadingZeros_slotSuffix zeroSlot s, h, stripLeadingZeros_slotSuffix]

/-- The encodings of the slot zero differ for that slot only. -/
theorem slotSuffix_eq_iff (slot : Hash) :
    slotSuffix .empty slot = slotSuffix .singleZero slot ↔ slot ≠ .zero 32 := by
  rw [slotSuffix_empty, slotSuffix_singleZero]
  split
  case isTrue hzero =>
    rw [stripLeadingZeros_eq_nil_iff.mpr hzero]
    exact iff_of_false (List.cons_ne_nil _ _).symm (not_not.mpr hzero)
  case isFalse hzero => exact iff_of_true rfl hzero

end Key

/-- What there are keys of in an account. -/
inductive Place where
  | account
  | code
  | storageStem
  | slot (slot : Hash)

namespace Place

def key (zeroSlot : ZeroSlot) (address : Address) : Place → Bytes
  | .account => Key.account address
  | .code => Key.code address
  | .storageStem => Key.storageStem address
  | .slot s => Key.storage zeroSlot address s

/-- What follows the key of the account. -/
def tail (zeroSlot : ZeroSlot) : Place → Bytes
  | .account => []
  | .code => [0x80]
  | .storageStem => [0x00]
  | .slot s => 0x00 :: (Key.securePart s.toBytes ++ Key.slotSuffix zeroSlot s)

/-- In one account, where the key of a place leads to: the place itself, what is below it, and
nothing else. What the hashed parts of two slots come to is left open. -/
def Leads (zeroSlot : ZeroSlot) : Place → Place → Prop
  | .account, _ => True
  | .code, .code => True
  | .storageStem, .storageStem => True
  | .storageStem, .slot _ => True
  | .slot s, .slot t =>
    Key.securePart s.toBytes ++ Key.slotSuffix zeroSlot s <+:
      Key.securePart t.toBytes ++ Key.slotSuffix zeroSlot t
  | _, _ => False

variable {zeroSlot : ZeroSlot} {a b : Address} {p q : Place}

theorem key_eq_append (zeroSlot : ZeroSlot) (address : Address) (place : Place) :
    place.key zeroSlot address = Key.account address ++ place.tail zeroSlot := by
  cases place with
  | account => exact (List.append_nil _).symm
  | code => rfl
  | storageStem => rfl
  | slot s => simp [key, tail, Key.storage, Key.storageStem]

theorem tail_prefix_iff : p.tail zeroSlot <+: q.tail zeroSlot ↔ p.Leads zeroSlot q := by
  have hpart (slot : Hash) : Key.securePart slot.toBytes ≠ [] := by
    apply List.ne_nil_of_length_pos
    rw [Key.length_securePart]
    omega
  cases p with
  | account => exact iff_of_true List.nil_prefix trivial
  | code => cases q <;> simp [tail, Leads]
  | storageStem => cases q <;> simp [tail, Leads]
  | slot s => cases q <;> simp [tail, Leads, hpart]

theorem tail_injective (h : p.tail zeroSlot = q.tail zeroSlot) : p = q := by
  -- Each of the two leads to the other, which two different places do at most if both are slots.
  have hpq := tail_prefix_iff.mp (h ▸ List.prefix_rfl : p.tail zeroSlot <+: q.tail zeroSlot)
  have hqp := tail_prefix_iff.mp (h ▸ List.prefix_rfl : q.tail zeroSlot <+: p.tail zeroSlot)
  cases p with
  | account => cases q <;> simp_all [Leads]
  | code => cases q <;> simp_all [Leads]
  | storageStem => cases q <;> simp_all [Leads]
  | slot s =>
    cases q with
    | slot t =>
      have hlength : (Key.securePart s.toBytes).length = (Key.securePart t.toBytes).length := by
        rw [Key.length_securePart, Key.length_securePart]
      have hsuffix := List.append_inj_right (List.cons.inj h).2 hlength
      rw [Key.slotSuffix_injective hsuffix]
    | _ => simp_all [Leads]

/-- No two places have the same key, and one begins with the other only within an account: all keys of an
account begin with its own, those of its slots with that of its storage, and none with that of its code. The
two encodings give different keys to the slot zero and to no other. -/
theorem keys_apart (zeroSlot : ZeroSlot) (a b : Address) (p q : Place) :
    (p.key zeroSlot a = q.key zeroSlot b ↔ a = b ∧ p = q) ∧
      (p.key zeroSlot a <+: q.key zeroSlot b ↔ a = b ∧ p.Leads zeroSlot q) ∧
      ∀ slot, Key.storage .empty a slot = Key.storage .singleZero a slot ↔ slot ≠ .zero 32 := by
  have hlength : (Key.account a).length = (Key.account b).length := by
    rw [Key.length_account, Key.length_account]
  refine ⟨?_, ?_, fun slot => ?_⟩
  · constructor
    · intro h
      rw [key_eq_append, key_eq_append] at h
      obtain ⟨haccount, htail⟩ := List.append_inj h hlength
      exact ⟨Key.account_injective haccount, tail_injective htail⟩
    · rintro ⟨rfl, rfl⟩
      rfl
  · rw [key_eq_append, key_eq_append, append_prefix_append_iff hlength, tail_prefix_iff]
    exact and_congr_left fun _ => ⟨Key.account_injective, congrArg Key.account⟩
  · rw [Key.storage, Key.storage, List.append_cancel_left_eq]
    exact Key.slotSuffix_eq_iff slot

end Place

end Trie

end BlockAudit
