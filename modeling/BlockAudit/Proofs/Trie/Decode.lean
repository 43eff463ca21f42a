import BlockAudit.Proofs.Field
import BlockAudit.Proofs.Outcome
import BlockAudit.Trie.Rskip107.Decode

/-! Reading a message of the current layout as a row of steps, each of which begins where the one
before it ended. -/
namespace BlockAudit.Trie

theorem Label.valueHash_withInlineValue (label : Label) (rest : Bytes) :
    (label.withInlineValue rest).valueHash = label.valueHash := by
  unfold withInlineValue
  split <;> rfl

namespace Rskip107

/-- Reads the path after the flags, if there is one. -/
def readPath (message : Bytes) (present : Bool) : Except DecodeError (BitPath × Nat) :=
  if present then SharedPath.decode message 1 else .ok ([], 1)

/-- Reads the size of the subtree at `offset`, if there is one. -/
def readSize (message : Bytes) (present : Bool) (offset : Nat) :
    Except DecodeError (Option UInt64 × Nat) :=
  if present then do
    let v ← VarInt.read message offset
    return (some v.value, offset + v.size)
  else .ok (none, offset)

theorem decodeWith_eq (store : ValueStore) (message : Bytes)
    (inner : (m : Bytes) → m.length < message.length → Except DecodeError Node) :
    decodeWith store message inner = do
      let flags := Flags.ofByte (← byteField message 0)
      let path ← readPath message flags.sharedPath
      let left ← decodeChild message inner flags.leftPresent flags.leftInline path.2
      let right ← decodeChild message inner flags.rightPresent flags.rightInline left.2
      let size ← readSize message (flags.leftPresent || flags.rightPresent) right.2
      let label ← decodeValue store message flags.longValue size.2
        { path := path.1, childrenSize := size.1 }
      return ⟨label, left.1, right.1⟩ := by
  have hsize : ∀ (present : Bool) (offset : Nat)
      (next : Option UInt64 × Nat → Except DecodeError Node),
      (if present = true then do
        let v ← VarInt.read message offset
        let size ← pure (some v.value, offset + v.size)
        next size
      else do
        let size ← pure (none, offset)
        next size) = readSize message present offset >>= next := by
    intro present offset next
    cases present
    · rfl
    · cases h : VarInt.read message offset <;> simp [readSize, h]
  unfold decodeWith
  congr 1
  funext first
  simp only [hsize]
  rw [readPath]
  split <;> rfl

section Child

variable {message : Bytes} {offset : Nat}
  {inner : (m : Bytes) → m.length < message.length → Except DecodeError Node}

theorem decodeChild_hash {hash : Hash} (hb : StandsAt hash.toBytes message offset) :
    decodeChild message inner true false offset = .ok (.hashed hash, offset + 32) := by
  simp [decodeChild, field_hash hb, takeFrom_toBytes]

/-- A message inside is read by itself, and its error is reported with the length before it. -/
theorem decodeChild_inline_eq {declared : UInt8} {inside : Bytes} {result : Except DecodeError Node}
    (hb : StandsAt (declared :: inside) message offset) (hlen : inside.length = declared.toNat)
    (hinner : ∀ h, inner inside h = result) :
    decodeChild message inner true true offset = do
      let node ← result.mapError (.atInline declared.toNat)
      return (node.toChild, offset + 1 + inside.length) := by
  obtain ⟨hlength, hinside⟩ := hb.cons
  have hfield : field message (offset + 1) declared.toNat = .ok inside := by
    rw [← hlen]
    exact hinside.field
  simp only [decodeChild, hlength.byteField, liftM_field_ok, ok_bind]
  split
  · rename_i h
    rw [hfield] at h
    cases h
  · rename_i bytes h
    obtain rfl : inside = bytes := by
      rw [hfield] at h
      cases h
      rfl
    rw [hinner, hlen]

theorem decodeChild_inline {declared : UInt8} {inside : Bytes} {node : Node}
    (hb : StandsAt (declared :: inside) message offset) (hlen : inside.length = declared.toNat)
    (hinner : ∀ h, inner inside h = .ok node) :
    decodeChild message inner true true offset =
      .ok (node.toChild, offset + 1 + inside.length) := by
  rw [decodeChild_inline_eq hb hlen hinner, mapError_ok, ok_bind, pure_eq_ok]

theorem decodeChild_inline_error {declared : UInt8} {inside : Bytes} {error : DecodeError}
    (hb : StandsAt (declared :: inside) message offset) (hlen : inside.length = declared.toNat)
    (hinner : ∀ h, inner inside h = .error error) :
    decodeChild message inner true true offset = .error (error.atInline declared.toNat) := by
  rw [decodeChild_inline_eq hb hlen hinner, mapError_error, error_bind]

end Child

end Rskip107

end BlockAudit.Trie
