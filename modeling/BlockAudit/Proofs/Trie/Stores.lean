import BlockAudit.Proofs.Trie.Decode
import BlockAudit.Trie.Layout

/-!
One message read with two stores. The stores show in the bytes of long values and nowhere else: not
in the paths, not in the children, and not in what is refused.
-/
namespace BlockAudit.Trie

variable {s t : ValueStore}

/-- Labels that differ in nothing but what their stores know of a long value. -/
structure Label.Alike (s t : ValueStore) (a b : Label) : Prop where
  path : a.path = b.path
  hash : a.valueHash = b.valueHash
  inline : a.valueHash = none → a.value = b.value
  long : ∀ h, a.valueHash = some h → a.value = s h ∧ b.value = t h
  length : a.value = none → b.value = none → a.valueLength = b.valueLength

inductive Child.Alike (s t : ValueStore) : Child → Child → Prop where
  | absent : Alike s t .absent .absent
  | hashed (hash : Hash) : Alike s t (.hashed hash) (.hashed hash)
  | inMemory {a b : Label} {left left' right right' : Child} (hlabel : a.Alike s t b)
      (hleft : Alike s t left left') (hright : Alike s t right right') :
      Alike s t (.inMemory a left right) (.inMemory b left' right')

/-- Nodes whose labels are alike, and whose children are. -/
structure Node.Alike (s t : ValueStore) (a b : Node) : Prop where
  label : a.toLabel.Alike s t b.toLabel
  left : a.left.Alike s t b.left
  right : a.right.Alike s t b.right

theorem Node.Alike.child {a b : Node} (h : a.Alike s t b) (bit : Bool) :
    (a.child bit).Alike s t (b.child bit) := by
  cases bit
  · exact h.left
  · exact h.right

theorem Label.alike_of_inline {label : Label} (h : label.valueHash = none) :
    label.Alike s t label where
  path := rfl
  hash := rfl
  inline _ := rfl
  long hash hhash := by
    rw [h] at hhash
    cases hhash
  length _ _ := rfl

/-- A label whose long value is taken from either store. -/
theorem Label.alike_of_long {label : Label} {hash : Hash} {m n : UInt32}
    (h : s hash = none → t hash = none → m = n) :
    Label.Alike s t
      { label with value := s hash, valueLength := m, valueHash := some hash }
      { label with value := t hash, valueLength := n, valueHash := some hash } where
  path := rfl
  hash := rfl
  inline hnone := by cases hnone
  long other hother := by
    cases hother
    exact ⟨rfl, rfl⟩
  length hs ht := h hs ht

namespace Rskip107

private theorem decodeChild_alike {message : Bytes}
    {f g : (m : Bytes) → m.length < message.length → Except DecodeError Node}
    (hinner : ∀ m h, Matched (Node.Alike s t) (f m h) (g m h)) (present inlined : Bool)
    (offset : Nat) :
    Matched (fun a b => a.1.Alike s t b.1 ∧ a.2 = b.2)
      (decodeChild message f present inlined offset)
      (decodeChild message g present inlined offset) := by
  unfold decodeChild
  cases present with
  | false => exact matched_ok ⟨.absent, rfl⟩
  | true =>
    cases inlined with
    | false =>
      apply matched_bind_self
      intro hash
      exact matched_ok ⟨.hashed _, rfl⟩
    | true =>
      apply matched_bind_self
      intro first
      dsimp only
      split
      · exact matched_error _
      · apply ((hinner _ _).mapError _).bind
        intro a b hab
        exact matched_ok ⟨.inMemory hab.label hab.left hab.right, rfl⟩

private theorem decodeValue_alike (message : Bytes) (isLong : Bool) (offset : Nat) {label : Label}
    (hlabel : label.valueHash = none) :
    Matched (Label.Alike s t) (decodeValue s message isLong offset label)
      (decodeValue t message isLong offset label) := by
  unfold decodeValue
  split
  · apply matched_bind_self
    intro hash
    apply matched_bind_self
    intro length
    split
    · exact matched_error _
    · exact matched_ok (Label.alike_of_long fun _ _ => rfl)
  · apply matched_ok
    apply Label.alike_of_inline
    rw [Label.valueHash_withInlineValue, hlabel]

theorem decode_alike (s t : ValueStore) (message : Bytes) :
    Matched (Node.Alike s t) (decode s message) (decode t message) := by
  induction hn : message.length using Nat.strongRecOn generalizing message with
  | ind n ih =>
    subst hn
    rw [decode, decode, decodeWith_eq, decodeWith_eq]
    have hinner : ∀ m (_ : m.length < message.length),
        Matched (Node.Alike s t) (decode s m) (decode t m) := fun m h => ih m.length h m rfl
    apply matched_bind_self
    intro first
    dsimp only
    apply matched_bind_self
    intro path
    apply (decodeChild_alike hinner _ _ _).bind
    rintro ⟨left, leftEnd⟩ ⟨left', _⟩ ⟨hleft, rfl⟩
    apply (decodeChild_alike hinner _ _ _).bind
    rintro ⟨right, rightEnd⟩ ⟨right', _⟩ ⟨hright, rfl⟩
    apply matched_bind_self
    intro size
    apply (decodeValue_alike message _ _ rfl).bind
    intro label label' hlabel
    exact matched_ok ⟨hlabel, hleft, hright⟩

end Rskip107

namespace Orchid

private theorem decodeChild_alike (s t : ValueStore) (message : Bytes) (present : Bool)
    (offset : Nat) :
    Matched (fun a b => a.1.Alike s t b.1 ∧ a.2 = b.2)
      (decodeChild message present offset) (decodeChild message present offset) := by
  unfold decodeChild
  split
  · apply matched_bind_self
    intro hash
    exact matched_ok ⟨.hashed _, rfl⟩
  · exact matched_ok ⟨.absent, rfl⟩

private theorem decodeValue_alike (message : Bytes) (isLong : Bool) (offset : Nat) {label : Label}
    (hlabel : label.valueHash = none) :
    Matched (Label.Alike s t) (decodeValue s message isLong offset label)
      (decodeValue t message isLong offset label) := by
  unfold decodeValue
  split
  · apply matched_bind_self
    intro hash
    apply matched_ok
    apply Label.alike_of_long
    -- Without the bytes the length is read as zero.
    intro hs ht
    rw [hs, ht]
  · apply matched_ok
    apply Label.alike_of_inline
    rw [Label.valueHash_withInlineValue, hlabel]

theorem decode_alike (s t : ValueStore) (message : Bytes) :
    Matched (Node.Alike s t) (decode s message) (decode t message) := by
  unfold decode
  apply matched_bind_self
  intro first
  split
  · exact matched_error _
  apply matched_bind_self
  intro flags
  split
  · exact matched_error _
  apply matched_bind_self
  intro present
  dsimp only
  split
  · exact matched_error _
  apply matched_bind_self
  intro length
  apply matched_bind_self
  intro packed
  apply matched_bind_self
  intro path
  apply (decodeChild_alike s t message _ _).bind
  rintro ⟨left, leftEnd⟩ ⟨left', _⟩ ⟨hleft, rfl⟩
  apply (decodeChild_alike s t message _ _).bind
  rintro ⟨right, rightEnd⟩ ⟨right', _⟩ ⟨hright, rfl⟩
  apply (decodeValue_alike message _ _ rfl).bind
  intro label label' hlabel
  exact matched_ok ⟨hlabel, hleft, hright⟩

end Orchid

theorem Node.ofMessage_alike (s t : ValueStore) (message : Bytes) :
    Matched (Node.Alike s t) (Node.ofMessage s message) (Node.ofMessage t message) := by
  unfold Node.ofMessage
  cases message with
  | nil => exact matched_error _
  | cons first rest =>
    dsimp only
    split
    · exact Orchid.decode_alike s t _
    · exact Rskip107.decode_alike s t _

end BlockAudit.Trie
