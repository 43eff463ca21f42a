import BlockAudit.Proofs.Trie.ReadBack

/-!
Nodes made of parts, however deep, come back from their messages. Only children too large to be written
inside are replaced by their hashes, and long values are as good as the store they are looked up in.
-/
namespace BlockAudit.Trie

/-- A child made of parts that messages have room for, down to those that are absent or only known by
their hash. -/
inductive Child.Made : Child → Prop where
  | absent : Made .absent
  | hashed (hash : Hash) : Made (.hashed hash)
  | ofParts {path : BitPath} {value : Option Bytes} {left right : Child}
      (hpath : path.length ≤ SharedPath.maxLength) (hvalue : ∀ v ∈ value, v.length < 2 ^ 24)
      (hleft : left.Made) (hright : right.Made) :
      Made (Node.ofParts path value left right).toChild

def Node.Made (node : Node) : Prop :=
  node.toChild.Made

section StoredIn

variable (store : ValueStore)

/-- A value too long for its node is in the store under its hash. -/
def Label.StoredIn (label : Label) : Prop :=
  ∀ v ∈ label.value, maxInlineValue < v.length → store (keccak v) = some v

/-- So is the value of a child that is written inside its parent. -/
def Child.StoredIn : Child → Prop
  | .inMemory label left right =>
    (Child.inMemory label left right).isInline → label.StoredIn store
  | _ => True

structure Node.StoredIn (node : Node) : Prop where
  label : node.toLabel.StoredIn store
  left : node.left.StoredIn store
  right : node.right.StoredIn store

end StoredIn

/-- A child as its parent's message knows it: in full if it is small, else by its hash. -/
def Child.linked : Child → Child
  | .inMemory label left right =>
    if (Child.inMemory label left right).isInline then .inMemory label left right
    else .hashed (Node.hash ⟨label, left, right⟩)
  | child => child

def Node.linked (node : Node) : Node :=
  { node with left := node.left.linked, right := node.right.linked }

/-- A label with the hash and the length of a long value but not its bytes. -/
def Label.withoutLongValue (label : Label) : Label :=
  if label.isLong then { label with value := none } else label

def Child.withoutLongValue : Child → Child
  | .inMemory label left right => .inMemory label.withoutLongValue left right
  | child => child

/-- A node without the bytes of long values, neither its own nor those of its children. -/
def Node.withoutLongValues (node : Node) : Node :=
  ⟨node.toLabel.withoutLongValue, node.left.withoutLongValue, node.right.withoutLongValue⟩

section ReadBack

variable {store : ValueStore} {label : Label} {child : Child}

theorem Label.readBack_of_inline (h : label.valueHash = none) : label.readBack store = label := by
  obtain ⟨path, value, valueLength, valueHash, childrenSize⟩ := label
  dsimp only at h
  rw [h]
  rfl

theorem Label.readBack_of_long {hash : Hash} (h : label.valueHash = some hash) :
    label.readBack store = { label with value := store hash } := by
  rw [readBack, h]

theorem Label.readBack_none (label : Label) : label.readBack .none = label.withoutLongValue := by
  unfold withoutLongValue isLong
  cases h : label.valueHash with
  | none => rw [readBack_of_inline h, if_neg (by simp)]
  | some hash =>
    rw [readBack_of_long h, if_pos (by simp), h]
    rfl

theorem Label.readBack_of_storedIn (h : label.StoredIn store)
    (hhash : label.valueHash = (label.value.filter fun v => v.length > maxInlineValue).map keccak) :
    label.readBack store = label := by
  cases hv : label.valueHash with
  | none => exact readBack_of_inline hv
  | some hash =>
    rw [hv] at hhash
    obtain ⟨v, hlong, rfl⟩ := Option.map_eq_some_iff.mp hhash.symm
    obtain ⟨hvalue, hlong⟩ := Option.filter_eq_some_iff.mp hlong
    rw [readBack_of_long hv, h v hvalue (by simpa using hlong), ← hvalue]

theorem Child.readBack_none (child : Child) :
    child.readBack .none = child.linked.withoutLongValue := by
  cases child with
  | absent => rfl
  | hashed hash => rfl
  | inMemory label left right =>
    rw [readBack, linked, Label.readBack_none]
    split <;> rfl

theorem Child.readBack_of_storedIn (hmade : child.Made) (h : child.StoredIn store) :
    child.readBack store = child.linked := by
  cases hmade with
  | absent => rfl
  | hashed hash => rfl
  | @ofParts path value left right =>
    rw [Node.toChild, readBack, linked]
    split
    · rename_i hinline
      rw [Label.readBack_of_storedIn (h hinline) (Node.valueHash_eq_map_keccak path value left right)]
    · rfl

end ReadBack

namespace Node

variable {node : Node}

theorem ofParts_filter (path : BitPath) (value : Option Bytes) (left right : Child) :
    ofParts path (value.filter fun v => !v.isEmpty) left right = ofParts path value left right := by
  unfold ofParts
  simp only [Option.filter_filter, Bool.and_self]

end Node

theorem Child.Made.regular {child : Child} (h : child.Made) : child.Regular := by
  induction h with
  | absent => trivial
  | hashed hash => trivial
  | @ofParts path value left right hpath hvalue hleft hright hl hr =>
    rw [← Node.ofParts_filter]
    refine Node.regular_ofParts path (fun v hv => ?_) hl hr
    obtain ⟨hv, hne⟩ := Option.filter_eq_some_iff.mp hv
    exact ⟨by simpa using hne, Nat.le_of_lt_succ (hvalue v hv)⟩

namespace Node

private theorem Made.exists_ofParts {node : Node} (h : node.Made) :
    ∃ path value left right, node = ofParts path value left right ∧
      path.length ≤ SharedPath.maxLength ∧ left.Made ∧ right.Made := by
  obtain ⟨label, left, right⟩ := node
  unfold Made at h
  generalize hchild : toChild ⟨label, left, right⟩ = child at h
  cases h with
  | absent => cases hchild
  | hashed hash => cases hchild
  | @ofParts path value l r hpath hvalue hleft hright =>
    obtain ⟨rfl, rfl, rfl⟩ := Child.inMemory.inj hchild
    exact ⟨path, value, l, r, rfl, hpath, hleft, hright⟩

/-- A node made of parts is read back from its message as it was, with its larger children replaced by
their hashes. Without a store only the bytes of long values are missing. -/
theorem ofMessage_message_of_made {node : Node} (h : node.Made) :
    (∀ store, node.StoredIn store → ofMessage store node.message = .ok node.linked) ∧
      ofMessage .none node.message = .ok node.linked.withoutLongValues := by
  have hregular : node.Regular := Child.Made.regular h
  obtain ⟨path, value, left, right, rfl, hpath, hleft, hright⟩ := h.exists_ofParts
  have hread : ∀ store, ofMessage store (ofParts path value left right).message =
      .ok ((ofParts path value left right).readBack store) := by
    intro store
    have hmax : SharedPath.maxLength = 524280 := rfl
    have hmessage := ofMessage_message store hregular (by rw [path_ofParts]; omega)
    rwa [path_ofParts, if_pos hpath] at hmessage
  constructor
  · intro store hstored
    have hl : left.StoredIn store := by simpa using hstored.left
    have hr : right.StoredIn store := by simpa using hstored.right
    rw [hread, readBack, linked, left_ofParts, right_ofParts,
      Label.readBack_of_storedIn hstored.label (valueHash_eq_map_keccak path value left right),
      Child.readBack_of_storedIn hleft hl, Child.readBack_of_storedIn hright hr]
  · rw [hread, readBack, Label.readBack_none, Child.readBack_none, Child.readBack_none]
    rfl

/-- A branch over a small leaf whose value is long and a leaf with a path too long to be inside. -/
def sampleBranch : Node :=
  ofParts [true] (some [1]) (leaf [false] (List.replicate 33 7)).toChild
    (leaf (List.replicate 400 true) [2]).toChild

/-- The message of the sample, read with a store and without. -/
theorem ofMessage_message_sampleBranch :
    sampleBranch.Made ∧ sampleBranch.StoredIn (fun _ => some (List.replicate 33 7)) ∧
      ofMessage (fun _ => some (List.replicate 33 7)) sampleBranch.message =
        .ok sampleBranch.linked ∧
      ofMessage .none sampleBranch.message = .ok sampleBranch.linked.withoutLongValues := by
  have hleft : (leaf [false] (List.replicate 33 7)).toChild.Made :=
    .ofParts (by decide) (by simp) .absent .absent
  have hright : (leaf (List.replicate 400 true) [2]).toChild.Made :=
    .ofParts (by rw [List.length_replicate]; decide) (by simp) .absent .absent
  have hmade : sampleBranch.Made := .ofParts (by decide) (by simp) hleft hright
  have hstored : sampleBranch.StoredIn (fun _ => some (List.replicate 33 7)) := by
    constructor
    · rintro _ ⟨⟩ hlong
      exact absurd hlong (by decide)
    · rintro - _ ⟨⟩ -
      rfl
    · rintro - _ ⟨⟩ hlong
      exact absurd hlong (by decide)
  obtain ⟨hread, hnone⟩ := ofMessage_message_of_made hmade
  exact ⟨hmade, hstored, hread _ hstored, hnone⟩

end Node

end BlockAudit.Trie
