import BlockAudit.Proofs.Outcome
import BlockAudit.Proofs.Trie.Tree
import Mathlib.Data.List.Induction

/-!
Builders as maps. A builder is reached by calls of `insert`, of which those with a refused value
leave it as it was; a key has the value that the last accepted call gave it.
-/
namespace BlockAudit.Trie

namespace Builder

theorem insert_of_accepted {value : Bytes} (h : Accepted value) (builder : Builder) (key : Bytes) :
    builder.insert key value =
      .ok ⟨builder.tree.insert (BitPath.ofBytes key) value, builder.insertions + 1⟩ := by
  obtain ⟨hne, hlen⟩ := h
  have hempty : value.isEmpty = false := by simpa using hne
  simp [insert, hempty, Uint24.encode, hlen]

theorem insert_of_not_accepted {value : Bytes} (h : ¬ Accepted value) (builder : Builder)
    (key : Bytes) : ∃ e, builder.insert key value = .error ⟨e, builder⟩ := by
  by_cases hempty : value.isEmpty
  · exact ⟨.emptyValue key, by simp [insert, hempty]⟩
  · have hlen : ¬ value.length ≤ Uint24.max := fun hlen => h ⟨by simpa using hempty, hlen⟩
    exact ⟨.valueTooLong (.exceeds24Bits value.length),
      by simp [insert, hempty, Uint24.encode, hlen]⟩

theorem after_of_accepted {value : Bytes} (h : Accepted value) (builder : Builder) (key : Bytes) :
    builder.after key value =
      ⟨builder.tree.insert (BitPath.ofBytes key) value, builder.insertions + 1⟩ := by
  rw [after, insert_of_accepted h]

/-- A refused call leaves the builder as it was. -/
theorem after_of_not_accepted {value : Bytes} (h : ¬ Accepted value) (builder : Builder)
    (key : Bytes) : builder.after key value = builder := by
  obtain ⟨e, he⟩ := insert_of_not_accepted h builder key
  rw [after, he]

end Builder

/-- The keys and values of calls of `insert`, in their order. -/
abbrev Entries := List (Bytes × Bytes)

namespace Entries

/-- The builder after the calls, refused ones among them. -/
def builder (entries : Entries) : Builder :=
  entries.foldl (fun b (key, value) => b.after key value) {}

/-- The value of a key: the last one that a call was accepted with. -/
def value? (entries : Entries) (key : Bytes) : Option Bytes :=
  (entries.reverse.find? fun (k, v) => k == key && decide (Accepted v)).map Prod.snd

/-- Two keys that part at the first bit. The second has a long value, and its leaf a long path. -/
def sample : Entries :=
  [([0x00], [1]), (0x80 :: List.replicate 11 0, List.replicate 40 7)]

theorem value?_concat (entries : Entries) (entry : Bytes × Bytes) (key : Bytes) :
    value? (entries ++ [entry]) key =
      if entry.1 = key ∧ Accepted entry.2 then some entry.2 else entries.value? key := by
  by_cases h : entry.1 = key ∧ Accepted entry.2 <;> simp [value?, h]

theorem builder_concat (entries : Entries) (entry : Bytes × Bytes) :
    builder (entries ++ [entry]) = entries.builder.after entry.1 entry.2 := by
  rw [builder, List.foldl_append, ← builder]
  rfl

theorem tree_concat (entries : Entries) (entry : Bytes × Bytes) :
    (builder (entries ++ [entry])).tree =
      if Accepted entry.2 then
        (builder entries).tree.insert (BitPath.ofBytes entry.1) entry.2
      else (builder entries).tree := by
  rw [builder_concat]
  by_cases h : Accepted entry.2
  · rw [Builder.after_of_accepted h, if_pos h]
  · rw [Builder.after_of_not_accepted h, if_neg h]

/-- A builder's tree maps each key to the last value that was accepted with it. -/
theorem lookup_tree (entries : Entries) (key : Bytes) :
    entries.builder.tree.lookup (BitPath.ofBytes key) = entries.value? key := by
  induction entries using List.reverseRecOn with
  | nil => rfl
  | append_singleton entries entry ih =>
    rw [tree_concat, value?_concat]
    by_cases h : Accepted entry.2
    · have hk : BitPath.ofBytes key = BitPath.ofBytes entry.1 ↔ entry.1 = key :=
        ⟨fun h => (BitPath.ofBytes_injective h).symm, fun h => h ▸ rfl⟩
      simp [h, Tree.lookup_insert, ih, hk]
    · simp [h, ih]

theorem reduced_tree (entries : Entries) : entries.builder.tree.Reduced := by
  induction entries using List.reverseRecOn with
  | nil => trivial
  | append_singleton entries entry ih =>
    rw [tree_concat]
    split
    · exact Tree.reduced_insert ih _ ‹_›
    · exact ih

/-- Only whole keys of entries lead to values. -/
theorem exists_key_of_lookup {entries : Entries} {bits : BitPath} {v : Bytes}
    (h : entries.builder.tree.lookup bits = some v) :
    ∃ key, bits = BitPath.ofBytes key ∧ entries.value? key = some v := by
  suffices hkey : ∃ key, bits = BitPath.ofBytes key by
    obtain ⟨key, rfl⟩ := hkey
    exact ⟨key, rfl, by rw [← lookup_tree, h]⟩
  induction entries using List.reverseRecOn with
  | nil => simp [builder] at h
  | append_singleton entries entry ih =>
    rw [tree_concat] at h
    split at h
    · rw [Tree.lookup_insert] at h
      split at h
      · exact ⟨entry.1, ‹_›⟩
      · exact ih h
    · exact ih h

theorem mem_of_value? {entries : Entries} {key v : Bytes} (h : entries.value? key = some v) :
    (key, v) ∈ entries := by
  obtain ⟨⟨k, w⟩, hfind, rfl⟩ := Option.map_eq_some_iff.mp h
  have hk : k = key := by
    have := List.find?_some hfind
    simp at this
    exact this.1
  simpa [hk] using List.mem_of_find?_eq_some hfind

/-- What holds of the keys of all calls holds of every key with a value. -/
theorem forall_value? {entries : Entries} {motive : Bytes → Prop} (h : ∀ e ∈ entries, motive e.1) :
    ∀ key v, entries.value? key = some v → motive key :=
  fun _ _ hkey => h _ (mem_of_value? hkey)

theorem accepted_of_value? {entries : Entries} {key v : Bytes} (h : entries.value? key = some v) :
    Accepted v := by
  obtain ⟨⟨k, w⟩, hfind, rfl⟩ := Option.map_eq_some_iff.mp h
  have := List.find?_some hfind
  simp at this
  exact this.2

theorem within_tree {entries : Entries} {bound : Nat}
    (h : ∀ key v, entries.value? key = some v → 8 * key.length ≤ bound) :
    entries.builder.tree.Within bound := by
  intro bits v hbits
  obtain ⟨key, rfl, hkey⟩ := exists_key_of_lookup hbits
  rw [BitPath.length_ofBytes]
  exact h key v hkey

theorem within_tree_of_length_le {entries : Entries} {bound : Nat}
    (h : ∀ key v, entries.value? key = some v → key.length ≤ bound) :
    entries.builder.tree.Within (8 * bound) :=
  within_tree fun key v hkey => Nat.mul_le_mul_left 8 (h key v hkey)

theorem tree_ne_nil {entries : Entries} {key v : Bytes} (h : entries.value? key = some v) :
    entries.builder.tree ≠ .nil := by
  intro hnil
  have hlookup := (entries.lookup_tree key).trans h
  rw [hnil] at hlookup
  cases hlookup

end Entries

end BlockAudit.Trie
