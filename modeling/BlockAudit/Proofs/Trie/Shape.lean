import BlockAudit.Proofs.Trie.Cursor
import BlockAudit.Proofs.Trie.Entries
import BlockAudit.Proofs.Trie.TreeNode
import Mathlib.Data.Finset.Card

/-!
The shape of a builder's tree. Each key of an accepted call has a node of its own with its value, and no
more nodes are needed to join them than there are keys.
-/
namespace BlockAudit.Trie

namespace Tree

/-- The number of nodes. -/
def size : Tree → Nat
  | .nil => 0
  | .node _ _ left right => left.size + right.size + 1

variable {path : BitPath} {value : Option Bytes} {left right tree : Tree}

theorem length_values_node :
    (node path value left right).values.length =
      value.toList.length + (left.values.length + right.values.length) := by
  rw [values, List.length_append, List.length_append]

theorem length_values_fork (bit : Bool) (tree other : Tree) :
    (fork path value bit tree other).values.length =
      value.toList.length + (tree.values.length + other.values.length) := by
  cases bit
  · exact length_values_node
  · rw [Nat.add_comm tree.values.length]
    exact length_values_node

/-- An insertion adds a value if its key had none. -/
theorem length_values_insert (tree : Tree) (key : BitPath) (v : Bytes) :
    (tree.insert key v).values.length =
      tree.values.length + if tree.lookup key = none then 1 else 0 := by
  induction tree generalizing key with
  | nil => rfl
  | node path value left right ihl ihr =>
    induction path, key using meet_cases with
    | same path =>
      rw [insert_path, lookup_path, length_values_node, length_values_node]
      cases value with
      | none =>
        rw [if_pos rfl, Option.toList_some, Option.toList_none, List.length_singleton, List.length_nil]
        omega
      | some w =>
        rw [if_neg (Option.some_ne_none w), Option.toList_some, Option.toList_some]
        rfl
    | below path bit rest =>
      rw [insert_append_cons, lookup_append_cons, length_values_node]
      cases bit
      · rw [if_neg Bool.false_ne_true, if_neg Bool.false_ne_true, length_values_node, ihl]
        omega
      · rw [if_pos rfl, if_pos rfl, length_values_node, ihr]
        omega
    | within front bit rest =>
      rw [insert_front, length_values_fork, lookup_within, if_pos rfl, length_values_node,
        length_values_node, Option.toList_some, List.length_singleton, values, List.length_nil]
      omega
    | parted front bit p b k h =>
      rw [insert_parted front v p h, length_values_fork, lookup_parted front h, length_values_node,
        length_values_node]
      simp [leaf, values]

/-- A node without a value joins two subtrees, so there are fewer of these than values. -/
theorem size_lt_of_reduced (hred : tree.Reduced) (hne : tree ≠ .nil) :
    tree.size < 2 * tree.values.length := by
  induction tree with
  | nil => exact absurd rfl hne
  | node path value left right ihl ihr =>
    obtain ⟨hside, -, hl, hr⟩ := hred
    rw [size, length_values_node]
    cases value with
    | none =>
      obtain ⟨hleft, hright⟩ := hside rfl
      have hltl := ihl hl hleft
      have hltr := ihr hr hright
      omega
    | some v =>
      have hle : ∀ t : Tree, (t ≠ .nil → t.size < 2 * t.values.length) →
          t.size ≤ 2 * t.values.length := by
        intro t ht
        by_cases hnil : t = .nil
        · rw [hnil]
          exact Nat.zero_le _
        · exact Nat.le_of_lt (ht hnil)
      have hlel := hle left (ihl hl)
      have hler := hle right (ihr hr)
      rw [Option.toList_some, List.length_singleton]
      omega

theorem accepted_of_mem_values {v : Bytes} (hred : tree.Reduced) (h : v ∈ tree.values) :
    Accepted v := by
  induction tree with
  | nil => cases h
  | node path value left right ihl ihr =>
    obtain ⟨-, hvalue, hl, hr⟩ := hred
    rw [values, List.mem_append, List.mem_append, Option.mem_toList] at h
    rcases h with h | h | h
    · exact hvalue v h
    · exact ihl hl h
    · exact ihr hr h

end Tree

namespace Entries

/-- The keys of the accepted calls. -/
def keys (entries : Entries) : Finset Bytes :=
  ((entries.filter fun (_, value) => Accepted value).map Prod.fst).toFinset

theorem keys_concat (entries : Entries) (entry : Bytes × Bytes) :
    keys (entries ++ [entry]) =
      if Accepted entry.2 then insert entry.1 entries.keys else entries.keys := by
  by_cases h : Accepted entry.2 <;> simp [keys, h, Finset.union_comm]

theorem mem_keys_iff {entries : Entries} {key : Bytes} :
    key ∈ entries.keys ↔ entries.value? key ≠ none := by
  induction entries using List.reverseRecOn with
  | nil => simp [keys, value?]
  | append_singleton entries entry ih =>
    rw [keys_concat, value?_concat]
    by_cases h : Accepted entry.2
    · by_cases hkey : entry.1 = key
      · simp [h, hkey]
      · simp [h, hkey, Ne.symm hkey, ih]
    · simp [h, ih]

theorem length_values_tree (entries : Entries) :
    entries.builder.tree.values.length = entries.keys.card := by
  induction entries using List.reverseRecOn with
  | nil => rfl
  | append_singleton entries entry ih =>
    rw [tree_concat, keys_concat]
    split
    · rw [Tree.length_values_insert, lookup_tree, ih]
      by_cases hnew : value? entries entry.1 = none
      · have hnot : entry.1 ∉ keys entries := fun hmem => mem_keys_iff.mp hmem hnew
        rw [if_pos hnew, Finset.card_insert_of_notMem hnot]
      · rw [if_neg hnew, Finset.insert_eq_of_mem (mem_keys_iff.mpr hnew)]
        rfl
    · exact ih

/-- Whatever the calls were, every node has a value or joins two others, values can be stored, each key
has one of them, and the nodes are fewer than two for each key. The next insertion reads no bit and no
part of a path that is not there. -/
theorem tree_invariant (entries : Entries) :
    entries.builder.tree.Reduced ∧
      (∀ v ∈ entries.builder.tree.values, v ≠ [] ∧ v.length ≤ 2 ^ 24 - 1) ∧
      entries.builder.tree.values.length = entries.keys.card ∧
      entries.builder.tree.size ≤ 2 * entries.keys.card - 1 ∧
      ∀ key value, entries.builder.tree.insertAt? (BitPath.ofBytes key) 0 value =
        some (entries.builder.tree.insert (BitPath.ofBytes key) value) := by
  have hred := entries.reduced_tree
  refine ⟨hred, fun v hv => Tree.accepted_of_mem_values hred hv, entries.length_values_tree, ?_,
    fun key value => Tree.insertAt?_eq _ _ 0 _⟩
  rw [← length_values_tree]
  by_cases hne : entries.builder.tree = .nil
  · rw [hne]
    exact Nat.zero_le _
  · exact Nat.le_pred_of_lt (Tree.size_lt_of_reduced hred hne)

end Entries

end BlockAudit.Trie
