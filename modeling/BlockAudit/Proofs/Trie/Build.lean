import BlockAudit.Proofs.Trie.Entries
import BlockAudit.Proofs.Trie.Parts

/-!
What a builder makes. Walking its root finds the last value accepted for every key, and the root
shows nothing else of the calls: a map has only one reduced tree.
-/
namespace BlockAudit.Trie

/-- The value at a key among the nodes in memory: the path has to match, and the bit after it
selects the side. -/
def Child.lookup : Child → BitPath → Option Bytes
  | .absent, _ => none
  | .hashed _, _ => none
  | .inMemory label left right, key =>
    if label.path.isPrefixOf key then
      match key.drop label.path.length with
      | [] => label.value
      | false :: rest => left.lookup rest
      | true :: rest => right.lookup rest
    else none

def Node.lookup (node : Node) (key : BitPath) : Option Bytes :=
  node.toChild.lookup key

namespace Tree

variable {path key : BitPath} {value : Option Bytes} {left right tree : Tree}

/-- The nodes of a tree hold what the tree holds. -/
theorem lookup_toChild (hred : tree.Reduced) (key : BitPath) :
    tree.toChild.lookup key = tree.lookup key := by
  induction tree generalizing key with
  | nil => rfl
  | node path value left right ihl ihr =>
    obtain ⟨-, hvalue, hl, hr⟩ := hred
    have hne : ∀ v ∈ value, v ≠ [] := fun v hv => (hvalue v hv).1
    have hleft : left.toChild.lookup = left.lookup := funext (ihl hl)
    have hright : right.toChild.lookup = right.lookup := funext (ihr hr)
    rw [toChild, Node.toChild, Child.lookup, Node.path_ofParts, Node.value_ofParts _ _ _ hne,
      Node.left_ofParts, Node.right_ofParts, hleft, hright]
    rfl

theorem lookup_toNode (hred : tree.Reduced) (key : BitPath) :
    tree.toNode.lookup key = tree.lookup key := by
  cases tree with
  | nil =>
    -- The root of the empty trie is a node of its own, without value and children.
    rw [toNode, Node.lookup, Node.toChild, Child.lookup]
    cases key with
    | nil => rfl
    | cons bit rest => cases bit <;> rfl
  | node path value left right => exact lookup_toChild hred key

/-- The path of a node is the longest front of all keys stored from there on. -/
theorem prefix_path {front : BitPath} (hred : (node path value left right).Reduced)
    (h : ∀ key v, (node path value left right).lookup key = some v → front <+: key) :
    front <+: path := by
  obtain ⟨hside, -, hl, hr⟩ := hred
  cases value with
  | some v => exact h path v lookup_path
  | none =>
    obtain ⟨hleft, hright⟩ := hside rfl
    obtain ⟨key, v, hkey⟩ := exists_lookup_of_reduced hl hleft
    obtain ⟨key', v', hkey'⟩ := exists_lookup_of_reduced hr hright
    have hfront : front <+: path ++ false :: key := h _ v (by simpa using hkey)
    have hfront' : front <+: path ++ true :: key' := h _ v' (by simpa using hkey')
    -- A longer front would hold the bit at which the two keys part.
    rcases List.prefix_or_prefix_of_prefix hfront (List.prefix_append path _) with hp | hp
    · exact hp
    · obtain ⟨rest, rfl⟩ := hp
      cases rest with
      | nil => simp
      | cons bit rest =>
        rw [List.prefix_append_right_inj, List.cons_prefix_cons] at hfront hfront'
        rw [hfront.1] at hfront'
        cases hfront'.1

/-- Reduced trees that give every key the same value are the same. -/
theorem eq_of_lookup_eq {t u : Tree} (ht : t.Reduced) (hu : u.Reduced)
    (h : ∀ key, t.lookup key = u.lookup key) : t = u := by
  induction t generalizing u with
  | nil =>
    by_contra hne
    obtain ⟨key, v, hkey⟩ := exists_lookup_of_reduced hu (Ne.symm hne)
    rw [← h key] at hkey
    cases hkey
  | node path value left right ihl ihr =>
    cases u with
    | nil =>
      obtain ⟨key, v, hkey⟩ := exists_lookup_of_reduced ht (by simp)
      rw [h key] at hkey
      cases hkey
    | node path' value' left' right' =>
      have hpath : path = path' := by
        have hle : path <+: path' := prefix_path hu fun key v hkey =>
          prefix_of_lookup ((h key).trans hkey)
        have hge : path' <+: path := prefix_path ht fun key v hkey =>
          prefix_of_lookup ((h key).symm.trans hkey)
        exact hle.eq_of_length_le hge.length_le
      subst hpath
      have hvalue : value = value' := by
        have hkey := h path
        rwa [lookup_path, lookup_path] at hkey
      have hside : ∀ (bit : Bool) key,
          (if bit then right else left).lookup key = (if bit then right' else left').lookup key := by
        intro bit key
        have hkey := h (path ++ bit :: key)
        rwa [lookup_append_cons, lookup_append_cons] at hkey
      obtain ⟨-, -, hl, hr⟩ := ht
      obtain ⟨-, -, hl', hr'⟩ := hu
      rw [hvalue, ihl hl hl' (hside false), ihr hr hr' (hside true)]

end Tree

/-- Each refused value has its own error, and the builder stays what it is. -/
theorem Builder.insert_eq_error_iff {builder : Builder} {key value : Bytes} {refusal : Refusal} :
    builder.insert key value = .error refusal ↔
      value = [] ∧ refusal = ⟨.emptyValue key, builder⟩ ∨
        Uint24.max < value.length ∧
          refusal = ⟨.valueTooLong (.exceeds24Bits value.length), builder⟩ := by
  by_cases hnil : value = []
  · simp [insert, hnil, eq_comm]
  · have hempty : value.isEmpty = false := by simpa using hnil
    by_cases hlen : value.length ≤ Uint24.max
    · simp [insert_of_accepted ⟨hnil, hlen⟩, hnil, Nat.not_lt.mpr hlen]
    · simp [insert, hempty, hnil, Uint24.encode, hlen, Nat.lt_of_not_le hlen, eq_comm]

namespace Entries

/-- The root of a builder maps every key to the last value that was accepted with it. Only empty values
and those of more than 24 bits of length are refused, and a refused call changes nothing. -/
theorem lookup_build (entries : Entries) (key value : Bytes) :
    entries.builder.build.lookup (BitPath.ofBytes key) = entries.value? key ∧
      (∀ refusal, entries.builder.insert key value = .error refusal ↔
        value = [] ∧ refusal = ⟨.emptyValue key, entries.builder⟩ ∨
          2 ^ 24 - 1 < value.length ∧
            refusal = ⟨.valueTooLong (.exceeds24Bits value.length), entries.builder⟩) ∧
      ((∃ refusal, entries.builder.insert key value = .error refusal) →
        builder (entries ++ [(key, value)]) = entries.builder) := by
  refine ⟨?_, fun refusal => Builder.insert_eq_error_iff, ?_⟩
  · rw [← lookup_tree]
    exact Tree.lookup_toNode entries.reduced_tree _
  · rintro ⟨refusal, hrefusal⟩
    have hsame : refusal.builder = entries.builder := by
      rcases Builder.insert_eq_error_iff.mp hrefusal with ⟨-, rfl⟩ | ⟨-, rfl⟩ <;> rfl
    rw [builder_concat, Builder.after, hrefusal]
    exact hsame

theorem lookup_build_sample :
    sample.builder.build.lookup (BitPath.ofBytes [0x00]) = some [1] ∧
      sample.builder.insert [0x00] [] = .error ⟨.emptyValue [0x00], sample.builder⟩ ∧
      builder (sample ++ [([0x00], [])]) = sample.builder := by
  obtain ⟨hlookup, herror, hsame⟩ := lookup_build sample [0x00] []
  have hrefused : sample.builder.insert [0x00] [] =
      .error ⟨.emptyValue [0x00], sample.builder⟩ := (herror _).mpr (.inl ⟨rfl, rfl⟩)
  exact ⟨hlookup, hrefused, hsame ⟨_, hrefused⟩⟩

/-- Only whole keys lead to values, and each to its own. -/
theorem lookup_tree_eq_some_iff {entries : Entries} {bits : BitPath} {v : Bytes} :
    entries.builder.tree.lookup bits = some v ↔
      ∃ key, bits = BitPath.ofBytes key ∧ entries.value? key = some v := by
  constructor
  · exact exists_key_of_lookup
  · rintro ⟨key, rfl, hkey⟩
    rw [lookup_tree, hkey]

variable {a b : Entries}

theorem tree_eq_of_value?_eq (h : ∀ key, a.value? key = b.value? key) :
    a.builder.tree = b.builder.tree := by
  apply Tree.eq_of_lookup_eq a.reduced_tree b.reduced_tree
  intro bits
  apply Option.ext
  intro v
  simp only [lookup_tree_eq_some_iff, h]

/-- The root depends on the map of the entries only, not on how the calls came to it. -/
theorem build_eq_of_value?_eq (h : ∀ key, a.value? key = b.value? key) :
    a.builder.build = b.builder.build ∧
      ∀ layout, a.builder.rootHash layout = b.builder.rootHash layout := by
  have hbuild : a.builder.build = b.builder.build := congrArg Tree.toNode (tree_eq_of_value?_eq h)
  refine ⟨hbuild, fun layout => ?_⟩
  rw [Builder.rootHash, hbuild, ← Builder.rootHash]

/-- Keys that begin with each other, shortest first. -/
def sampleDirect : Entries :=
  [([], [5]), ([1], [8]), ([1, 2], [7])]

/-- The same map, with a value that is replaced later and a refused call. -/
def sampleDetour : Entries :=
  [([1, 2], [7]), ([1], [9]), ([], [5]), ([1], [8]), ([1, 2], [])]

theorem value?_sampleDetour (key : Bytes) : sampleDetour.value? key = sampleDirect.value? key := by
  by_cases hnil : key = []
  · subst hnil
    decide
  · by_cases hone : key = [1]
    · subst hone
      decide
    · by_cases htwo : key = [1, 2]
      · subst htwo
        decide
      · simp [sampleDetour, sampleDirect, value?, hnil, Ne.symm hone, Ne.symm htwo]

theorem build_eq_of_value?_eq_sampleDetour :
    (∀ key, sampleDetour.value? key = sampleDirect.value? key) ∧
      sampleDetour.builder.build = sampleDirect.builder.build ∧
      sampleDetour.builder.rootHash .orchid = sampleDirect.builder.rootHash .orchid := by
  obtain ⟨hbuild, hroot⟩ := build_eq_of_value?_eq value?_sampleDetour
  exact ⟨value?_sampleDetour, hbuild, hroot .orchid⟩

end Entries

end BlockAudit.Trie
