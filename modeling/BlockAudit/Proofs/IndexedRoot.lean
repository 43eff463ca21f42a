import BlockAudit.IndexedRoot
import BlockAudit.Proofs.Rlp.Item
import BlockAudit.Proofs.Trie.Commitment

/-!
The root of a row of items. It exists where every item can be stored, and then it stands for the items and
their order, since no two positions share a key.
-/
namespace BlockAudit

open Trie

theorem indexKey_injective {i j : Nat} (h : indexKey i = indexKey j) : i = j := by
  rw [indexKey, indexKey, Rlp.Item.ofNat, Rlp.Item.ofNat, Rlp.Item.encode, Rlp.Item.encode] at h
  exact bigEndian_injective (Rlp.encodeBytes_injective h)

/-- Among the keys of positions that fit a machine word, none begins with another, bit by bit. -/
theorem eq_of_prefix_indexKey {i j : Nat} (hi : i < 2 ^ 64) (hj : j < 2 ^ 64)
    (h : BitPath.ofBytes (indexKey i) <+: BitPath.ofBytes (indexKey j)) : i = j := by
  have hpayload : ∀ n, n < 2 ^ 64 → (Rlp.Item.ofNat n).payload.length < 256 ^ 8 := by
    intro n hn
    have hdigits : (bigEndian n).length ≤ 8 := length_bigEndian_le hn
    change (bigEndian n).length < 256 ^ 8
    omega
  have hkey := BitPath.ofBytes_prefix_iff.mp h
  exact Rlp.Item.ofNat_inj (Rlp.Item.eq_of_prefix_encode (hpayload i hi) (hpayload j hj) hkey)

/-- The entries of a row of items, each under the key of its position. -/
def indexed (items : List Bytes) : Entries :=
  items.zipIdx.map fun (item, index) => (indexKey index, item)

variable {items items' : List Bytes} {layout : Layout} {root : Hash}

theorem indexed_concat (items : List Bytes) (item : Bytes) :
    indexed (items ++ [item]) = indexed items ++ [(indexKey items.length, item)] := by
  simp [indexed, List.zipIdx_append]

theorem value?_indexed (h : ∀ item ∈ items, Accepted item) (index : Nat) :
    (indexed items).value? (indexKey index) = items[index]? := by
  induction items using List.reverseRecOn with
  | nil => rfl
  | append_singleton items item ih =>
    have hitem : Accepted item := h item (by simp)
    rw [indexed_concat, Entries.value?_concat, ih fun i hi => h i (by simp [hi])]
    by_cases hindex : items.length = index
    · rw [if_pos ⟨congrArg indexKey hindex, hitem⟩, ← hindex]
      simp
    · rw [if_neg fun hkey => hindex (indexKey_injective hkey.1), List.getElem?_append]
      split
      · rfl
      · rw [List.getElem?_eq_none (by omega), List.getElem?_eq_none]
        rw [List.length_singleton]
        omega

theorem insertFrom_eq_ok_iff {builder result : Builder} {index : Nat} :
    insertFrom builder index items = .ok result ↔
      (∀ item ∈ items, Accepted item) ∧
        result = ((items.zipIdx index).map fun (item, i) => (indexKey i, item)).foldl
          (fun b (key, value) => b.after key value) builder := by
  induction items generalizing builder index with
  | nil => simp [insertFrom, eq_comm]
  | cons item items ih =>
    rw [insertFrom, bind_eq_ok_iff, List.zipIdx_cons, List.map_cons, List.foldl_cons]
    by_cases hitem : Accepted item
    · have hinsert := Builder.insert_of_accepted hitem builder (indexKey index)
      have hafter := Builder.after_of_accepted hitem builder (indexKey index)
      simp [hinsert, hafter, ih, hitem]
    · obtain ⟨e, hinsert⟩ := Builder.insert_of_not_accepted hitem builder (indexKey index)
      simp [hinsert, hitem]

theorem indexedRoot_eq_ok_iff :
    indexedRoot layout items = .ok root ↔
      (∀ item ∈ items, Accepted item) ∧ root = (indexed items).builder.rootHash layout := by
  rw [indexedRoot, bind_eq_ok_iff]
  simp only [insertFrom_eq_ok_iff, pure_eq_ok, Except.ok.injEq]
  constructor
  · rintro ⟨builder, ⟨haccepted, rfl⟩, rfl⟩
    exact ⟨haccepted, rfl⟩
  · rintro ⟨haccepted, rfl⟩
    exact ⟨_, ⟨haccepted, rfl⟩, rfl⟩

theorem exists_indexedRoot_eq_error_iff :
    (∃ error, indexedRoot layout items = .error error) ↔
      ∃ item ∈ items, item = [] ∨ 2 ^ 24 - 1 < item.length := by
  have hrefused : ∀ item : Bytes, ¬ Accepted item ↔ item = [] ∨ 2 ^ 24 - 1 < item.length := by
    intro item
    have hmax : Uint24.max = 2 ^ 24 - 1 := rfl
    rw [Accepted, hmax, not_and_or, not_not, Nat.not_le]
  simp only [← hrefused]
  cases hroot : indexedRoot layout items with
  | ok root =>
    obtain ⟨haccepted, -⟩ := indexedRoot_eq_ok_iff.mp hroot
    simpa using haccepted
  | error error =>
    have hnot : ¬ ∀ item ∈ items, Accepted item := fun haccepted => by
      have hok : indexedRoot layout items = .ok _ := indexedRoot_eq_ok_iff.mpr ⟨haccepted, rfl⟩
      rw [hroot] at hok
      cases hok
    simpa using hnot

/-- Every item stands in a leaf of its own. -/
theorem leaf_of_getElem? (haccepted : ∀ item ∈ items, Accepted item) (hlen : items.length ≤ 2 ^ 64)
    {index : Nat} {item : Bytes} (h : items[index]? = some item) :
    (indexed items).builder.tree.lookup (BitPath.ofBytes (indexKey index)) = some item ∧
      ∃ path, ((indexed items).builder.tree.visited (BitPath.ofBytes (indexKey index))).getLast? =
        some (.leaf path item) := by
  have hlookup : (indexed items).builder.tree.lookup (BitPath.ofBytes (indexKey index)) =
      some item := by
    rw [Entries.lookup_tree, value?_indexed haccepted, h]
  obtain ⟨hindex, -⟩ := List.getElem?_eq_some_iff.mp h
  refine ⟨hlookup, Tree.exists_leaf_of_lookup (Entries.reduced_tree _) hlookup ?_⟩
  intro k w hk hprefix
  obtain ⟨key, rfl, hkey⟩ := Entries.exists_key_of_lookup hk
  obtain ⟨⟨stored, other⟩, hmem, hentry⟩ := List.mem_map.mp (Entries.mem_of_value? hkey)
  obtain ⟨rfl, rfl⟩ := Prod.mk.inj hentry
  obtain ⟨-, hother, -⟩ := List.mem_zipIdx hmem
  rw [eq_of_prefix_indexKey (by omega) (by omega) hprefix]

/-- Without collisions in what is hashed, rows of items with the same root are the same. -/
theorem eq_of_indexedRoot_eq {known : List Bytes} (hfree : CollisionFree known)
    (hempty : [0x80] ∈ known) (hk : (indexed items).builder.tree.digests layout ⊆ known)
    (hk' : (indexed items').builder.tree.digests layout ⊆ known)
    (h : indexedRoot layout items = .ok root) (h' : indexedRoot layout items' = .ok root) :
    items = items' := by
  obtain ⟨haccepted, hroot⟩ := indexedRoot_eq_ok_iff.mp h
  obtain ⟨haccepted', hroot'⟩ := indexedRoot_eq_ok_iff.mp h'
  have htree : (indexed items).builder.tree = (indexed items').builder.tree :=
    Tree.eq_of_digests layout hfree hempty (Entries.reduced_tree _) (Entries.reduced_tree _) hk hk'
      (hroot.symm.trans hroot')
  apply List.ext_getElem?
  intro index
  rw [← value?_indexed haccepted, ← value?_indexed haccepted', ← Entries.lookup_tree,
    ← Entries.lookup_tree, htree]

/-- A row has a root unless an item is empty or too long to be stored. The root is that of a trie in
which every position has a leaf of its own, and it stands for the items and their order. -/
theorem indexedRoot_commits (layout : Layout) (items : List Bytes) :
    ((∃ error, indexedRoot layout items = .error error) ↔
        ∃ item ∈ items, item = [] ∨ 2 ^ 24 - 1 < item.length) ∧
      (∀ i j, i < 2 ^ 64 → j < 2 ^ 64 →
        BitPath.ofBytes (indexKey i) <+: BitPath.ofBytes (indexKey j) → i = j) ∧
      ∀ root, indexedRoot layout items = .ok root →
        root = (indexed items).builder.rootHash layout ∧
          (items.length ≤ 2 ^ 64 → ∀ index item, items[index]? = some item →
            (indexed items).builder.tree.lookup (BitPath.ofBytes (indexKey index)) = some item ∧
              ∃ path, ((indexed items).builder.tree.visited
                (BitPath.ofBytes (indexKey index))).getLast? = some (.leaf path item)) ∧
          ∀ items', indexedRoot layout items' = .ok root →
            CollisionFree ((indexed items).builder.tree.hashed layout ++
              (indexed items').builder.tree.hashed layout ++ [[0x80]]) →
            items = items' := by
  refine ⟨exists_indexedRoot_eq_error_iff, fun i j hi hj h => eq_of_prefix_indexKey hi hj h, ?_⟩
  intro root h
  obtain ⟨haccepted, hroot⟩ := indexedRoot_eq_ok_iff.mp h
  refine ⟨hroot, fun hlen index item hitem => leaf_of_getElem? haccepted hlen hitem, ?_⟩
  intro items' h' hfree
  have hsub := Tree.digests_subset_hashed layout (indexed items).builder.tree
  have hsub' := Tree.digests_subset_hashed layout (indexed items').builder.tree
  refine eq_of_indexedRoot_eq hfree (by simp) ?_ ?_ h h'
  · exact List.Subset.trans hsub (by simp)
  · exact List.Subset.trans hsub' (by simp)

/-- Two items, of which the second is too long to be written inside a node. -/
theorem indexedRoot_commits_long_item :
    ∃ root, indexedRoot .orchid [[1], List.replicate 40 7] = .ok root ∧
      indexedRoot .orchid (List.reverse [List.replicate 40 7, [1]]) = .ok root ∧
      [[1], List.replicate 40 7] = List.reverse [List.replicate 40 7, ([1] : Bytes)] ∧
      ∃ path, ((indexed [[1], List.replicate 40 7]).builder.tree.visited
        (BitPath.ofBytes (indexKey 1))).getLast? = some (.leaf path (List.replicate 40 7)) := by
  obtain ⟨-, -, h⟩ := indexedRoot_commits .orchid [[1], List.replicate 40 7]
  have haccepted : ∀ item ∈ [[1], List.replicate 40 7], Accepted item := by decide
  have hroot : indexedRoot .orchid [[1], List.replicate 40 7] = .ok _ :=
    indexedRoot_eq_ok_iff.mpr ⟨haccepted, rfl⟩
  obtain ⟨-, hleaf, heq⟩ := h _ hroot
  exact ⟨_, hroot, hroot, heq _ hroot (by decide +kernel), (hleaf (by decide) 1 _ rfl).2⟩

end BlockAudit
