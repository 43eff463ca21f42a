import BlockAudit.Proofs.Keccak
import BlockAudit.Proofs.Trie.Entries
import BlockAudit.Proofs.Trie.OrchidInjective
import BlockAudit.Proofs.Trie.TreeNode

/-!
The hash of a root stands for all that is below it. Where no two messages or values have the same
hash, tries with the same root hash are the same tree, and so have the same entries.
-/
namespace BlockAudit.Trie

section Value

variable {path path' : BitPath} {value value' : Option Bytes} {left right left' right' : Child}

def isLongOf (value : Option Bytes) : Bool :=
  value.any fun v => maxInlineValue < v.length

/-- A short value in full, a long one by its hash. -/
def valueLinkOf : Option Bytes → Bytes
  | none => []
  | some v => if v.length ≤ maxInlineValue then v else (keccak v).toBytes

theorem Node.valueLink_ofParts (path : BitPath) (left right : Child) (hv : ∀ v ∈ value, v ≠ []) :
    (Node.ofParts path value left right).valueLink = valueLinkOf value := by
  unfold Label.valueLink
  rw [Node.value_ofParts path left right hv, Node.valueHash_ofParts path left right hv]
  cases value with
  | none => rfl
  | some v =>
    rw [Option.bind_some, valueLinkOf]
    by_cases hshort : v.length ≤ maxInlineValue
    · rw [if_pos hshort, if_pos hshort]
      rfl
    · rw [if_neg hshort, if_neg hshort]

theorem length_valueLinkOf_le (value : Option Bytes) : (valueLinkOf value).length ≤ 32 := by
  have hmax : maxInlineValue = 32 := rfl
  cases value with
  | none => simp [valueLinkOf]
  | some v =>
    rw [valueLinkOf]
    split
    · omega
    · exact Nat.le_of_eq (keccak v).length_toBytes

theorem Node.isLong_ofParts (path : BitPath) (left right : Child) (hv : ∀ v ∈ value, v ≠ []) :
    (Node.ofParts path value left right).isLong = isLongOf value := by
  unfold Label.isLong isLongOf
  rw [Node.valueHash_ofParts path left right hv]
  cases value with
  | none => rfl
  | some v =>
    rw [Option.bind_some, Option.any_some]
    by_cases hshort : v.length ≤ maxInlineValue
    · simp [hshort]
    · simp [hshort, Nat.lt_of_not_le hshort]

/-- What a message has of a value tells which value it is. -/
theorem eq_of_valueLinkOf_eq {known : List Bytes} (hfree : CollisionFree known)
    (hv : ∀ v ∈ value, v ≠ [] ∧ (maxInlineValue < v.length → v ∈ known))
    (hv' : ∀ v ∈ value', v ≠ [] ∧ (maxInlineValue < v.length → v ∈ known))
    (hlong : isLongOf value = isLongOf value') (hlink : valueLinkOf value = valueLinkOf value') :
    value = value' := by
  unfold isLongOf at hlong
  cases value with
  | none =>
    cases value' with
    | none => rfl
    | some w =>
      have hshort : w.length ≤ maxInlineValue := by simpa using hlong
      rw [valueLinkOf, valueLinkOf, if_pos hshort] at hlink
      exact absurd hlink.symm (hv' w rfl).1
  | some v =>
    cases value' with
    | none =>
      have hshort : v.length ≤ maxInlineValue := by simpa using hlong
      rw [valueLinkOf, valueLinkOf, if_pos hshort] at hlink
      exact absurd hlink (hv v rfl).1
    | some w =>
      have hiff : maxInlineValue < v.length ↔ maxInlineValue < w.length := by simpa using hlong
      rw [valueLinkOf, valueLinkOf] at hlink
      by_cases hshort : v.length ≤ maxInlineValue
      · rw [if_pos hshort, if_pos (by omega)] at hlink
        rw [hlink]
      · rw [if_neg hshort, if_neg (by omega)] at hlink
        have hvk := (hv v rfl).2 (by omega)
        have hwk := (hv' w rfl).2 (by omega)
        rw [hfree v hvk w hwk (FixedBytes.ext hlink)]

end Value

namespace Tree

open Rskip107

/-- How a subtree stands in the message of its parent: not at all, as a whole, or by its hash. -/
def link : Layout → Tree → Slot
  | .orchid, tree => tree.toChild.orchidHash?.elim .absent .hash
  | .rskip107, tree => tree.toChild.written.slot

/-- The message of a subtree, if its parent has the hash of it. -/
def linkDigest (layout : Layout) (tree : Tree) : List Bytes :=
  match tree.link layout with
  | .hash _ => [tree.toNode.messageIn layout]
  | _ => []

/-- What is hashed on the way to the message of a tree: the values too long for their nodes, and the
messages of the nodes below that their parents have by hash. -/
def inner (layout : Layout) : Tree → List Bytes
  | .nil => []
  | .node _ value left right =>
    (value.filter fun v => maxInlineValue < v.length).toList ++
      ((left.linkDigest layout ++ left.inner layout) ++
        (right.linkDigest layout ++ right.inner layout))

/-- What is hashed on the way to the root hash. The hash of the empty trie is a constant. -/
def digests (layout : Layout) (tree : Tree) : List Bytes :=
  if tree = .nil then [] else tree.toNode.messageIn layout :: tree.inner layout

variable {t u : Tree} {known : List Bytes}

theorem link_nil (layout : Layout) : link layout .nil = .absent := by
  cases layout <;> rfl

theorem link_cases (layout : Layout) (hred : t.Reduced) (hne : t ≠ .nil) :
    t.link layout = .inline (t.toNode.messageIn layout) ∨
      t.link layout = .hash (keccak (t.toNode.messageIn layout)) := by
  have hhash := hashIn_toNode layout hred hne
  cases layout with
  | orchid =>
    rw [link, toChild_eq hne, ← hhash]
    exact .inr rfl
  | rskip107 =>
    rw [link, toChild_eq hne, Node.toChild, Child.slot_inMemory, ← hhash]
    split
    · exact .inl rfl
    · exact .inr rfl

theorem eq_nil_iff_of_link_eq (layout : Layout) (ht : t.Reduced) (hu : u.Reduced)
    (h : t.link layout = u.link layout) : t = .nil ↔ u = .nil := by
  have hlink : ∀ s : Tree, s.Reduced → (s = .nil ↔ s.link layout = .absent) := by
    intro s hs
    constructor
    · rintro rfl
      exact link_nil layout
    · intro habsent
      by_contra hne
      rcases link_cases layout hs hne with hlink | hlink <;> rw [hlink] at habsent <;> cases habsent
  rw [hlink t ht, hlink u hu, h]

/-- Without collisions, subtrees that stand alike in messages have the same message. -/
theorem messageIn_eq_of_link_eq (layout : Layout) (hfree : CollisionFree known) (ht : t.Reduced)
    (hu : u.Reduced) (htn : t ≠ .nil) (hun : u ≠ .nil) (htk : t.linkDigest layout ⊆ known)
    (huk : u.linkDigest layout ⊆ known) (h : t.link layout = u.link layout) :
    t.toNode.messageIn layout = u.toNode.messageIn layout := by
  unfold linkDigest at htk huk
  rcases link_cases layout ht htn with hlink | hlink <;>
    rcases link_cases layout hu hun with hlink' | hlink' <;> rw [hlink, hlink'] at h
  · exact Slot.inline.inj h
  · cases h
  · cases h
  · rw [hlink] at htk
    rw [hlink'] at huk
    exact hfree _ (htk List.mem_cons_self) _ (huk List.mem_cons_self) (Slot.hash.inj h)

/-- Equal messages of trees come from the same path, from values that show alike, and from subtrees
that stand alike. -/
theorem parts_eq_of_messageIn_eq (layout : Layout) {p p' : BitPath} {v v' : Option Bytes}
    {l r l' r' : Tree} (ht : (node p v l r).Reduced) (hu : (node p' v' l' r').Reduced)
    (h : (node p v l r).toNode.messageIn layout = (node p' v' l' r').toNode.messageIn layout) :
    p = p' ∧ isLongOf v = isLongOf v' ∧ valueLinkOf v = valueLinkOf v' ∧
      l.link layout = l'.link layout ∧ r.link layout = r'.link layout := by
  obtain ⟨-, hv, -, -⟩ := ht
  obtain ⟨-, hv', -, -⟩ := hu
  have hne : ∀ w ∈ v, w ≠ [] := fun w hw => (hv w hw).1
  have hne' : ∀ w ∈ v', w ≠ [] := fun w hw => (hv' w hw).1
  have hlink := Node.valueLink_ofParts p l.toChild r.toChild hne
  have hlink' := Node.valueLink_ofParts p' l'.toChild r'.toChild hne'
  have hlong := Node.isLong_ofParts p l.toChild r.toChild hne
  have hlong' := Node.isLong_ofParts p' l'.toChild r'.toChild hne'
  rw [toNode, toNode] at h
  cases layout with
  | rskip107 =>
    obtain ⟨hpath, hleft, hright, hislong, hvalue⟩ := Node.message_inj
      (Label.length_valueBytes_le (Node.length_value_ofParts_le p l.toChild r.toChild hne))
      (Label.length_valueBytes_le (Node.length_value_ofParts_le p' l'.toChild r'.toChild hne')) h
    rw [Node.path_ofParts, Node.path_ofParts] at hpath
    rw [Node.left_ofParts, Node.left_ofParts] at hleft
    rw [Node.right_ofParts, Node.right_ofParts] at hright
    rw [hlong, hlong'] at hislong
    rw [hlink, hlink'] at hvalue
    exact ⟨hpath, hislong, hvalue, hleft, hright⟩
  | orchid =>
    have hlen := length_valueLinkOf_le v
    have hlen' := length_valueLinkOf_le v'
    rw [← hlink] at hlen
    rw [← hlink'] at hlen'
    obtain ⟨hpath, hleft, hright, hislong, hvalue⟩ := Orchid.messageWith_inj hlen hlen' h
    rw [Node.path_ofParts, Node.path_ofParts] at hpath
    rw [Node.left_ofParts, Node.left_ofParts] at hleft
    rw [Node.right_ofParts, Node.right_ofParts] at hright
    rw [hlong, hlong'] at hislong
    rw [hlink, hlink'] at hvalue
    refine ⟨hpath, hislong, hvalue, ?_, ?_⟩
    · rw [link, link, hleft]
    · rw [link, link, hright]

theorem inner_child_subset (layout : Layout) {p : BitPath} {v : Option Bytes} {l r : Tree}
    (h : (node p v l r).inner layout ⊆ known) :
    (l.linkDigest layout ⊆ known ∧ l.inner layout ⊆ known) ∧
      (r.linkDigest layout ⊆ known ∧ r.inner layout ⊆ known) ∧
      ∀ w ∈ v, maxInlineValue < w.length → w ∈ known := by
  rw [inner] at h
  simp only [List.append_subset] at h
  obtain ⟨hv, hl, hr⟩ := h
  refine ⟨hl, hr, fun w hw hlong => hv ?_⟩
  rw [Option.mem_toList]
  exact Option.filter_eq_some_iff.mpr ⟨hw, by simpa using hlong⟩

private theorem eq_of_link_eq (layout : Layout) (hfree : CollisionFree known) (ht : t.Reduced)
    (hu : u.Reduced) (htk : t.linkDigest layout ⊆ known) (huk : u.linkDigest layout ⊆ known)
    (ih : t ≠ .nil → u ≠ .nil → t.toNode.messageIn layout = u.toNode.messageIn layout → t = u)
    (h : t.link layout = u.link layout) : t = u := by
  have hnil := eq_nil_iff_of_link_eq layout ht hu h
  by_cases htn : t = .nil
  · rw [htn, hnil.mp htn]
  · have hun : u ≠ .nil := fun hu => htn (hnil.mpr hu)
    exact ih htn hun (messageIn_eq_of_link_eq layout hfree ht hu htn hun htk huk h)

/-- Without collisions, a message stands for all that is below it. -/
theorem eq_of_messageIn_eq (layout : Layout) (hfree : CollisionFree known) (ht : t.Reduced)
    (hu : u.Reduced) (htn : t ≠ .nil) (hun : u ≠ .nil) (htk : t.inner layout ⊆ known)
    (huk : u.inner layout ⊆ known)
    (h : t.toNode.messageIn layout = u.toNode.messageIn layout) : t = u := by
  induction t generalizing u with
  | nil => exact absurd rfl htn
  | node p v l r ihl ihr =>
    cases u with
    | nil => exact absurd rfl hun
    | node p' v' l' r' =>
      obtain ⟨hpath, hlong, hlink, hleft, hright⟩ := parts_eq_of_messageIn_eq layout ht hu h
      obtain ⟨⟨hld, hlk⟩, ⟨hrd, hrk⟩, hvk⟩ := inner_child_subset layout htk
      obtain ⟨⟨hld', hlk'⟩, ⟨hrd', hrk'⟩, hvk'⟩ := inner_child_subset layout huk
      obtain ⟨-, hv, hl, hr⟩ := ht
      obtain ⟨-, hv', hl', hr'⟩ := hu
      have hvalue : v = v' := eq_of_valueLinkOf_eq hfree (fun w hw => ⟨(hv w hw).1, hvk w hw⟩)
        (fun w hw => ⟨(hv' w hw).1, hvk' w hw⟩) hlong hlink
      have hleft : l = l' := eq_of_link_eq layout hfree hl hl' hld hld'
        (fun hn hn' => ihl hl hl' hn hn' hlk hlk') hleft
      have hright : r = r' := eq_of_link_eq layout hfree hr hr' hrd hrd'
        (fun hn hn' => ihr hr hr' hn hn' hrk hrk') hright
      rw [hpath, hvalue, hleft, hright]

/-- Without collisions, the empty trie has a hash of its own. -/
theorem hashIn_ne_empty (layout : Layout) (hfree : CollisionFree known) (hempty : [0x80] ∈ known)
    (hu : u.Reduced) (hne : u ≠ .nil) (huk : u.toNode.messageIn layout ∈ known) :
    u.toNode.hashIn layout ≠ emptyTrieHash := by
  intro h
  rw [hashIn_toNode layout hu hne] at h
  exact u.toNode.messageIn_ne layout (hfree _ huk [0x80] hempty h)

theorem subset_of_digests_subset (layout : Layout) (hne : t ≠ .nil)
    (h : t.digests layout ⊆ known) : t.toNode.messageIn layout ∈ known ∧ t.inner layout ⊆ known := by
  rw [digests, if_neg hne] at h
  exact List.cons_subset.mp h

/-- Without collisions in what is really hashed, reduced trees with the same root hash are the same. -/
theorem eq_of_digests (layout : Layout) (hfree : CollisionFree known) (hempty : [0x80] ∈ known)
    (ht : t.Reduced) (hu : u.Reduced) (htk : t.digests layout ⊆ known)
    (huk : u.digests layout ⊆ known) (h : t.toNode.hashIn layout = u.toNode.hashIn layout) :
    t = u := by
  by_cases htn : t = .nil <;> by_cases hun : u = .nil
  · rw [htn, hun]
  · rw [htn, hashIn_nil] at h
    have hmessage := (subset_of_digests_subset layout hun huk).1
    exact absurd h.symm (hashIn_ne_empty layout hfree hempty hu hun hmessage)
  · rw [hun, hashIn_nil] at h
    have hmessage := (subset_of_digests_subset layout htn htk).1
    exact absurd h (hashIn_ne_empty layout hfree hempty ht htn hmessage)
  · obtain ⟨hmessage, hinner⟩ := subset_of_digests_subset layout htn htk
    obtain ⟨hmessage', hinner'⟩ := subset_of_digests_subset layout hun huk
    rw [hashIn_toNode layout ht htn, hashIn_toNode layout hu hun] at h
    exact eq_of_messageIn_eq layout hfree ht hu htn hun hinner hinner'
      (hfree _ hmessage _ hmessage' h)

/-- Below a tree nothing is hashed that is not hashed of the tree. -/
theorem hashed_child_subset (layout : Layout) {p : BitPath} {v : Option Bytes} {l r : Tree}
    (h : (node p v l r).hashed layout ⊆ known) :
    l.hashed layout ⊆ known ∧ r.hashed layout ⊆ known ∧ ∀ w ∈ v, w ∈ known := by
  unfold hashed at h ⊢
  rw [messages, values] at h
  simp only [List.append_subset, List.cons_subset] at h ⊢
  obtain ⟨⟨-, hl, hr⟩, hv, hlv, hrv⟩ := h
  exact ⟨⟨hl, hlv⟩, ⟨hr, hrv⟩, fun w hw => hv (Option.mem_toList.mpr hw)⟩

theorem linkDigest_subset_hashed (layout : Layout) (tree : Tree) :
    tree.linkDigest layout ⊆ tree.hashed layout := by
  by_cases hne : tree = .nil
  · rw [hne, linkDigest, link_nil]
    exact List.nil_subset _
  · unfold linkDigest
    split
    · exact List.cons_subset.mpr ⟨messageIn_mem_hashed layout hne, List.nil_subset _⟩
    · exact List.nil_subset _

theorem inner_subset_hashed (layout : Layout) (tree : Tree) :
    tree.inner layout ⊆ tree.hashed layout := by
  induction tree with
  | nil => exact List.nil_subset _
  | node path value left right ihl ihr =>
    have hleft := List.append_subset.mpr ⟨linkDigest_subset_hashed layout left, ihl⟩
    have hright := List.append_subset.mpr ⟨linkDigest_subset_hashed layout right, ihr⟩
    obtain ⟨hl, hr, hv⟩ := hashed_child_subset layout
      (List.Subset.refl ((node path value left right).hashed layout))
    refine List.append_subset.mpr ⟨fun w hw => ?_,
      List.append_subset.mpr ⟨List.Subset.trans hleft hl, List.Subset.trans hright hr⟩⟩
    exact hv w (Option.filter_eq_some_iff.mp (Option.mem_toList.mp hw)).1

/-- Nothing else is hashed than messages and values of nodes. -/
theorem digests_subset_hashed (layout : Layout) (tree : Tree) :
    tree.digests layout ⊆ tree.hashed layout := by
  unfold digests
  split
  · exact List.nil_subset _
  · rename_i hne
    exact List.cons_subset.mpr ⟨messageIn_mem_hashed layout hne, inner_subset_hashed layout tree⟩

theorem eq_of_hashIn_eq (layout : Layout) (hfree : CollisionFree known) (hempty : [0x80] ∈ known)
    (ht : t.Reduced) (hu : u.Reduced) (htk : t.hashed layout ⊆ known)
    (huk : u.hashed layout ⊆ known) (h : t.toNode.hashIn layout = u.toNode.hashIn layout) :
    t = u :=
  eq_of_digests layout hfree hempty ht hu (List.Subset.trans (digests_subset_hashed layout t) htk)
    (List.Subset.trans (digests_subset_hashed layout u) huk) h

end Tree

/-- The root hash of a trie tells what value every key has, in either layout. -/
theorem rootHash_injective (layout : Layout) (a b : Entries)
    (hfree : CollisionFree
      (a.builder.tree.hashed layout ++ b.builder.tree.hashed layout ++ [[0x80]]))
    (h : a.builder.rootHash layout = b.builder.rootHash layout) : a.value? = b.value? := by
  let known := a.builder.tree.hashed layout ++ b.builder.tree.hashed layout ++ [[0x80]]
  have ha : a.builder.tree.hashed layout ⊆ known := by simp [known]
  have hb : b.builder.tree.hashed layout ⊆ known := by simp [known]
  have htree : a.builder.tree = b.builder.tree :=
    Tree.eq_of_hashIn_eq layout hfree (by simp) a.reduced_tree b.reduced_tree ha hb h
  funext key
  rw [← a.lookup_tree, ← b.lookup_tree, htree]

/-- The order of insertions with different keys does not show in the root hash. -/
theorem rootHash_injective_reverse :
    Entries.sample.builder.rootHash .orchid =
        (Entries.builder Entries.sample.reverse).rootHash .orchid ∧
      Entries.sample.value? = Entries.value? Entries.sample.reverse := by
  have hroot : Entries.sample.builder.rootHash .orchid =
      (Entries.builder Entries.sample.reverse).rootHash .orchid := by decide +kernel
  exact ⟨hroot, rootHash_injective .orchid Entries.sample Entries.sample.reverse
    (by decide +kernel) hroot⟩

end BlockAudit.Trie
