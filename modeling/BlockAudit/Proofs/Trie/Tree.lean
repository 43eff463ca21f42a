import BlockAudit.Trie.Builder
import BlockAudit.Proofs.BitPath

/-!
Trees as maps from keys to values. Looking a key up follows the paths; an insertion changes the
value of its own key and of no other, and keeps every node of use.
-/
namespace BlockAudit.Trie

/-- The values that a node can hold. -/
def Accepted (value : Bytes) : Prop :=
  value ≠ [] ∧ value.length ≤ Uint24.max

instance (value : Bytes) : Decidable (Accepted value) :=
  inferInstanceAs (Decidable (_ ∧ _))

theorem Accepted.toNat_length {value : Bytes} (h : Accepted value) :
    (UInt32.ofNat value.length).toNat = value.length := by
  have hmax : Uint24.max = 2 ^ 24 - 1 := rfl
  have hlen := h.2
  rw [UInt32.toNat_ofNat', Nat.mod_eq_of_lt (by omega)]

namespace Tree

/-- The value at a key: the path has to match, and the bit after it selects the side. -/
def lookup : Tree → BitPath → Option Bytes
  | .nil, _ => none
  | .node path value left right, key =>
    if path.isPrefixOf key then
      match key.drop path.length with
      | [] => value
      | false :: rest => left.lookup rest
      | true :: rest => right.lookup rest
    else none

/-- Every node has a value or both sides, and every value can be stored. -/
def Reduced : Tree → Prop
  | .nil => True
  | .node _ value left right =>
    (value = none → left ≠ .nil ∧ right ≠ .nil) ∧ (∀ v ∈ value, Accepted v) ∧
      left.Reduced ∧ right.Reduced

variable {path key rest : BitPath} {value : Option Bytes} {left right : Tree}

@[simp] theorem lookup_nil (key : BitPath) : lookup .nil key = none := rfl

theorem lookup_path : (node path value left right).lookup path = value := by
  simp [lookup]

@[simp] theorem lookup_append_cons (bit : Bool) :
    (node path value left right).lookup (path ++ bit :: rest) =
      (if bit then right else left).lookup rest := by
  cases bit <;> simp [lookup]

theorem lookup_eq_none (h : ¬ path <+: key) : (node path value left right).lookup key = none := by
  rw [lookup, if_neg (by simpa using h)]

theorem prefix_of_lookup {v : Bytes} (h : (node path value left right).lookup key = some v) :
    path <+: key := by
  by_contra hp
  rw [lookup_eq_none hp] at h
  cases h

theorem lookup_append_append (front : BitPath) :
    (node (front ++ path) value left right).lookup (front ++ key) =
      (node path value left right).lookup key := by
  simp [lookup, List.prefix_append_right_inj, ← List.drop_drop]

theorem lookup_cons_cons (bit b : Bool) :
    (node (bit :: path) value left right).lookup (b :: key) =
      if b = bit then (node path value left right).lookup key else none := by
  split
  · rename_i h
    subst h
    exact lookup_append_append [b]
  · rename_i h
    exact lookup_eq_none fun hp => h (List.cons_prefix_cons.mp hp).1.symm

theorem lookup_cons_nil (bit : Bool) : (node (bit :: path) value left right).lookup [] = none :=
  lookup_eq_none (by simp)

theorem lookup_within (front : BitPath) (bit : Bool) :
    (node (front ++ bit :: path) value left right).lookup front = none := by
  have h : (node (front ++ bit :: path) value left right).lookup (front ++ []) =
      (node (bit :: path) value left right).lookup [] := lookup_append_append front
  rwa [List.append_nil, lookup_cons_nil] at h

theorem lookup_parted (front : BitPath) {bit b : Bool} (h : bit ≠ b) :
    (node (front ++ bit :: path) value left right).lookup (front ++ b :: rest) = none := by
  rw [lookup_append_append, lookup_cons_cons, if_neg (Ne.symm h)]

theorem lookup_eq_none_of_front {front : BitPath} (h : ¬ front <+: key) :
    (node (front ++ path) value left right).lookup key = none :=
  lookup_eq_none fun hp => h ((List.prefix_append front path).trans hp)

@[simp] theorem lookup_leaf (v : Bytes) :
    (leaf path v).lookup key = if key = path then some v else none := by
  rcases BitPath.front_cases path key with hp | rfl | ⟨bit, rest, rfl⟩
  · have hne : key ≠ path := fun h => hp (h ▸ List.prefix_rfl)
    rw [leaf, lookup_eq_none hp, if_neg hne]
  · rw [leaf, lookup_path, if_pos rfl]
  · simp [leaf]

theorem lookup_fork_path (bit : Bool) (tree other : Tree) :
    (fork path value bit tree other).lookup path = value := by
  cases bit <;> exact lookup_path

theorem lookup_fork_cons (bit b : Bool) (tree other : Tree) :
    (fork path value bit tree other).lookup (path ++ b :: rest) =
      if b = bit then tree.lookup rest else other.lookup rest := by
  cases bit <;> cases b <;> simp [fork]

theorem lookup_fork_eq_none (bit : Bool) (tree other : Tree) (h : ¬ path <+: key) :
    (fork path value bit tree other).lookup key = none := by
  cases bit <;> exact lookup_eq_none h

section Insert

variable (front : BitPath) (v : Bytes)

theorem insert_path :
    (node path value left right).insert path v = node path (some v) left right := by
  have hc := BitPath.commonPrefixLength_append path (a := []) (b := []) (by simp [BitPath.Parted])
  simp only [List.append_nil] at hc
  simp [insert, hc]

theorem insert_append_cons (bit : Bool) :
    (node path value left right).insert (path ++ bit :: rest) v =
      if bit then node path value left (right.insert rest v)
      else node path value (left.insert rest v) right := by
  have hc := BitPath.commonPrefixLength_append path (a := []) (b := bit :: rest)
    (by simp [BitPath.Parted])
  simp only [List.append_nil] at hc
  cases bit <;> simp [insert, hc]

/-- A key that ends within the path cuts it. -/
theorem insert_front (bit : Bool) (below : BitPath) :
    (node (front ++ bit :: below) value left right).insert front v =
      fork front (some v) bit (node below value left right) .nil := by
  have hc := BitPath.commonPrefixLength_append front (a := bit :: below) (b := [])
    (by simp [BitPath.Parted])
  simp only [List.append_nil] at hc
  simp [insert, hc]

/-- A key that leaves the path cuts it and puts a leaf on the other side. -/
theorem insert_parted {bit b : Bool} (below : BitPath) (h : bit ≠ b) :
    (node (front ++ bit :: below) value left right).insert (front ++ b :: rest) v =
      fork front none bit (node below value left right) (leaf rest v) := by
  have hc := BitPath.commonPrefixLength_append front (a := bit :: below) (b := b :: rest)
    (by simpa using h)
  simp [insert, hc]

end Insert

/-- The four ways in which a key meets the path of a node. -/
theorem meet_cases {motive : BitPath → BitPath → Prop}
    (same : ∀ path, motive path path)
    (below : ∀ path bit rest, motive path (path ++ bit :: rest))
    (within : ∀ front bit rest, motive (front ++ bit :: rest) front)
    (parted : ∀ front bit p b k, bit ≠ b → motive (front ++ bit :: p) (front ++ b :: k))
    (path key : BitPath) : motive path key := by
  obtain ⟨front, p, k, rfl, rfl, hp⟩ := BitPath.exists_common_front path key
  cases p with
  | nil =>
    cases k with
    | nil => exact same _
    | cons b k => simpa using below front b k
  | cons bit p =>
    cases k with
    | nil => simpa using within front bit p
    | cons b k => exact parted front bit p b k (by simpa using hp)

theorem insert_ne_nil (tree : Tree) (key : BitPath) (v : Bytes) : tree.insert key v ≠ .nil := by
  cases tree with
  | nil => simp [insert, leaf]
  | node path value left right =>
    induction path, key using meet_cases with
    | same path => simp [insert_path]
    | below path bit rest => cases bit <;> simp [insert_append_cons]
    | within front bit rest => cases bit <;> simp [insert_front, fork]
    | parted front bit p b k h => cases bit <;> simp [insert_parted, h, fork]

/-- An insertion sets the value of its own key and of no other. -/
theorem lookup_insert (tree : Tree) (key : BitPath) (v : Bytes) (query : BitPath) :
    (tree.insert key v).lookup query = if query = key then some v else tree.lookup query := by
  induction tree generalizing key query with
  | nil => simp [insert]
  | node path value left right ihl ihr =>
    induction path, key using meet_cases with
    | same path =>
      rw [insert_path]
      rcases BitPath.front_cases path query with hq | rfl | ⟨c, q, rfl⟩
      · have hne : query ≠ path := fun h => hq (h ▸ List.prefix_rfl)
        rw [if_neg hne, lookup_eq_none hq, lookup_eq_none hq]
      · rw [if_pos rfl, lookup_path]
      · simp
    | below path bit rest =>
      rw [insert_append_cons]
      rcases BitPath.front_cases path query with hq | rfl | ⟨c, q, rfl⟩
      · have hne : query ≠ path ++ bit :: rest := fun h => hq (h ▸ List.prefix_append _ _)
        rw [if_neg hne, lookup_eq_none hq]
        cases bit <;> exact lookup_eq_none hq
      · cases bit <;> simp [lookup_path]
      · cases bit <;> cases c <;> simp [ihl, ihr]
    | within front bit rest =>
      rw [insert_front]
      rcases BitPath.front_cases front query with hq | rfl | ⟨c, q, rfl⟩
      · have hne : query ≠ front := fun h => hq (h ▸ List.prefix_rfl)
        rw [if_neg hne, lookup_eq_none_of_front hq, lookup_fork_eq_none _ _ _ hq]
      · rw [if_pos rfl, lookup_fork_path]
      · rw [lookup_append_append, lookup_fork_cons, lookup_cons_cons]
        simp
    | parted front bit p b k h =>
      rw [insert_parted front v p h]
      rcases BitPath.front_cases front query with hq | rfl | ⟨c, q, rfl⟩
      · have hne : query ≠ front ++ b :: k := fun h => hq (h ▸ List.prefix_append _ _)
        rw [if_neg hne, lookup_eq_none_of_front hq, lookup_fork_eq_none _ _ _ hq]
      · rw [lookup_fork_path, lookup_within]
        simp
      · rw [lookup_append_append, lookup_fork_cons, lookup_cons_cons]
        by_cases hc : c = bit
        · simp [hc, h]
        · have hcb : c = b := by cases c <;> cases bit <;> cases b <;> simp_all
          simp [hcb, Ne.symm h]

theorem reduced_leaf {v : Bytes} (hv : Accepted v) : (leaf path v).Reduced := by
  simp [leaf, Reduced, hv]

theorem reduced_fork {bit : Bool} {tree other : Tree}
    (hside : value = none → tree ≠ .nil ∧ other ≠ .nil) (hv : ∀ v ∈ value, Accepted v)
    (ht : tree.Reduced) (ho : other.Reduced) : (fork path value bit tree other).Reduced := by
  cases bit
  · exact ⟨hside, hv, ht, ho⟩
  · exact ⟨fun h => (hside h).symm, hv, ho, ht⟩

theorem reduced_insert {tree : Tree} (ht : tree.Reduced) (key : BitPath) {v : Bytes}
    (hv : Accepted v) : (tree.insert key v).Reduced := by
  have hsome : ∀ w ∈ some v, Accepted w := by simp [hv]
  induction tree generalizing key with
  | nil => exact reduced_leaf hv
  | node path value left right ihl ihr =>
    obtain ⟨hside, hval, hl, hr⟩ := ht
    induction path, key using meet_cases with
    | same path =>
      rw [insert_path]
      exact ⟨by simp, hsome, hl, hr⟩
    | below path bit rest =>
      rw [insert_append_cons]
      cases bit
      · exact ⟨fun h => ⟨insert_ne_nil _ _ _, (hside h).2⟩, hval, ihl hl rest, hr⟩
      · exact ⟨fun h => ⟨(hside h).1, insert_ne_nil _ _ _⟩, hval, hl, ihr hr rest⟩
    | within front bit rest =>
      rw [insert_front]
      exact reduced_fork (by simp) hsome ⟨hside, hval, hl, hr⟩ trivial
    | parted front bit p b k h =>
      rw [insert_parted front v p h]
      exact reduced_fork (by simp [leaf]) (by simp) ⟨hside, hval, hl, hr⟩ (reduced_leaf hv)

/-- Below every node there is a stored key. -/
theorem exists_lookup_of_reduced {tree : Tree} (h : tree.Reduced) (hne : tree ≠ .nil) :
    ∃ key v, tree.lookup key = some v := by
  induction tree with
  | nil => exact absurd rfl hne
  | node path value left right ihl _ =>
    obtain ⟨hside, -, hl, -⟩ := h
    cases value with
    | some v => exact ⟨path, v, lookup_path⟩
    | none =>
      obtain ⟨key, v, hk⟩ := ihl hl (hside rfl).1
      exact ⟨path ++ false :: key, v, by simpa using hk⟩

theorem reduced_child (h : (node path value left right).Reduced) (bit : Bool) :
    (if bit then right else left).Reduced := by
  cases bit
  · exact h.2.2.1
  · exact h.2.2.2

/-- The subtrees whose nodes are met on the way of a key, from the root downwards. -/
def visited : Tree → BitPath → List Tree
  | .nil, _ => []
  | .node path value left right, key =>
    .node path value left right ::
      if path.isPrefixOf key then
        match key.drop path.length with
        | [] => []
        | false :: rest => left.visited rest
        | true :: rest => right.visited rest
      else []

theorem mem_visited {tree : Tree} (h : tree ≠ .nil) : tree ∈ tree.visited key := by
  cases tree with
  | nil => exact absurd rfl h
  | node path value left right => exact List.mem_cons_self

theorem visited_append_cons (bit : Bool) :
    (node path value left right).visited (path ++ bit :: rest) =
      .node path value left right :: (if bit then right else left).visited rest := by
  cases bit <;> simp [visited]

/-- The way of a stored key ends at a leaf if no other stored key goes on after it. -/
theorem exists_leaf_of_lookup {tree : Tree} {v : Bytes} (hred : tree.Reduced)
    (h : tree.lookup key = some v)
    (hlast : ∀ k w, tree.lookup k = some w → key <+: k → k = key) :
    ∃ path, (tree.visited key).getLast? = some (.leaf path v) := by
  induction tree generalizing key with
  | nil => cases h
  | node path value left right ihl ihr =>
    rcases BitPath.front_cases path key with hp | rfl | ⟨bit, rest, rfl⟩
    · exact absurd (prefix_of_lookup h) hp
    · rw [lookup_path] at h
      subst h
      -- Below a side that is there, a stored key would go on after this one.
      have hnil : ∀ bit : Bool, (if bit then right else left) = .nil := by
        intro bit
        by_contra hne
        obtain ⟨k, w, hk⟩ := exists_lookup_of_reduced (reduced_child hred bit) hne
        have hkey := hlast (key ++ bit :: k) w (by rwa [lookup_append_cons]) (List.prefix_append _ _)
        simp at hkey
      rw [show left = .nil from hnil false, show right = .nil from hnil true]
      exact ⟨key, by simp [visited, leaf]⟩
    · rw [lookup_append_cons] at h
      have hside : ∀ k w, (if bit then right else left).lookup k = some w → rest <+: k →
          k = rest := by
        intro k w hk hprefix
        have hkey := hlast (path ++ bit :: k) w (by rwa [lookup_append_cons]) (by simpa using hprefix)
        simpa using hkey
      have hchild := reduced_child hred bit
      have hleaf : ∃ p, ((if bit then right else left).visited rest).getLast? =
          some (.leaf p v) := by
        cases bit
        · exact ihl hchild h hside
        · exact ihr hchild h hside
      obtain ⟨p, hp⟩ := hleaf
      refine ⟨p, ?_⟩
      rw [visited_append_cons, List.getLast?_cons, hp]
      rfl

/-- No stored key has more than `bound` bits. -/
def Within (bound : Nat) (tree : Tree) : Prop :=
  ∀ key v, tree.lookup key = some v → key.length ≤ bound

theorem within_mono {tree : Tree} {m n : Nat} (h : tree.Within m) (hle : m ≤ n) : tree.Within n :=
  fun key v hk => Nat.le_trans (h key v hk) hle

theorem within_child {bound : Nat} (h : (node path value left right).Within bound) (bit : Bool) :
    (if bit then right else left).Within (bound - path.length - 1) := by
  intro key v hk
  have hlen := h (path ++ bit :: key) v (by simpa using hk)
  rw [List.length_append, List.length_cons] at hlen
  omega

/-- The path of every node is part of a stored key. -/
theorem length_path_le_of_within {bound : Nat} (h : (node path value left right).Within bound)
    (hred : (node path value left right).Reduced) : path.length ≤ bound := by
  obtain ⟨key, v, hk⟩ := exists_lookup_of_reduced hred (by simp)
  have hlen := h key v hk
  exact Nat.le_trans (prefix_of_lookup hk).length_le hlen

theorem mem_visited_node {s : Tree} (hs : s ∈ (node path value left right).visited key) :
    s = .node path value left right ∨
      ∃ bit rest, s ∈ (if bit = true then right else left).visited rest := by
  rw [visited, List.mem_cons] at hs
  rcases hs with hs | hs
  · exact .inl hs
  · right
    split at hs
    · split at hs
      · cases hs
      · exact ⟨false, _, hs⟩
      · exact ⟨true, _, hs⟩
    · cases hs

theorem ne_nil_of_mem_visited {s tree : Tree} (hs : s ∈ tree.visited key) : s ≠ .nil := by
  induction tree generalizing key with
  | nil => cases hs
  | node path value left right ihl ihr =>
    rcases mem_visited_node hs with rfl | ⟨bit, rest, hs⟩
    · simp
    · cases bit
      · exact ihl hs
      · exact ihr hs

/-- What every tree hands down to both sides holds of the subtrees on the way of a key. -/
theorem visited_induction {motive : Tree → Prop} {s tree : Tree}
    (hchild : ∀ path value left right bit, motive (node path value left right) →
      motive (if bit = true then right else left))
    (h : motive tree) (hs : s ∈ tree.visited key) : motive s := by
  induction tree generalizing key with
  | nil => cases hs
  | node path value left right ihl ihr =>
    rcases mem_visited_node hs with rfl | ⟨bit, rest, hs⟩
    · exact h
    · have hside := hchild path value left right bit h
      cases bit
      · exact ihl hside hs
      · exact ihr hside hs

theorem reduced_of_mem_visited {s tree : Tree} (hred : tree.Reduced) (hs : s ∈ tree.visited key) :
    s.Reduced :=
  visited_induction (fun _ _ _ _ bit h => reduced_child h bit) hred hs

theorem within_of_mem_visited {s tree : Tree} {bound : Nat} (hwithin : tree.Within bound)
    (hs : s ∈ tree.visited key) : s.Within bound :=
  visited_induction (fun _ _ _ _ bit h => within_mono (within_child h bit) (by omega)) hwithin hs

theorem of_mem_visited {s tree : Tree} {bound : Nat} (hred : tree.Reduced)
    (hwithin : tree.Within bound) (hs : s ∈ tree.visited key) :
    s ≠ .nil ∧ s.Reduced ∧ s.Within bound :=
  ⟨ne_nil_of_mem_visited hs, reduced_of_mem_visited hred hs, within_of_mem_visited hwithin hs⟩

end Tree

end BlockAudit.Trie
