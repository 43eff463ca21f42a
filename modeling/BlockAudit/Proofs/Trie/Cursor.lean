import BlockAudit.Proofs.Trie.Tree

/-!
Insertion with a cursor into the whole key, where bits and parts of paths are read within their bounds
or not at all. No insertion asks for more than there is, and all of them do what insertion of the rest of
the key does.
-/
namespace BlockAudit

namespace BitPath

theorem skip?_eq (path : BitPath) (n : Nat) : path.skip? n = some (path.drop n) := by
  rw [skip?, slice?, if_pos ⟨Nat.min_le_right _ _, Nat.le_refl _⟩, List.take_length]
  by_cases hn : n ≤ path.length
  · rw [Nat.min_eq_left hn]
  · rw [Nat.min_eq_right (by omega), List.drop_length, List.drop_eq_nil_of_le (by omega)]

theorem cut?_append (front : BitPath) (bit : Bool) (below : BitPath) :
    (front ++ bit :: below).cut? front.length = some (front, bit, below) := by
  simp [cut?, get, skip?_eq, slice?, Except.toOption]

/-- There is no bit to cut at behind the last one. -/
example : cut? [true, false] 2 = none := rfl

variable {key front rest : BitPath} {cursor : Nat}

theorem get_of_drop_eq (h : key.drop cursor = front) :
    ∃ e, key.get (cursor + front.length) = .error e := by
  have hnone : key[cursor + front.length]? = none := by
    rw [← List.getElem?_drop, h, List.getElem?_length]
  exact ⟨_, by rw [get, hnone]⟩

theorem get_of_drop_eq_append (bit : Bool) (h : key.drop cursor = front ++ bit :: rest) :
    key.get (cursor + front.length) = .ok bit := by
  have hsome : key[cursor + front.length]? = some bit := by
    rw [← List.getElem?_drop, h, List.getElem?_append_right (Nat.le_refl _), Nat.sub_self,
      List.getElem?_cons_zero]
  rw [get, hsome]

theorem drop_of_drop_eq_append (bit : Bool) (h : key.drop cursor = front ++ bit :: rest) :
    key.drop (cursor + front.length + 1) = rest := by
  rw [Nat.add_assoc, ← List.drop_drop, h]
  simp

end BitPath

namespace Trie.Tree

section Fit

variable {path key rest : BitPath} {cursor : Nat} (value : Option Bytes) (left right : Tree)

/-- A path that the key follows to its end stays as it is. -/
theorem fit?_of_path (h : key.drop cursor = path ++ rest) :
    fit? path value left right key cursor = some (path, value, left, right) := by
  have hcommon := BitPath.commonPrefixLength_append path (a := []) (b := rest)
    (by simp [BitPath.Parted])
  rw [List.append_nil] at hcommon
  rw [fit?, BitPath.commonPrefixLengthAt, List.drop_zero, h, hcommon, if_neg (Nat.lt_irrefl _)]
  rfl

/-- A path that the key leaves is cut there, and the bit that it leaves at is found. -/
theorem fit?_of_front {front below : BitPath} (bit : Bool) (h : key.drop cursor = front ++ rest)
    (hparted : BitPath.Parted (bit :: below) rest) :
    fit? (front ++ bit :: below) value left right key cursor =
      some (if bit then (front, none, nil, node below value left right)
        else (front, none, node below value left right, nil)) := by
  have hcommon := BitPath.commonPrefixLength_append front hparted
  have hlt : front.length < (front ++ bit :: below).length := by simp
  rw [fit?, BitPath.commonPrefixLengthAt, List.drop_zero, h, hcommon, if_pos hlt,
    BitPath.cut?_append]
  rfl

end Fit

section Insert

variable {path p key rest : BitPath} {old v : Option Bytes} {left right l r : Tree} {cursor : Nat}
  {value : Bytes}

theorem insertAt?_nil : insertAt? .nil key cursor value = some (leaf (key.drop cursor) value) := by
  rw [insertAt?, BitPath.skip?_eq]
  rfl

/-- A key that ends with the path of a node sets its value. -/
theorem insertAt?_stop (hfit : fit? path old left right key cursor = some (p, v, l, r))
    (hkey : key.drop cursor = p) :
    (node path old left right).insertAt? key cursor value = some (node p (some value) l r) := by
  obtain ⟨e, he⟩ := BitPath.get_of_drop_eq hkey
  rw [insertAt?, hfit, Option.bind_eq_bind, Option.bind_some]
  dsimp only
  split
  · rfl
  · rename_i hget
    rw [he] at hget
    cases hget
  · rename_i hget
    rw [he] at hget
    cases hget

/-- A key that goes on after the path of a node continues on the side of its next bit. -/
theorem insertAt?_descend (bit : Bool)
    (hfit : fit? path old left right key cursor = some (p, v, l, r))
    (hkey : key.drop cursor = p ++ bit :: rest) :
    (node path old left right).insertAt? key cursor value =
      if bit then (r.insertAt? key (cursor + p.length + 1) value).map (node p v l)
      else (l.insertAt? key (cursor + p.length + 1) value).map fun below => node p v below r := by
  have hbit := BitPath.get_of_drop_eq_append bit hkey
  rw [insertAt?, hfit, Option.bind_eq_bind, Option.bind_some]
  dsimp only
  split <;> rename_i hget <;> rw [hbit] at hget <;> cases hget
  · cases l.insertAt? key (cursor + p.length + 1) value <;> rfl
  · cases r.insertAt? key (cursor + p.length + 1) value <;> rfl

/-- No insertion reads out of bounds, and each ends as insertion of the rest of the key does. -/
theorem insertAt?_eq (tree : Tree) (key : BitPath) (cursor : Nat) (value : Bytes) :
    tree.insertAt? key cursor value = some (tree.insert (key.drop cursor) value) := by
  induction tree generalizing cursor with
  | nil => exact insertAt?_nil
  | node path old left right ihl ihr =>
    generalize hkey : key.drop cursor = rest
    induction path, rest using meet_cases with
    | same path =>
      have hfit := fit?_of_path old left right (hkey.trans (List.append_nil path).symm)
      rw [insertAt?_stop hfit hkey, insert_path]
    | below path bit rest =>
      have hfit := fit?_of_path old left right hkey
      have hrest := BitPath.drop_of_drop_eq_append bit hkey
      rw [insertAt?_descend bit hfit hkey, ihl, ihr, hrest, insert_append_cons]
      cases bit <;> rfl
    | within front bit rest =>
      have hparted : BitPath.Parted (bit :: rest) [] := by simp [BitPath.Parted]
      have hfit := fit?_of_front old left right bit (hkey.trans (List.append_nil front).symm) hparted
      rw [insert_front]
      cases bit
      · rw [insertAt?_stop hfit hkey]
        rfl
      · rw [insertAt?_stop hfit hkey]
        rfl
    | parted front bit p b k h =>
      have hparted : BitPath.Parted (bit :: p) (b :: k) := by simpa using h
      have hfit := fit?_of_front old left right bit hkey hparted
      have hrest := BitPath.drop_of_drop_eq_append b hkey
      rw [insert_parted front value p h]
      -- The key continues on the side that the cut has left empty.
      cases bit
      · obtain rfl : b = true := by simpa using Ne.symm h
        rw [insertAt?_descend true hfit hkey, insertAt?_nil, hrest]
        rfl
      · obtain rfl : b = false := by simpa using Ne.symm h
        rw [insertAt?_descend false hfit hkey, insertAt?_nil, hrest]
        rfl

end Insert

end Trie.Tree

end BlockAudit
