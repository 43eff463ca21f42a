import BlockAudit.Rlp.Payload

/-!
Reading a list by index, with the last place remembered. A place saves the way from the first item on, but from
there all bytes of the buffer count and not only those of the list.
-/
namespace BlockAudit.Rlp

/-- A buffer with a list, and the place that was looked at last: an index, and the offset that belongs to it. -/
structure Cursor where
  buffer : Bytes
  place : Option (Nat × Nat) := none
deriving DecidableEq

/-- How many bytes the first `count` items of a row take. -/
def skip (row : Bytes) : Nat → Except RlpError Nat
  | 0 => return 0
  | count + 1 => do
    let first ← extent row
    return first.total + (← skip (row.drop first.total) count)

namespace Cursor

/-- Where the way to an item begins: the bytes there, how many items to skip, and the offset. A place that is
not behind the item serves, with the rest of the buffer; without one it is the payload of the list. -/
def start (cursor : Cursor) (index : Nat) : Except RlpError (Bytes × Nat × Nat) :=
  match cursor.place.filter fun place => place.1 ≤ index with
  | some (last, offset) =>
    if cursor.buffer.length < offset then .error .isTooShort
    else .ok (cursor.buffer.drop offset, index - last, offset)
  | none => do
    let list ← extent cursor.buffer
    return ((cursor.buffer.drop list.header).take list.payload, index, list.header)

/-- The bytes of the item at an index, and the cursor after looking for it. The place is remembered even if
there is no item at it. -/
def item (cursor : Cursor) (index : Nat) : Except RlpError Bytes × Cursor :=
  if isList cursor.buffer then
    match cursor.start index with
    | .error error => (.error error, cursor)
    | .ok (row, count, offset) =>
      match skip row count with
      | .error error => (.error error, cursor)
      | .ok skipped =>
        ((extent (row.drop skipped)).map fun found => (row.drop skipped).take found.total,
          { cursor with place := some (index, offset + skipped) })
  else (.error .expectedToBeList, cursor)

/-- The payload of the item at an index. -/
def read (cursor : Cursor) (index : Nat) : Except RlpError Bytes × Cursor :=
  ((cursor.item index).1.bind payload, (cursor.item index).2)

/-- How much of the buffer is ahead of a cursor on its way to an index. -/
def ahead (cursor : Cursor) (index : Nat) : Nat :=
  match cursor.place with
  | some (last, offset) =>
    if last < index then cursor.buffer.length - offset else cursor.buffer.length + 1
  | none => cursor.buffer.length + 1

end Cursor

section Ahead

variable {cursor next : Cursor} {index count offset skipped : Nat} {row word : Bytes}

theorem skip_succ_pos (h : skip row (count + 1) = .ok skipped) : 0 < skipped := by
  simp only [skip, bind, Except.bind] at h
  split at h
  · cases h
  · rename_i first hfirst
    split at h
    · cases h
    · cases h
      have hpos := (extent_bounds hfirst).1
      omega

namespace Cursor

/-- An item is looked for from one beginning, and its place is remembered. -/
theorem exists_start_of_item (h : cursor.item index = (.ok word, next)) :
    ∃ row count offset skipped found, cursor.start index = .ok (row, count, offset) ∧
      skip row count = .ok skipped ∧ extent (row.drop skipped) = .ok found ∧
      next = { cursor with place := some (index, offset + skipped) } := by
  unfold item at h
  split at h
  · split at h
    · cases h
    · rename_i row count offset hstart
      split at h
      · cases h
      · rename_i skipped hskip
        obtain ⟨hword, rfl⟩ := Prod.mk.inj h
        cases hfound : extent (row.drop skipped) with
        | error error =>
          rw [hfound] at hword
          cases hword
        | ok found => exact ⟨row, count, offset, skipped, found, hstart, hskip, hfound, rfl⟩
  · cases h

theorem length_of_start (h : cursor.start index = .ok (row, count, offset)) :
    offset + row.length ≤ cursor.buffer.length := by
  unfold start at h
  split at h
  · split at h
    · cases h
    · cases h
      rw [List.length_drop]
      omega
  · cases hlist : extent cursor.buffer with
    | error error =>
      rw [hlist] at h
      cases h
    | ok list =>
      rw [hlist] at h
      cases h
      have hbounds := (extent_bounds hlist).2
      rw [Extent.total] at hbounds
      rw [List.length_take, List.length_drop]
      omega

/-- Every item that is found leaves less ahead. -/
theorem ahead_lt_of_item (h : cursor.item index = (.ok word, next)) :
    next.ahead (index + 1) < cursor.ahead index := by
  obtain ⟨row, count, offset, skipped, found, hstart, hskip, hfound, rfl⟩ := exists_start_of_item h
  have hlength := length_of_start hstart
  have hfound := extent_bounds hfound
  rw [List.length_drop] at hfound
  have hnext : ahead { cursor with place := some (index, offset + skipped) } (index + 1) =
      cursor.buffer.length - (offset + skipped) := if_pos (Nat.lt_succ_self index)
  rw [hnext]
  cases hplace : cursor.place with
  | none =>
    rw [ahead, hplace]
    dsimp only
    omega
  | some place =>
    obtain ⟨last, before⟩ := place
    rw [ahead, hplace]
    dsimp only
    split
    · rename_i hlast
      rw [start, hplace, Option.filter_some, if_pos (decide_eq_true (Nat.le_of_lt hlast))] at hstart
      dsimp only at hstart
      split at hstart
      · cases hstart
      · cases hstart
        obtain ⟨n, hn⟩ : ∃ n, index - last = n + 1 :=
          Nat.exists_eq_succ_of_ne_zero (Nat.sub_ne_zero_of_lt hlast)
        rw [hn] at hskip
        have hpos := skip_succ_pos hskip
        omega
    · omega

end Cursor

end Ahead

namespace Cursor

/-- Counts the items from an index on, up to the first that is none. -/
def countFrom (cursor : Cursor) (index : Nat) : Nat × Cursor :=
  match _h : cursor.item index with
  | (.error _, next) => (index, next)
  | (.ok _, next) => next.countFrom (index + 1)
termination_by cursor.ahead index
decreasing_by exact ahead_lt_of_item _h

/-- The number of items, and the cursor after the last of them. -/
def itemCount (cursor : Cursor) : Except RlpError Nat × Cursor :=
  if isList cursor.buffer then (.ok (cursor.countFrom 0).1, (cursor.countFrom 0).2)
  else (.error .expectedToBeList, cursor)

end Cursor

end BlockAudit.Rlp
