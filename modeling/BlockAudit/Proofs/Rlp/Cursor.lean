import BlockAudit.Proofs.Rlp.Spelling
import BlockAudit.Rlp.Cursor

/-!
What is found at an index of a list. It depends on whether the reader comes from a place, from which all bytes
of the buffer count, or from the beginning of the list.
-/
namespace BlockAudit.Rlp

section Skip

variable {row : Bytes} {count index skipped : Nat}

/-- Reading at an index is skipping what stands before it. -/
theorem payloadAt_eq_skip (row : Bytes) (index : Nat) :
    payloadAt row index = (skip row index).bind fun skipped => payload (row.drop skipped) := by
  induction index generalizing row with
  | zero => rfl
  | succ index ih =>
    rw [payloadAt, skip]
    cases extent row with
    | error error => rfl
    | ok first =>
      rw [ok_bind, ih, ok_bind]
      cases skip (row.drop first.total) index with
      | error error => rfl
      | ok others =>
        rw [ok_bind, pure_eq_ok]
        dsimp only [Except.bind]
        rw [List.drop_drop]

theorem payload_take_total {found : Extent} (h : extent row = .ok found) :
    payload (row.take found.total) = payload row := by
  obtain ⟨base, front, bytes, rest, hspells, rfl, rfl⟩ := exists_spells_of_extent h
  have hword := hspells.payload_append []
  rw [List.append_nil] at hword
  rw [Extent.total_eq_length, List.take_left, hspells.payload_append, hword]

/-- An item that lies in a part of a row is found in the whole row. -/
theorem extent_of_take {size : Nat} {found : Extent} (h : extent (row.take size) = .ok found) :
    extent row = .ok found := by
  obtain ⟨base, front, bytes, rest, hspells, hrow, rfl⟩ := exists_spells_of_extent h
  obtain ⟨front', heq, hextent⟩ := hspells.exists_extent (rest ++ row.drop size)
  obtain rfl : front = front' := List.append_cancel_right heq
  rwa [← List.append_assoc, ← hrow, List.take_append_drop] at hextent

end Skip

namespace Cursor

section Item

variable {cursor next : Cursor} {index count offset skipped : Nat} {row word : Bytes}

theorem item_of_start (hlist : isList cursor.buffer) (hstart : cursor.start index = .ok (row, count, offset))
    (hskip : skip row count = .ok skipped) :
    cursor.item index =
      ((extent (row.drop skipped)).map fun found => (row.drop skipped).take found.total,
        { cursor with place := some (index, offset + skipped) }) := by
  rw [item, if_pos hlist, hstart]
  dsimp only
  rw [hskip]

/-- A place before the index is where the way begins, and it is not yet the end of it. -/
theorem start_of_place {last : Nat} (hplace : cursor.place = some (last, offset)) (hlast : last ≤ index)
    (hoffset : offset ≤ cursor.buffer.length) :
    cursor.start index = .ok (cursor.buffer.drop offset, index - last, offset) := by
  rw [start, hplace, Option.filter_some, if_pos (decide_eq_true hlast)]
  exact if_neg (Nat.not_lt.mpr hoffset)

end Item

section Reading

variable {cursor next : Cursor} {buffer row word : Bytes} {index count offset : Nat}
  {list first : Extent} {error : RlpError} {items : List Bytes}

theorem countFrom_of_error (h : cursor.item index = (.error error, next)) :
    cursor.countFrom index = (index, next) := by
  rw [countFrom]
  split
  · rename_i h'
    rw [h] at h'
    cases h'
    rfl
  · rename_i h'
    rw [h] at h'
    cases h'

theorem countFrom_of_ok (h : cursor.item index = (.ok word, next)) :
    cursor.countFrom index = next.countFrom (index + 1) := by
  rw [countFrom]
  split
  · rename_i h'
    rw [h] at h'
    cases h'
  · rename_i h'
    rw [h] at h'
    cases h'
    rfl

/-- What is read at an index depends on where the way to it begins and on nothing else. -/
theorem read_of_start (hlist : isList cursor.buffer)
    (hstart : cursor.start index = .ok (row, count, offset)) :
    (cursor.read index).1 = payloadAt row count := by
  rw [read, payloadAt_eq_skip]
  cases hskip : skip row count with
  | error error =>
    rw [item, if_pos hlist, hstart]
    dsimp only
    rw [hskip]
    rfl
  | ok skipped =>
    rw [item_of_start hlist hstart hskip]
    dsimp only [Except.bind]
    cases hfound : extent (row.drop skipped) with
    | error error =>
      rw [payload, hfound]
      rfl
    | ok found => exact payload_take_total hfound

/-- From the place of an item on, all items of the buffer are counted. -/
theorem countFrom_of_place (hlist : isList buffer) (hoffset : offset ≤ buffer.length)
    (hfirst : extent (buffer.drop offset) = .ok first) :
    ∃ after, countFrom ⟨buffer, some (index, offset)⟩ (index + 1) =
      (index + (payloads (buffer.drop offset)).length,
        ⟨buffer, some (index + (payloads (buffer.drop offset)).length, after)⟩) := by
  induction hn : buffer.length - offset using Nat.strongRecOn generalizing index offset first with
  | ind n ih =>
    subst hn
    obtain ⟨hpos, hle⟩ := extent_bounds hfirst
    rw [List.length_drop] at hle
    have hstart := @start_of_place ⟨buffer, some (index, offset)⟩ (index + 1) offset index rfl
      (Nat.le_succ index) hoffset
    rw [Nat.add_sub_cancel_left] at hstart
    have hskip : skip (buffer.drop offset) 1 = .ok first.total := by
      rw [skip, hfirst]
      rfl
    have hitem := item_of_start hlist hstart hskip
    rw [List.drop_drop] at hitem
    rw [payloads_of_ok hfirst, List.length_cons, List.drop_drop]
    cases hnext : extent (buffer.drop (offset + first.total)) with
    | error error =>
      rw [hnext] at hitem
      rw [payloads_of_error hnext]
      exact ⟨_, countFrom_of_error hitem⟩
    | ok second =>
      rw [hnext] at hitem
      obtain ⟨after, hafter⟩ := ih _ (by omega) (by omega) hnext rfl
      refine ⟨after, ?_⟩
      rw [countFrom_of_ok hitem, hafter, Nat.add_right_comm, Nat.add_assoc]

/-- Without a place, or from one behind the index, the way begins at the first item of the list. -/
theorem start_of_list {place : Option (Nat × Nat)} (hextent : extent buffer = .ok list)
    (hplace : ∀ last after, place = some (last, after) → index < last) :
    start ⟨buffer, place⟩ index =
      .ok ((buffer.drop list.header).take list.payload, index, list.header) := by
  have hnone : place.filter (fun place => place.1 ≤ index) = none := by
    cases place with
    | none => rfl
    | some place =>
      obtain ⟨last, after⟩ := place
      rw [Option.filter_some, if_neg]
      have hlast := hplace last after rfl
      simpa using hlast
  rw [start, hnone]
  dsimp only
  rw [hextent]
  rfl

theorem item_zero_of_list {place : Option (Nat × Nat)} (hlist : isList buffer)
    (hextent : extent buffer = .ok list) (hplace : ∀ last after, place = some (last, after) → 0 < last) :
    item ⟨buffer, place⟩ 0 =
      ((extent ((buffer.drop list.header).take list.payload)).map fun found =>
          ((buffer.drop list.header).take list.payload).take found.total,
        ⟨buffer, some (0, list.header)⟩) :=
  item_of_start hlist (start_of_list hextent hplace) rfl

/-- All the items that a lenient reader finds are counted. -/
theorem itemCount_of_looseItems (h : looseItems buffer = .ok items) :
    ∃ cursor, itemCount ⟨buffer, none⟩ = (.ok items.length, cursor) ∧
      (items ≠ [] → ∃ after, cursor = ⟨buffer, some (items.length, after)⟩) := by
  have hnone : ∀ last after, (none : Option (Nat × Nat)) = some (last, after) → 0 < last := by
    rintro last after ⟨⟩
  rcases looseItems_cases buffer with ⟨-, hloose⟩ | ⟨hlist, ⟨error, hextent⟩, hloose⟩ |
    ⟨list, hlist, hextent, ⟨error, hfirst⟩, hloose⟩ | ⟨list, first, hlist, hextent, hfirst, hloose⟩ <;>
    rw [hloose] at h <;> cases h
  · have hitem : item ⟨buffer, none⟩ 0 = (.error error, ⟨buffer, none⟩) := by
      rw [item, if_pos hlist, start, Option.filter_none]
      dsimp only
      rw [hextent]
      rfl
    rw [itemCount, if_pos hlist, countFrom_of_error hitem]
    exact ⟨_, rfl, fun hne => absurd rfl hne⟩
  · have hitem := item_zero_of_list hlist hextent hnone
    rw [hfirst] at hitem
    rw [itemCount, if_pos hlist, countFrom_of_error hitem]
    exact ⟨_, rfl, fun hne => absurd rfl hne⟩
  · have hitem := item_zero_of_list hlist hextent hnone
    rw [hfirst] at hitem
    have hbounds := (extent_bounds hextent).2
    rw [Extent.total] at hbounds
    obtain ⟨after, hcount⟩ :=
      @countFrom_of_place buffer 0 list.header first hlist (by omega) (extent_of_take hfirst)
    rw [itemCount, if_pos hlist, countFrom_of_ok hitem, hcount, Nat.zero_add]
    exact ⟨_, rfl, fun _ => ⟨after, rfl⟩⟩

theorem itemCount_of_looseItems_eq_error (h : looseItems buffer = .error error) :
    (itemCount ⟨buffer, none⟩).1 = .error error := by
  rcases looseItems_cases buffer with ⟨hlist, hloose⟩ | ⟨-, -, hloose⟩ | ⟨list, -, -, -, hloose⟩ |
    ⟨list, first, -, -, -, hloose⟩ <;> rw [hloose] at h <;> cases h
  rw [itemCount, hlist]
  rfl

/-- The item that was read last is where the cursor stands. -/
theorem exists_place_of_read (h : (cursor.read index).1 = .ok word) :
    ∃ after, (cursor.read index).2 = { cursor with place := some (index, after) } := by
  cases hitem : (cursor.item index).1 with
  | error error =>
    rw [read, hitem] at h
    cases h
  | ok word =>
    obtain ⟨row, count, offset, skipped, found, -, -, -, hnext⟩ :=
      exists_start_of_item (Prod.ext hitem rfl)
    exact ⟨offset + skipped, hnext⟩

end Reading

end Cursor

end BlockAudit.Rlp
