import BlockAudit.Proofs.Rlp.Item
import BlockAudit.Proofs.Rlp.Spelling

/-!
Reading rows of items that were written. A reader finds the payload of each, whatever comes after the row.
-/
namespace BlockAudit.Rlp.Item

variable {item : Item} {items : List Item}

theorem spells_encode (hlt : item.payload.length < 256 ^ 8) :
    Spells item.base item.encode item.payload := by
  rcases encode_cases item with ⟨byte, hsmall, rfl, heq⟩ | heq
  · rw [heq]
    exact .byte hsmall
  · rw [heq]
    exact .headed item.base_cases hlt

/-- A row is read item by item. -/
theorem payloads_encodeAll (hlt : ∀ item ∈ items, item.payload.length < 256 ^ 8) :
    payloads (encodeAll items) = items.map payload := by
  induction items with
  | nil => exact payloads_of_error rfl
  | cons first items ih =>
    have hfirst := spells_encode (hlt first List.mem_cons_self)
    have htail := ih fun item hitem => hlt item (List.mem_cons_of_mem first hitem)
    rw [encodeAll, hfirst.payloads_append, htail, List.map_cons]

theorem payloadAt_encodeAll (hlt : ∀ item ∈ items, item.payload.length < 256 ^ 8) {index : Nat}
    (h : items[index]? = some item) : payloadAt (encodeAll items) index = .ok item.payload := by
  apply payloadAt_of_payloads
  rw [payloads_encodeAll hlt, List.getElem?_map, h]
  rfl

section List

variable (hlt : (encodeAll items).length < 256 ^ 8)
include hlt

theorem length_payload_lt_of_mem : ∀ item ∈ items, item.payload.length < 256 ^ 8 := by
  intro item hitem
  have hpayload := item.length_payload_le
  have hencode := length_encode_le_encodeAll hitem
  omega

theorem payload_encode_list : Rlp.payload (list items).encode = .ok (encodeAll items) := by
  have hpayload := (@spells_encode (list items) hlt).payload_append []
  rwa [List.append_nil] at hpayload

/-- A list that was written is read item by item. -/
theorem looseItems_encode : looseItems (list items).encode = .ok (items.map payload) := by
  have hitems := length_payload_lt_of_mem hlt
  cases items with
  | nil => rfl
  | cons first items =>
    have hfirst := spells_encode (hitems first List.mem_cons_self)
    have htail := payloads_encodeAll fun item hitem => hitems item (List.mem_cons_of_mem first hitem)
    have hword : first.encode.length ≤ (encodeAll (first :: items)).length := by
      rw [encodeAll, List.length_append]
      exact Nat.le_add_right _ _
    rw [List.map_cons, looseItems_eq_cons_iff]
    exact ⟨(encodeAll (first :: items)).length, first.base, first.encode, encodeAll items, hlt, hword,
      Nat.le_refl _, rfl, hfirst, htail⟩

end List

end BlockAudit.Rlp.Item
