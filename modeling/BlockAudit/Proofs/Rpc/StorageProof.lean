import BlockAudit.Json.Sorted
import BlockAudit.Proofs.Json.Printer
import BlockAudit.Proofs.Rpc.Quantity
import BlockAudit.Rpc.Proof

/-!
Storage entries written as JSON. The slot and the value of an entry that is read are written in other
digits than they arrived in, and are read again as the same numbers.
-/
namespace BlockAudit

namespace Json

variable {α β : Type}

namespace Record

variable {record : Record α} {extras : Extras} {get : String → Option Json} {json value : Json}
  {name : String} {found rest : List (String × Json)}

theorem build_seq_eq_ok_iff {f : Record (α → β)} {b : β} :
    (f <*> record).build get = .ok b ↔
      ∃ g, f.build get = .ok g ∧ ∃ a, record.build get = .ok a ∧ g a = b := by
  refine bind_eq_ok_iff.trans (exists_congr fun g => and_congr_right' (bind_eq_ok_iff.trans ?_))
  simp only [pure_eq_ok, Except.ok.injEq]

theorem build_map_eq_ok_iff {f : α → β} {b : β} :
    (f <$> record).build get = .ok b ↔ ∃ a, record.build get = .ok a ∧ f a = b := by
  refine build_seq_eq_ok_iff.trans ⟨?_, fun h => ⟨f, rfl, h⟩⟩
  rintro ⟨_, ⟨⟩, h⟩
  exact h

/-- Whether an object or an array is read, the value is made of what stands under the names. -/
theorem exists_build {a : α} (h : record.reader extras json = .ok a) :
    ∃ get, record.build get = .ok a := by
  unfold Record.reader at h
  split at h
  · obtain ⟨found, -, hbuild⟩ := bind_eq_ok_iff.mp h
    exact ⟨_, hbuild⟩
  · obtain ⟨found, -, hbuild⟩ := bind_eq_ok_iff.mp h
    exact ⟨_, mapError_eq_ok_iff.mp hbuild⟩
  · cases h

end Record

theorem Reader.listFrom_map {reader : Reader α} {write : α → Json}
    (h : ∀ a, reader (write a) = .ok a) (index : Nat) (values : List α) :
    reader.listFrom index (values.map write) = .ok values := by
  induction values generalizing index with
  | nil => rfl
  | cons a values ih =>
    rw [List.map_cons, Reader.listFrom, h, mapError_ok, ok_bind, ih, ok_bind, pure_eq_ok]

theorem sortedItems_map_string (texts : List String) :
    sortedItems (texts.map .string) = texts.map .string := by
  induction texts with
  | nil => rfl
  | cons text texts ih => rw [List.map_cons, sortedItems, ih, sorted] <;> nofun

end Json

namespace Rpc

theorem slot_string_eq_ok_iff {text : String} {slot : Hash} :
    Rpc.slot (.string text) = .ok slot ↔ slot? text = some slot := by
  simp only [Rpc.slot, Json.Reader.ofString]
  cases slot? text <;> simp

theorem slot_ofFixed (slot : Hash) : Rpc.slot (ofFixed slot) = .ok slot := by
  have hlt := ofBigEndian_lt slot.toBytes
  have hfixed := bigEndianFixed_ofBigEndian slot.toBytes
  rw [slot.length_toBytes] at hlt hfixed
  exact slot_string_eq_ok_iff.mpr (slot?_eq_some_iff.mpr
    ⟨_, Hex.numberOf?_of_writes (Hex.writes_encodeMarked slot.toBytes), hlt, hfixed.symm⟩)

theorem quantity_string_eq_ok_iff {text : String} {bytes : Bytes} :
    quantity (.string text) = .ok bytes ↔ quantity? text = .ok bytes := by
  simp only [quantity, Json.Reader.nullAs, Json.Reader.ofString]
  cases quantity? text <;> simp [Except.toOption]

theorem quantity_ofBytes {bytes : Bytes} (h : bytes.head? ≠ some 0) :
    quantity (ofBytes bytes) = .ok bytes :=
  quantity_string_eq_ok_iff.mpr (quantity?_eq_ok_iff.mpr
    ⟨_, Hex.numberOf?_of_writes (Hex.writes_encodeMarked bytes), (bigEndian_ofBigEndian h).symm⟩)

/-- A quantity has no zeros in front, and null is the one without bytes. -/
theorem head?_ne_of_quantity {json : Json} {bytes : Bytes} (h : quantity json = .ok bytes) :
    bytes.head? ≠ some 0 := by
  cases json with
  | null =>
    cases h
    nofun
  | string text =>
    obtain ⟨n, -, rfl⟩ := quantity?_eq_ok_iff.mp (quantity_string_eq_ok_iff.mp h)
    exact head?_bigEndian_ne n
  | _ => cases h

namespace StorageProof

variable {json : Json} {proof : StorageProof} {get : String → Option Json}

theorem build_eq_ok_iff :
    record.build get = .ok proof ↔
      (Json.Record.required "key" slot).build get = .ok proof.key ∧
      (Json.Record.defaulting "value" [] quantity).build get = .ok proof.value ∧
      (Json.Record.requiredAs "proofs" "proof" (.list .string)).build get = .ok proof.proofs := by
  unfold record
  rw [Json.Record.build_seq_eq_ok_iff]
  simp only [Json.Record.build_seq_eq_ok_iff, Json.Record.build_map_eq_ok_iff]
  constructor
  · rintro ⟨_, ⟨_, ⟨key, hkey, rfl⟩, value, hvalue, rfl⟩, proofs, hproofs, rfl⟩
    exact ⟨hkey, hvalue, hproofs⟩
  · rintro ⟨hkey, hvalue, hproofs⟩
    exact ⟨_, ⟨_, ⟨_, hkey, rfl⟩, _, hvalue, rfl⟩, _, hproofs, rfl⟩

theorem head?_value_ne (h : reader json = .ok proof) : proof.value.head? ≠ some 0 := by
  obtain ⟨get, hbuild⟩ := Json.Record.exists_build h
  obtain ⟨-, hvalue, -⟩ := build_eq_ok_iff.mp hbuild
  simp only [Json.Record.defaulting, Json.Record.field] at hvalue
  split at hvalue
  · exact head?_ne_of_quantity hvalue
  · rw [← Except.ok.inj hvalue]
    nofun

theorem sorted_toJson (proof : StorageProof) :
    proof.toJson.sorted = .object [
      ("key", ofFixed proof.key),
      ("proofs", ofList .string proof.proofs),
      ("value", ofBytes proof.value)] := by
  simp only [toJson, ofFixed, ofBytes, ofList, Json.sorted, Json.sortedFields, Json.sortedItems_map_string,
    Json.insertField, String.reduceLT, String.reduceBEq, ↓reduceIte, Bool.false_eq_true]

/-- Either order of the fields is read, the one they are declared in and that of their names. -/
theorem reader_toJson (h : proof.value.head? ≠ some 0) :
    reader proof.toJson = .ok proof ∧ reader proof.toJson.sorted = .ok proof := by
  have hkey := slot_ofFixed proof.key
  have hvalue := quantity_ofBytes h
  have hstring : ∀ text, Json.Reader.string (.string text) = .ok text := fun _ => rfl
  have hproofs : Json.Reader.string.list (ofList .string proof.proofs) = .ok proof.proofs :=
    Json.Reader.listFrom_map hstring 0 proof.proofs
  rw [sorted_toJson]
  constructor <;>
    simp only [toJson, reader, record, Json.Record.reader, Json.Record.collect, Json.FieldSpec.answersTo,
      Json.Record.required, Json.Record.requiredAs, Json.Record.defaulting, Json.Record.field, Seq.seq,
      Functor.map, Except.map, pure, Except.pure, bind, Except.bind, String.reduceBEq, ↓reduceIte,
      Bool.false_eq_true, List.nil_append, List.cons_append, Option.none_beq_some, Bool.or_self,
      Bool.or_false, Option.some_beq_some, not_false_eq_true, BEq.rfl, List.find?_cons_of_neg,
      List.find?_cons_of_pos, List.lookup_nil, List.lookup_cons, Option.isSome_none, mapError_ok, hkey,
      hvalue, hproofs]

theorem textual_ofList_string (depth : Nat) (texts : List String) :
    Json.Textual (depth + 1) (ofList .string texts) := by
  refine .array ?_
  rw [List.forall_mem_map]
  exact fun text _ => .string text

theorem textual_toJson (proof : StorageProof) : Json.Textual Json.maxDepth proof.toJson := by
  refine .object ?_
  simp only [List.forall_mem_cons]
  exact ⟨.string _, .string _, textual_ofList_string _ _, nofun⟩

theorem textual_sorted_toJson (proof : StorageProof) :
    Json.Textual Json.maxDepth proof.toJson.sorted := by
  rw [sorted_toJson]
  refine .object ?_
  simp only [List.forall_mem_cons]
  exact ⟨.string _, textual_ofList_string _ _, .string _, nofun⟩

/-- What is read is the same after it has been written and read again. -/
theorem reader_again (h : reader json = .ok proof) :
    reader proof.toJson = .ok proof ∧ reader proof.toJson.sorted = .ok proof ∧
      reader.ofText proof.toJson.render = .ok proof ∧
      reader.ofText proof.toJson.sorted.render = .ok proof := by
  obtain ⟨hdeclared, hsorted⟩ := reader_toJson (head?_value_ne h)
  refine ⟨hdeclared, hsorted, ?_, ?_⟩
  · rw [Json.Reader.ofText, Json.ofText?_render (textual_toJson proof)]
    exact mapError_eq_ok_iff.mpr hdeclared
  · rw [Json.Reader.ofText, Json.ofText?_render (textual_sorted_toJson proof)]
    exact mapError_eq_ok_iff.mpr hsorted

end StorageProof

/-- A slot or quantity is the number of its digits for every reader. Users write a slot with 1 to 64 digits,
the node with any that fit into it, quantities have any digits or none. An entry that was read is written in
digits that are read as the same entry. -/
theorem readers_agree_on_numbers :
    (∀ text slot, Argument.slot text = .ok slot → Rpc.slot (.string text) = .ok slot) ∧
    (∀ text slot, Rpc.slot (.string text) = .ok slot → 1 ≤ (stripHexMark text).length →
      (stripHexMark text).length ≤ 64 → Argument.slot text = .ok slot) ∧
    (∀ text, (∃ bytes, quantity? text = .ok bytes) ↔
      ∀ c ∈ (stripHexMark text).toList, (Text.digit? 16 c).isSome) ∧
    (∀ text bytes, quantity? text = .ok bytes →
      Text.ofDigits? 16 (stripHexMark text).toList = some (ofBigEndian bytes) ∧ bytes.head? ≠ some 0) ∧
    ∀ json entry, StorageProof.reader json = .ok entry →
      StorageProof.reader entry.toJson = .ok entry ∧ StorageProof.reader entry.toJson.sorted = .ok entry ∧
        StorageProof.reader.ofText entry.toJson.render = .ok entry ∧
        StorageProof.reader.ofText entry.toJson.sorted.render = .ok entry := by
  refine ⟨fun text slot h => ?_, fun text slot h hpos hle => ?_, fun text => ?_, fun text bytes h => ?_,
    fun json entry => StorageProof.reader_again⟩
  · exact slot_string_eq_ok_iff.mpr (Argument.slot_eq_ok_iff_rpcSlot.mp h).2
  · exact Argument.slot_eq_ok_iff_rpcSlot.mpr ⟨⟨hpos, hle⟩, slot_string_eq_ok_iff.mp h⟩
  · rw [← Hex.isSome_numberOf?_iff, Option.isSome_iff_exists]
    simp only [quantity?_eq_ok_iff, exists_comm (α := Bytes), exists_and_left, exists_eq, and_true]
  · obtain ⟨n, hn, rfl⟩ := quantity?_eq_ok_iff.mp h
    rw [ofBigEndian_bigEndian]
    exact ⟨hn, head?_bigEndian_ne n⟩

theorem readers_agree_on_numbers_short :
    let entry : StorageProof := ⟨.padLeft 32 [0x0a, 0xbc], [0x01, 0x00], ["0xC0"]⟩
    let document : Json := .object [
      ("key", .string "0x00aBC"), ("proof", .array [.string "0xC0"]), ("value", .string "0x00100")]
    Argument.slot "aBc" = .ok entry.key ∧ Rpc.slot (.string "aBc") = .ok entry.key ∧
      Rpc.slot (.string "0x00aBC") = .ok entry.key ∧ Argument.slot "0x00aBC" = .ok entry.key ∧
      quantity? "0x00100" = .ok entry.value ∧
      Text.ofDigits? 16 (stripHexMark "0x00100").toList = some (ofBigEndian entry.value) ∧
      StorageProof.reader document = .ok entry ∧
      StorageProof.reader.ofText entry.toJson.render = .ok entry := by
  intro entry document
  obtain ⟨hnode, huser, -, hquantity, hentry⟩ := readers_agree_on_numbers
  have htyped : Argument.slot "aBc" = .ok entry.key := by decide
  have hslot : Rpc.slot (.string "0x00aBC") = .ok entry.key := by decide
  have hvalue : quantity? "0x00100" = .ok entry.value := by decide
  have hread : StorageProof.reader document = .ok entry := by decide
  exact ⟨htyped, hnode _ _ htyped, hslot, huser _ _ hslot (by decide) (by decide), hvalue,
    (hquantity _ _ hvalue).1, hread, (hentry _ _ hread).2.2.1⟩

end Rpc

end BlockAudit
