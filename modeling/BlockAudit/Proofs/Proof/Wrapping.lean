import BlockAudit.Proofs.Proof.EntrySet
import BlockAudit.Proofs.Rlp.Spelling

/-!
Which entries wrap a message: one byte string from end to end. A message has its canonical entry, and a
message of a single small byte has one more. Lists, entries that are cut short and entries that go on after
the string are refused.
-/
namespace BlockAudit.Proof

open Rlp (Spells)

variable {blob message : Bytes}

/-- Once a string is found it has to be the whole entry. -/
theorem unwrap_of_extent {extent : Rlp.Extent} (h : Rlp.extent blob = .ok extent) :
    unwrap blob =
      if Rlp.isList blob ∨ extent.total ≠ blob.length then
        .error (.invalidWrapping (.notOneString blob.length))
      else .ok (blob.drop extent.header) := by
  rw [unwrap, h, mapError_ok, ok_bind]
  exact if_congr (by simp) rfl rfl

theorem unwrap_eq_ok_iff_spells : unwrap blob = .ok message ↔ Spells 0x80 blob message := by
  constructor
  · intro h
    obtain ⟨e, hextent, -⟩ := bind_eq_ok_iff.mp h
    rw [mapError_eq_ok_iff] at hextent
    rw [unwrap_of_extent hextent] at h
    split at h
    · cases h
    · rename_i hwhole
      cases h
      rw [not_or, Bool.not_eq_true, not_not] at hwhole
      obtain ⟨hstring, htotal⟩ := hwhole
      obtain ⟨base, front, payload, rest, hspells, rfl, rfl⟩ := Rlp.exists_spells_of_extent hextent
      have hrest : rest = [] := by
        simp only [Rlp.Extent.total, List.length_append] at htotal
        exact List.length_eq_zero_iff.mp (by omega)
      subst hrest
      rw [hspells.isList_append, decide_eq_false_iff_not] at hstring
      obtain rfl : base = 0x80 := hspells.base_cases.resolve_right hstring
      rw [List.append_nil, List.drop_left]
      exact hspells
  · intro h
    obtain ⟨front, rfl, hextent⟩ := h.exists_extent []
    have hstring := h.isList_append []
    rw [List.append_nil] at hextent hstring
    rw [unwrap_of_extent hextent, hstring, if_neg (by simp [Rlp.Extent.total]), List.drop_left]

/-- A string that is found and held against the whole entry is then read without fail. -/
theorem payload_of_extent {extent : Rlp.Extent} (h : Rlp.extent blob = .ok extent)
    (hstring : Rlp.isList blob = false) (htotal : extent.total = blob.length) :
    ∃ read, Rlp.payload blob = .ok read ∧ unwrap blob = .ok read := by
  have hlength : (blob.drop extent.header).length = extent.payload := by
    rw [Rlp.Extent.total] at htotal
    rw [List.length_drop]
    omega
  refine ⟨blob.drop extent.header, ?_, ?_⟩
  · rw [Rlp.payload, h, ok_bind, ← hlength, List.take_length, pure_eq_ok]
  · rw [unwrap_of_extent h, hstring, htotal, if_neg (by simp)]

theorem unwrap_of_isList (h : Rlp.isList blob) :
    ∃ cause, unwrap blob = .error (.invalidWrapping cause) := by
  cases hunwrap : unwrap blob with
  | error e =>
    obtain ⟨cause, rfl⟩ := exists_cause_of_unwrap hunwrap
    exact ⟨cause, rfl⟩
  | ok message =>
    have hstring := (unwrap_eq_ok_iff_spells.mp hunwrap).isList_append []
    rw [List.append_nil, h] at hstring
    cases hstring

section Spells

variable (h : Spells 0x80 blob message)
include h

theorem unwrap_of_prefix {front : Bytes} (hfront : front <+: blob) (hne : front ≠ blob) :
    unwrap front = .error (.invalidWrapping (.rlp .isTooShort)) := by
  rw [unwrap, h.extent_of_prefix hfront hne]
  rfl

theorem unwrap_append {more : Bytes} (hmore : more ≠ []) :
    unwrap (blob ++ more) = .error (.invalidWrapping (.notOneString (blob ++ more).length)) := by
  obtain ⟨front, rfl, hextent⟩ := h.exists_extent more
  have hlength := List.length_pos_iff.mpr hmore
  have htotal : (⟨front.length, message.length⟩ : Rlp.Extent).total ≠
      (front ++ message ++ more).length := by
    simp only [Rlp.Extent.total, List.length_append]
    omega
  rw [unwrap_of_extent hextent, if_pos (.inr htotal)]

end Spells

/-- A message is found in its canonical entry, and a single small byte also behind a header of its own, but in no
other entry. Headers reach lengths below 2^64. So every message that can be written is read back; lists, proper
fronts of what is accepted and whatever goes on after it are refused; and once the string is found to be the
whole entry nothing can fail. -/
theorem unwrap_eq_ok_iff (blob message : Bytes) :
    (unwrap blob = .ok message ↔
      message.length < 2 ^ 64 ∧ blob = Rlp.encodeBytes message ∨
        ∃ byte < 0x80, message = [byte] ∧ blob = [0x81, byte]) ∧
    (message.length < 2 ^ 64 → unwrap (Rlp.encodeBytes message) = .ok message) ∧
    (Rlp.isList blob → ∃ cause, unwrap blob = .error (.invalidWrapping cause)) ∧
    (unwrap blob = .ok message →
      (∀ front, front <+: blob → front ≠ blob →
        unwrap front = .error (.invalidWrapping (.rlp .isTooShort))) ∧
      ∀ more, more ≠ [] →
        unwrap (blob ++ more) =
          .error (.invalidWrapping (.notOneString (blob ++ more).length))) ∧
    (∀ extent, Rlp.extent blob = .ok extent → Rlp.isList blob = false →
      extent.total = blob.length →
        ∃ read, Rlp.payload blob = .ok read ∧ unwrap blob = .ok read) := by
  refine ⟨unwrap_eq_ok_iff_spells.trans Rlp.spells_string_iff, unwrap_encodeBytes, unwrap_of_isList, ?_,
    fun extent => payload_of_extent⟩
  intro h
  have hspells := unwrap_eq_ok_iff_spells.mp h
  exact ⟨fun front hfront => unwrap_of_prefix hspells hfront,
    fun more hmore => unwrap_append hspells hmore⟩

/-- A message of 56 bytes has a header of two bytes, and a small byte has two entries. -/
theorem unwrap_eq_ok_iff_sample :
    unwrap (0xb8 :: 56 :: List.replicate 56 7) = .ok (List.replicate 56 7) ∧
      unwrap [0x81, 7] = .ok [7] ∧ unwrap [0x81] = .error (.invalidWrapping (.rlp .isTooShort)) ∧
      unwrap [0x81, 7, 7] = .error (.invalidWrapping (.notOneString 3)) := by
  have hbytes : Rlp.encodeBytes (List.replicate 56 7) = 0xb8 :: 56 :: List.replicate 56 7 := by
    decide +kernel
  obtain ⟨-, hlong, -⟩ := unwrap_eq_ok_iff [] (List.replicate 56 7)
  rw [hbytes] at hlong
  obtain ⟨hsmall, -, -, hends, -⟩ := unwrap_eq_ok_iff [0x81, 7] [7]
  have hread : unwrap [0x81, 7] = .ok [7] := hsmall.mpr (.inr ⟨7, by decide, rfl, rfl⟩)
  obtain ⟨hfront, hmore⟩ := hends hread
  exact ⟨hlong (by decide +kernel), hread, hfront [0x81] (by decide) (by decide), hmore [7] (by decide)⟩

end BlockAudit.Proof
