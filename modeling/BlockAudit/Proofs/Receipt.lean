import BlockAudit.Proofs.Transaction
import BlockAudit.Receipt

/-!
An encoded receipt can be read in one way only, down to the topics of its logs.
-/
namespace BlockAudit

open Rlp (Item)

theorem Log.item_injective : Function.Injective Log.item := by
  intro a b h
  simp only [item, Item.list.injEq, Item.string.injEq, List.cons.injEq, and_true] at h
  obtain ⟨haddress, htopics, hdata⟩ := h
  have htopics := (List.map_inj_right fun _ _ => Item.ofFixed_inj).mp htopics
  cases a
  cases b
  rw [Log.mk.injEq]
  exact ⟨Item.ofFixed_inj haddress, htopics, hdata⟩

namespace Receipt

/-- Receipts have the same encoding exactly if they are the same. Encodings are of a size that a memory
can hold. -/
theorem encode_eq_iff (a b : Receipt) (hlt : a.encode.length < 2 ^ 64) :
    a.encode = b.encode ↔ a = b := by
  constructor
  · intro h
    obtain ⟨htype, hitems⟩ := TxType.mark_append_list_inj h hlt
    simp only [List.cons.injEq, Item.string.injEq, Item.list.injEq, and_true] at hitems
    obtain ⟨hstate, hcumulative, hbloom, hlogs, hused, hsucceeded⟩ := hitems
    have hlogs := (List.map_inj_right Log.item_injective).mp hlogs
    cases a
    cases b
    rw [Receipt.mk.injEq]
    exact ⟨htype, hstate, Item.ofWord_inj hcumulative, Item.ofFixed_inj hbloom, hlogs,
      Item.ofWord_inj hused, Item.ofBool_inj hsucceeded⟩
  · rintro rfl
    rfl

/-- A receipt of one log, which may be long enough for a header of more than one byte. -/
def sample (topics : List Hash) (data : Bytes) : Receipt where
  type := .dynamicFee
  logs := [⟨.zero 20, topics, data⟩]
  succeeded := true

/-- The last topic is not taken for the beginning of the data. -/
theorem encode_eq_iff_sample :
    (sample [.zero 32, .zero 32] (List.replicate 60 7)).encode ≠
      (sample [.zero 32] (List.replicate 32 0 ++ List.replicate 60 7)).encode := by
  have hlt : (sample [.zero 32, .zero 32] (List.replicate 60 7)).encode.length < 2 ^ 64 := by
    decide +kernel
  intro h
  exact absurd ((encode_eq_iff _ _ hlt).mp h) (by decide +kernel)

end Receipt

end BlockAudit
