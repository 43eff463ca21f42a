import BlockAudit.Proofs.Outcome
import BlockAudit.Proofs.Transaction
import BlockAudit.Rpc.Transaction
import Mathlib.Data.List.Nodup

/-!
Choosing how the zeros of a transaction are written. The candidates are all choices without those that
would lead to the bytes of another candidate, so that none is missing where a hash is looked for.
-/
namespace BlockAudit

open Rlp (Item)

section Amount

variable {amount amount' : Word} {raw raw' : Bool}

/-- A zero takes one byte, however it is written. -/
theorem length_encode_amountItem (amount : Word) (raw raw' : Bool) :
    (amountItem amount raw).encode.length = (amountItem amount raw').encode.length := by
  by_cases hzero : amount = 0
  · subst hzero
    rw [amountItem_zero, amountItem_zero]
    cases raw <;> cases raw' <;> rfl
  · rw [amountItem_of_ne_zero hzero, amountItem_of_ne_zero hzero]

theorem amountItem_of_encode_eq
    (h : (amountItem amount raw).encode = (amountItem amount' raw').encode) :
    amountItem amount raw = amountItem amount' raw' := by
  have hstring : ∀ amount raw, ∃ bytes, amountItem amount raw = .string bytes := fun amount raw => by
    unfold amountItem
    split
    · exact ⟨_, rfl⟩
    · exact ⟨_, rfl⟩
  obtain ⟨bytes, hbytes⟩ := hstring amount raw
  obtain ⟨bytes', hbytes'⟩ := hstring amount' raw'
  rw [hbytes, hbytes', Item.encode, Item.encode] at h
  rw [hbytes, hbytes', Rlp.encodeBytes_injective h]

end Amount

namespace Transaction

section Encode

variable (tx : Transaction) {z z' : RawZeros}

/-- Choices agree where they show: in amounts that are encoded and zero. -/
theorem agrees_withRawZeros_iff :
    (tx.withRawZeros z).Agrees (tx.withRawZeros z') ↔
      (tx.nonce = 0 → z.nonce = z'.nonce) ∧
        (tx.type ≠ .dynamicFee → tx.gasPrice = 0 → z.gasPrice = z'.gasPrice) ∧
        (tx.value = 0 → z.value = z'.value) := by
  constructor
  · intro h
    exact ⟨h.rawNonce, h.rawGasPrice, h.rawValue⟩
  · rintro ⟨hnonce, hgasPrice, hvalue⟩
    have hsame : tx.Agrees tx := by constructor <;> simp
    exact { hsame with rawNonce := hnonce, rawGasPrice := hgasPrice, rawValue := hvalue }

theorem feeItems_of_ne_dynamicFee {tx : Transaction} (h : tx.type ≠ .dynamicFee) :
    tx.feeItems = [amountItem tx.gasPrice tx.rawZeros.gasPrice] := by
  unfold feeItems
  cases htype : tx.type with
  | legacy => rfl
  | accessList => rfl
  | dynamicFee => exact absurd htype h

/-- The items of both have encodings of the same lengths. -/
theorem lengths_items_withRawZeros :
    ((tx.withRawZeros z).items.map Item.encode).map List.length =
      ((tx.withRawZeros z').items.map Item.encode).map List.length := by
  rw [items_eq, items_eq]
  unfold withRawZeros chainItems feeItems recipientItem accessItems
  have hnonce := length_encode_amountItem tx.nonce z.nonce z'.nonce
  have hgasPrice := length_encode_amountItem tx.gasPrice z.gasPrice z'.gasPrice
  have hvalue := length_encode_amountItem tx.value z.value z'.value
  cases tx.type <;> simp [hnonce, hgasPrice, hvalue]

/-- Transactions that differ in the choice of raw zeros have the same encoding exactly if they agree. No
size is asked for. -/
theorem encode_withRawZeros_eq_iff :
    (tx.withRawZeros z).encode = (tx.withRawZeros z').encode ↔
      (tx.withRawZeros z).Agrees (tx.withRawZeros z') := by
  constructor
  · intro h
    -- `encode_eq_iff_agrees` would ask for a bound, which equal lengths item by item do without
    have hitems := Item.map_encode_of_encode_eq tx.lengths_items_withRawZeros
      (List.append_cancel_left h)
    have htype : (tx.withRawZeros z).type = (tx.withRawZeros z').type := rfl
    have hfee_length : ((tx.withRawZeros z).feeItems.map Item.encode).length =
        ((tx.withRawZeros z').feeItems.map Item.encode).length := by
      rw [List.length_map, List.length_map, (length_envelope htype).2.1]
    rw [items_eq, items_eq] at hitems
    simp only [List.map_append, List.map_cons] at hitems
    obtain ⟨-, hitems⟩ := List.append_inj hitems rfl
    obtain ⟨hnonce, hitems⟩ := List.cons.inj hitems
    obtain ⟨hfee, hitems⟩ := List.append_inj hitems hfee_length
    simp only [List.cons.injEq] at hitems
    obtain ⟨-, -, hvalue, -⟩ := hitems
    refine tx.agrees_withRawZeros_iff.mpr ⟨?_, ?_, ?_⟩
    · exact (amountItem_eq_iff.mp (amountItem_of_encode_eq hnonce)).2
    · intro hne
      have hprice : ∀ choice, (tx.withRawZeros choice).feeItems =
          [amountItem tx.gasPrice choice.gasPrice] := fun _ => feeItems_of_ne_dynamicFee hne
      rw [hprice, hprice] at hfee
      exact (amountItem_eq_iff.mp (amountItem_of_encode_eq (List.cons.inj hfee).1)).2
    · exact (amountItem_eq_iff.mp (amountItem_of_encode_eq hvalue)).2
  · exact encode_eq_of_agrees

end Encode

section Candidates

variable {tx : Transaction} {z z' : RawZeros}

theorem admits_iff :
    tx.admits z ↔
      (z.nonce → tx.nonce = 0) ∧ (z.gasPrice → tx.gasPrice = 0 ∧ tx.type ≠ .dynamicFee) ∧
        (z.value → tx.value = 0) := by
  unfold admits
  cases z.nonce <;> cases z.gasPrice <;> cases z.value <;> simp [and_assoc]

theorem mem_rawZeroCandidates_iff : z ∈ tx.rawZeroCandidates ↔ tx.admits z := by
  have hall : z ∈ RawZeros.all := by
    obtain ⟨nonce, gasPrice, value⟩ := z
    revert nonce gasPrice value
    decide
  rw [rawZeroCandidates, List.mem_filter]
  exact and_iff_right hall

/-- The canonical choice comes first. -/
theorem head?_rawZeroCandidates (tx : Transaction) : tx.rawZeroCandidates.head? = some {} := by
  rw [rawZeroCandidates, RawZeros.all, List.filter_cons_of_pos (by rfl)]
  rfl

/-- Candidates that agree are the same, because they have no raw zero where it would not show. -/
theorem eq_of_agrees_of_admits (hz : tx.admits z) (hz' : tx.admits z')
    (h : (tx.withRawZeros z).Agrees (tx.withRawZeros z')) : z = z' := by
  obtain ⟨hnonce, hgasPrice, hvalue⟩ := admits_iff.mp hz
  obtain ⟨hnonce', hgasPrice', hvalue'⟩ := admits_iff.mp hz'
  obtain ⟨hsame_nonce, hsame_gasPrice, hsame_value⟩ := tx.agrees_withRawZeros_iff.mp h
  have hflag : ∀ (a b : Bool) (p : Prop), (a → p) → (b → p) → (p → a = b) → a = b := by
    intro a b p ha hb hab
    cases a <;> cases b <;> simp_all
  cases z
  cases z'
  rw [RawZeros.mk.injEq]
  exact ⟨hflag _ _ _ hnonce hnonce' hsame_nonce,
    hflag _ _ _ hgasPrice hgasPrice' fun h => hsame_gasPrice h.2 h.1,
    hflag _ _ _ hvalue hvalue' hsame_value⟩

/-- A choice without the raw zeros that do not show. -/
def shown (tx : Transaction) (z : RawZeros) : RawZeros where
  nonce := z.nonce && tx.nonce == 0
  gasPrice := z.gasPrice && (tx.gasPrice == 0 && tx.type != .dynamicFee)
  value := z.value && tx.value == 0

theorem admits_shown (tx : Transaction) (z : RawZeros) : tx.admits (tx.shown z) := by
  rw [admits_iff]
  simp [shown]

theorem encode_shown (tx : Transaction) (z : RawZeros) :
    (tx.withRawZeros (tx.shown z)).encode = (tx.withRawZeros z).encode := by
  refine encode_eq_of_agrees (tx.agrees_withRawZeros_iff.mpr ⟨?_, ?_, ?_⟩)
  · intro hnonce
    simp [shown, hnonce]
  · intro hne hgasPrice
    simp [shown, hne, hgasPrice]
  · intro hvalue
    simp [shown, hvalue]

theorem nodup_encode_rawZeroCandidates (tx : Transaction) :
    (tx.rawZeroCandidates.map fun z => (tx.withRawZeros z).encode).Nodup := by
  have hall : RawZeros.all.Nodup := by decide
  refine (hall.filter _).map_on fun z hz z' hz' h => ?_
  exact eq_of_agrees_of_admits (mem_rawZeroCandidates_iff.mp hz) (mem_rawZeroCandidates_iff.mp hz')
    (tx.encode_withRawZeros_eq_iff.mp h)

/-- Every choice is encoded like one candidate. -/
theorem existsUnique_rawZeroCandidate (tx : Transaction) (z : RawZeros) :
    ∃! candidate, candidate ∈ tx.rawZeroCandidates ∧
      (tx.withRawZeros candidate).encode = (tx.withRawZeros z).encode := by
  refine ⟨tx.shown z, ⟨mem_rawZeroCandidates_iff.mpr (tx.admits_shown z), tx.encode_shown z⟩, ?_⟩
  rintro candidate ⟨hmem, hencode⟩
  exact eq_of_agrees_of_admits (mem_rawZeroCandidates_iff.mp hmem) (tx.admits_shown z)
    (tx.encode_withRawZeros_eq_iff.mp (hencode.trans (tx.encode_shown z).symm))

end Candidates

end Transaction

namespace Rpc.Transaction

variable {reported : Rpc.Transaction} {tx : BlockAudit.Transaction}

/-- A transaction is reported with all zeros in canonical form. -/
theorem rawZeros_of_toCanonical (h : reported.toCanonical = .ok tx) : tx.rawZeros = {} := by
  unfold toCanonical at h
  obtain ⟨type, -, h⟩ := bind_eq_ok_iff.mp h
  dsimp only at h
  cases type with
  | legacy =>
    obtain ⟨gasPrice, -, h⟩ := bind_eq_ok_iff.mp h
    cases h
    rfl
  | accessList =>
    obtain ⟨chainId, -, h⟩ := bind_eq_ok_iff.mp h
    obtain ⟨gasPrice, -, h⟩ := bind_eq_ok_iff.mp h
    cases h
    rfl
  | dynamicFee =>
    obtain ⟨chainId, -, h⟩ := bind_eq_ok_iff.mp h
    obtain ⟨priority, -, h⟩ := bind_eq_ok_iff.mp h
    obtain ⟨max, -, h⟩ := bind_eq_ok_iff.mp h
    cases h
    rfl

/-- What is returned is the canonical transaction with the first candidate that leads to the reported
hash, or with none. -/
theorem toTransaction_cases (h : reported.toTransaction = .ok tx) :
    reported.toCanonical = .ok (tx.withRawZeros {}) ∧
      ((∃ before after, tx.rawZeroCandidates = before ++ tx.rawZeros :: after ∧
          tx.hash = reported.hash ∧ ∀ z ∈ before, (tx.withRawZeros z).hash ≠ reported.hash) ∨
        tx.rawZeros = {} ∧ ∀ z ∈ tx.rawZeroCandidates, (tx.withRawZeros z).hash ≠ reported.hash) := by
  unfold toTransaction at h
  obtain ⟨canonical, hcanonical, h⟩ := bind_eq_ok_iff.mp h
  have hraw := rawZeros_of_toCanonical hcanonical
  have hself : canonical.withRawZeros {} = canonical := by
    rw [← hraw]
    rfl
  split at h
  · rename_i z hfind
    cases h
    obtain ⟨hmatch, before, after, hcandidates, hbefore⟩ := List.find?_eq_some_iff_append.mp hfind
    refine ⟨hself.symm ▸ hcanonical, .inl ⟨before, after, hcandidates, eq_of_beq hmatch, ?_⟩⟩
    intro choice hchoice
    have hne : (canonical.withRawZeros choice).hash ≠ reported.hash := by
      simpa using hbefore choice hchoice
    exact hne
  · rename_i hfind
    cases h
    refine ⟨hself.symm ▸ hcanonical, .inr ⟨hraw, ?_⟩⟩
    simpa using hfind

/-- The reported hash is reached if any choice leads to it. -/
theorem hash_of_exists_choice (h : reported.toTransaction = .ok tx)
    (hchoice : ∃ z, (tx.withRawZeros z).hash = reported.hash) : tx.hash = reported.hash := by
  obtain ⟨-, ⟨before, after, -, hmatch, -⟩ | ⟨-, hnone⟩⟩ := toTransaction_cases h
  · exact hmatch
  · obtain ⟨z, hz⟩ := hchoice
    obtain ⟨candidate, ⟨hmem, hencode⟩, -⟩ := tx.existsUnique_rawZeroCandidate z
    refine absurd ?_ (hnone candidate hmem)
    rw [BlockAudit.Transaction.hash, hencode]
    exact hz

/-- Zeros are in canonical form unless another choice is the one that leads to the reported hash. -/
theorem rawZeros_of_canonical (h : reported.toTransaction = .ok tx)
    (hchoice : (tx.withRawZeros {}).hash = reported.hash ∨ tx.hash ≠ reported.hash) :
    tx.rawZeros = {} := by
  obtain ⟨-, ⟨before, after, hcandidates, hmatch, hbefore⟩ | ⟨hraw, -⟩⟩ := toTransaction_cases h
  · have hcanonical := hchoice.resolve_right (not_not_intro hmatch)
    have hhead := tx.head?_rawZeroCandidates
    rw [hcandidates] at hhead
    cases before with
    | nil => exact Option.some.inj hhead
    | cons first rest =>
      obtain rfl : first = {} := Option.some.inj hhead
      exact absurd hcanonical (hbefore {} List.mem_cons_self)
  · exact hraw

end Rpc.Transaction

/-- The candidates have different encodings, the canonical one first, and among them is every encoding that
some choice of raw zeros leads to. So the transaction taken from a report has the reported hash if any
choice leads to it, and zeros in canonical form if that is a choice which does, or if none does. -/
theorem rawZeroCandidates_complete :
    (∀ tx : Transaction,
      (tx.rawZeroCandidates.map fun z => (tx.withRawZeros z).encode).Nodup ∧
        tx.rawZeroCandidates.head? = some {} ∧
        ∀ z, ∃! candidate, candidate ∈ tx.rawZeroCandidates ∧
          (tx.withRawZeros candidate).encode = (tx.withRawZeros z).encode) ∧
      ∀ (reported : Rpc.Transaction) (tx : Transaction), reported.toTransaction = .ok tx →
        reported.toCanonical = .ok (tx.withRawZeros {}) ∧
          ((∃ z, keccak (tx.withRawZeros z).encode = reported.hash) →
            tx.hash = reported.hash) ∧
          ((keccak (tx.withRawZeros {}).encode = reported.hash ∨
              ∀ z, keccak (tx.withRawZeros z).encode ≠ reported.hash) →
            tx.encode = (tx.withRawZeros {}).encode) := by
  constructor
  · intro tx
    exact ⟨tx.nodup_encode_rawZeroCandidates, tx.head?_rawZeroCandidates,
      tx.existsUnique_rawZeroCandidate⟩
  · intro reported tx h
    refine ⟨(Rpc.Transaction.toTransaction_cases h).1, Rpc.Transaction.hash_of_exists_choice h, ?_⟩
    intro hchoice
    have hraw : tx.rawZeros = {} :=
      Rpc.Transaction.rawZeros_of_canonical h (hchoice.imp_right fun hnone => hnone tx.rawZeros)
    rw [← hraw]
    rfl

/-- A contract creation whose sender wrote the nonce as the byte 00. -/
def sampleCreation : Transaction where
  gasPrice := 1
  gas := 21000
  data := [0x60]
  rawZeros := ⟨true, false, false⟩

def sampleReport : Rpc.Transaction where
  hash := sampleCreation.hash
  nonce := 0
  transactionIndex := none
  sender := none
  recipient := none
  gas := 21000
  gasPrice := some 1
  maxFeePerGas := none
  maxPriorityFeePerGas := none
  value := 0
  input := [0x60]
  v := 0
  r := 0
  s := 0
  type := none
  chainId := none
  accessList := []

/-- The raw nonce is found again, though the value is zero too. -/
theorem rawZeroCandidates_complete_sample :
    (sampleReport.toTransaction = .ok sampleCreation ∧ sampleCreation.hash = sampleReport.hash) ∧
      sampleReport.toCanonical = .ok (sampleCreation.withRawZeros {}) := by
  have h : sampleReport.toTransaction = .ok sampleCreation := by decide +kernel
  obtain ⟨-, hreport⟩ := rawZeroCandidates_complete
  obtain ⟨hcanonical, hmatch, -⟩ := hreport _ _ h
  exact ⟨⟨h, hmatch ⟨⟨true, false, false⟩, rfl⟩⟩, hcanonical⟩

end BlockAudit
