import BlockAudit.Proofs.Rlp.Item
import BlockAudit.Transaction

/-!
An encoded transaction can be read in one way only. Envelopes do not run into one another, and a zero that
is written as the byte 00 is told from one that is written as an empty string.
-/
namespace BlockAudit

open Rlp (Item)

namespace TxType

variable {type type' : TxType}

/-- No list begins with a mark. -/
theorem mark_append_inj {x y : Bytes} (hx : Rlp.isList x) (hy : Rlp.isList y)
    (h : type.mark ++ x = type'.mark ++ y) : type = type' ∧ x = y := by
  have hone : ∀ z : Bytes, Rlp.isList (1 :: z) = false := fun _ => rfl
  have htwo : ∀ z : Bytes, Rlp.isList (2 :: z) = false := fun _ => rfl
  cases type <;> cases type' <;> grind [mark]

/-- The envelope and the items show in the bytes. -/
theorem mark_append_list_inj {items items' : List Item}
    (h : type.mark ++ (Item.list items).encode = type'.mark ++ (Item.list items').encode)
    (hlt : (type.mark ++ (Item.list items).encode).length < 256 ^ 8) :
    type = type' ∧ items = items' := by
  have hlt' := hlt
  rw [h] at hlt'
  rw [List.length_append] at hlt hlt'
  have hpayload := (Item.list items).length_payload_le
  have hpayload' := (Item.list items').length_payload_le
  rw [Item.payload] at hpayload hpayload'
  -- within the bound a list begins with a byte from 0xc0 on, out of reach of the marks
  have hlist := Item.isList_encode_list (show (Item.encodeAll items).length < 256 ^ 8 by omega)
  have hlist' := Item.isList_encode_list (show (Item.encodeAll items').length < 256 ^ 8 by omega)
  obtain ⟨htype, hencode⟩ := mark_append_inj hlist hlist' h
  exact ⟨htype, Item.list.inj (Item.encode_inj hencode (by omega))⟩

end TxType

section Amount

variable {amount amount' : Word} {raw raw' : Bool}

/-- An amount is read back, however it was written. -/
theorem ofBigEndian_payload_amountItem (amount : Word) (raw : Bool) :
    ofBigEndian (amountItem amount raw).payload = amount.toNat := by
  unfold amountItem
  split
  · rename_i hraw
    obtain ⟨-, hzero⟩ := Bool.and_eq_true_iff.mp hraw
    rw [eq_of_beq hzero]
    rfl
  · exact ofBigEndian_bigEndian amount.toNat

theorem amountItem_of_ne_zero (h : amount ≠ 0) (raw : Bool) :
    amountItem amount raw = .ofWord amount := by
  have hraw : (raw && amount == 0) = false := by
    rw [beq_eq_false_iff_ne.mpr h, Bool.and_false]
  rw [amountItem, hraw, if_neg Bool.false_ne_true]

/-- A zero is a string of one zero byte, or the empty string. -/
theorem amountItem_zero (raw : Bool) : amountItem 0 raw = .string (if raw then [0] else []) := by
  cases raw with
  | true => rfl
  | false => simp [amountItem, Item.ofWord, Item.ofNat, bigEndian, littleEndian]

theorem amountItem_zero_inj (h : amountItem 0 raw = amountItem 0 raw') : raw = raw' := by
  rw [amountItem_zero, amountItem_zero, Item.string.injEq] at h
  cases raw <;> cases raw' <;> simp_all

/-- Two amounts are written alike if they are the same, and zeros in the same way. -/
theorem amountItem_eq_iff :
    amountItem amount raw = amountItem amount' raw' ↔
      amount = amount' ∧ (amount = 0 → raw = raw') := by
  constructor
  · intro h
    have hnat := congrArg (fun item => ofBigEndian item.payload) h
    rw [ofBigEndian_payload_amountItem, ofBigEndian_payload_amountItem] at hnat
    obtain rfl := BitVec.eq_of_toNat_eq hnat
    refine ⟨rfl, fun hzero => ?_⟩
    subst hzero
    exact amountItem_zero_inj h
  · rintro ⟨rfl, hraw⟩
    by_cases hzero : amount = 0
    · rw [hraw hzero]
    · rw [amountItem_of_ne_zero hzero, amountItem_of_ne_zero hzero]

end Amount

theorem Access.item_injective : Function.Injective Access.item := by
  intro a b h
  simp only [item, Item.list.injEq, List.cons.injEq, and_true] at h
  obtain ⟨haddress, hkeys⟩ := h
  have hkeys := (List.map_inj_right fun _ _ => Item.ofFixed_inj).mp hkeys
  cases a
  cases b
  rw [Access.mk.injEq]
  exact ⟨Item.ofFixed_inj haddress, hkeys⟩

namespace Transaction

variable {a b : Transaction}

/-- Two transactions agree on every field that their envelope carries, and on how zeros are written. -/
structure Agrees (a b : Transaction) : Prop where
  type : a.type = b.type
  chainId : a.type ≠ .legacy → a.chainId = b.chainId
  nonce : a.nonce = b.nonce
  gasPrice : a.type ≠ .dynamicFee → a.gasPrice = b.gasPrice
  maxPriorityFeePerGas : a.type = .dynamicFee → a.maxPriorityFeePerGas = b.maxPriorityFeePerGas
  maxFeePerGas : a.type = .dynamicFee → a.maxFeePerGas = b.maxFeePerGas
  gas : a.gas = b.gas
  recipient : a.recipient = b.recipient
  value : a.value = b.value
  data : a.data = b.data
  accessList : a.type ≠ .legacy → a.accessList = b.accessList
  v : a.v = b.v
  r : a.r = b.r
  s : a.s = b.s
  rawNonce : a.nonce = 0 → a.rawZeros.nonce = b.rawZeros.nonce
  rawGasPrice : a.type ≠ .dynamicFee → a.gasPrice = 0 →
    a.rawZeros.gasPrice = b.rawZeros.gasPrice
  rawValue : a.value = 0 → a.rawZeros.value = b.rawZeros.value

/-- No recipient is told from every address. -/
theorem recipient_of_recipientItem (h : a.recipientItem = b.recipientItem) :
    a.recipient = b.recipient := by
  have hne : ∀ address : Address, address.toBytes ≠ [] := fun address hnil => by
    have hlength := address.length_toBytes
    rw [hnil] at hlength
    cases hlength
  have hbytes := Item.string.inj h
  cases ha : a.recipient with
  | none =>
    cases hb : b.recipient with
    | none => rfl
    | some address =>
      rw [ha, hb] at hbytes
      exact absurd hbytes.symm (hne address)
  | some address =>
    cases hb : b.recipient with
    | none =>
      rw [ha, hb] at hbytes
      exact absurd hbytes (hne address)
    | some address' =>
      rw [ha, hb] at hbytes
      rw [FixedBytes.ext hbytes]

/-- The chain id, where the envelope has one. -/
def chainItems (tx : Transaction) : List Item :=
  if tx.type = .legacy then [] else [.ofUInt64 tx.chainId]

/-- The access list, where the envelope has one. -/
def accessItems (tx : Transaction) : List Item :=
  if tx.type = .legacy then [] else [.list (tx.accessList.map Access.item)]

theorem items_eq (tx : Transaction) :
    tx.items = tx.chainItems ++ (amountItem tx.nonce tx.rawZeros.nonce :: (tx.feeItems ++
      (.ofWord tx.gas :: tx.recipientItem :: amountItem tx.value tx.rawZeros.value ::
        .string tx.data :: (tx.accessItems ++ [.ofWord tx.v, .ofWord tx.r, .ofWord tx.s])))) := by
  unfold items chainItems accessItems
  cases tx.type <;> simp

section Envelope

variable (htype : a.type = b.type)
include htype

theorem chainItems_eq_iff :
    a.chainItems = b.chainItems ↔ (a.type ≠ .legacy → a.chainId = b.chainId) := by
  unfold chainItems
  rw [← htype]
  by_cases hlegacy : a.type = .legacy
  · simp [hlegacy]
  · rw [if_neg hlegacy, if_neg hlegacy, List.cons.injEq]
    exact ⟨fun h _ => Item.ofUInt64_inj h.1, fun h => ⟨by rw [h hlegacy], rfl⟩⟩

theorem accessItems_eq_iff :
    a.accessItems = b.accessItems ↔ (a.type ≠ .legacy → a.accessList = b.accessList) := by
  unfold accessItems
  rw [← htype]
  by_cases hlegacy : a.type = .legacy
  · simp [hlegacy]
  · rw [if_neg hlegacy, if_neg hlegacy, List.cons.injEq, Item.list.injEq,
      List.map_inj_right Access.item_injective]
    exact ⟨fun h _ => h.1, fun h => ⟨h hlegacy, rfl⟩⟩

theorem feeItems_eq_iff :
    a.feeItems = b.feeItems ↔
      (a.type ≠ .dynamicFee →
        a.gasPrice = b.gasPrice ∧ (a.gasPrice = 0 → a.rawZeros.gasPrice = b.rawZeros.gasPrice)) ∧
      (a.type = .dynamicFee →
        a.maxPriorityFeePerGas = b.maxPriorityFeePerGas ∧ a.maxFeePerGas = b.maxFeePerGas) := by
  unfold feeItems
  rw [← htype]
  cases a.type with
  | legacy => simp [amountItem_eq_iff]
  | accessList => simp [amountItem_eq_iff]
  | dynamicFee =>
    constructor
    · intro h
      simp only [List.cons.injEq, and_true] at h
      exact ⟨fun hne => absurd rfl hne, fun _ => ⟨Item.ofWord_inj h.1, Item.ofWord_inj h.2⟩⟩
    · rintro ⟨-, h⟩
      obtain ⟨hpriority, hmax⟩ := h rfl
      rw [hpriority, hmax]

theorem length_envelope :
    a.chainItems.length = b.chainItems.length ∧ a.feeItems.length = b.feeItems.length ∧
      a.accessItems.length = b.accessItems.length := by
  unfold chainItems feeItems accessItems
  rw [← htype]
  cases a.type <;> exact ⟨rfl, rfl, rfl⟩

theorem agrees_of_items (h : a.items = b.items) : a.Agrees b := by
  obtain ⟨hchain_length, hfee_length, haccess_length⟩ := length_envelope htype
  rw [items_eq, items_eq] at h
  obtain ⟨hchain, h⟩ := List.append_inj h hchain_length
  obtain ⟨hnonce, h⟩ := List.cons.inj h
  obtain ⟨hfee, h⟩ := List.append_inj h hfee_length
  simp only [List.cons.injEq] at h
  obtain ⟨hgas, hrecipient, hvalue, hdata, h⟩ := h
  obtain ⟨haccess, h⟩ := List.append_inj h haccess_length
  simp only [List.cons.injEq, and_true] at h
  obtain ⟨hv, hr, hs⟩ := h
  obtain ⟨hnonce, hrawNonce⟩ := amountItem_eq_iff.mp hnonce
  obtain ⟨hvalue, hrawValue⟩ := amountItem_eq_iff.mp hvalue
  obtain ⟨hprice, hdynamic⟩ := (feeItems_eq_iff htype).mp hfee
  exact {
    type := htype
    chainId := (chainItems_eq_iff htype).mp hchain
    nonce := hnonce
    gasPrice := fun hne => (hprice hne).1
    maxPriorityFeePerGas := fun heq => (hdynamic heq).1
    maxFeePerGas := fun heq => (hdynamic heq).2
    gas := Item.ofWord_inj hgas
    recipient := recipient_of_recipientItem hrecipient
    value := hvalue
    data := Item.string.inj hdata
    accessList := (accessItems_eq_iff htype).mp haccess
    v := Item.ofWord_inj hv
    r := Item.ofWord_inj hr
    s := Item.ofWord_inj hs
    rawNonce := hrawNonce
    rawGasPrice := fun hne => (hprice hne).2
    rawValue := hrawValue }

end Envelope

theorem items_eq_of_agrees (h : a.Agrees b) : a.items = b.items := by
  have hchain := (chainItems_eq_iff h.type).mpr h.chainId
  have haccess := (accessItems_eq_iff h.type).mpr h.accessList
  have hfee := (feeItems_eq_iff h.type).mpr
    ⟨fun hne => ⟨h.gasPrice hne, h.rawGasPrice hne⟩,
      fun heq => ⟨h.maxPriorityFeePerGas heq, h.maxFeePerGas heq⟩⟩
  have hnonce := amountItem_eq_iff.mpr ⟨h.nonce, h.rawNonce⟩
  have hvalue := amountItem_eq_iff.mpr ⟨h.value, h.rawValue⟩
  have hrecipient : a.recipientItem = b.recipientItem := by
    rw [recipientItem, recipientItem, h.recipient]
  rw [items_eq, items_eq, hchain, hnonce, hfee, h.gas, hrecipient, hvalue, h.data, haccess, h.v, h.r,
    h.s]

theorem encode_eq_of_agrees (h : a.Agrees b) : a.encode = b.encode := by
  rw [encode, encode, h.type, items_eq_of_agrees h]

/-- Transactions have the same encoding exactly if they agree on all that is encoded. Encodings are of a
size that a memory can hold. -/
theorem encode_eq_iff_agrees (a b : Transaction) (hlt : a.encode.length < 2 ^ 64) :
    a.encode = b.encode ↔ a.Agrees b := by
  constructor
  · intro h
    obtain ⟨htype, hitems⟩ := TxType.mark_append_list_inj h hlt
    exact agrees_of_items htype hitems
  · exact encode_eq_of_agrees

/-- A transaction with a raw nonce, which carries no gas price. -/
def sample (gasPrice : Word) (rawZeros : RawZeros) : Transaction where
  type := .dynamicFee
  chainId := 30
  gasPrice := gasPrice
  maxFeePerGas := 0x80
  value := 1
  data := List.replicate 60 7
  accessList := [⟨.zero 20, [.zero 32, .zero 32]⟩, ⟨.zero 20, []⟩]
  rawZeros := rawZeros

/-- The gas price of the sample does not show, nor do raw zeros of amounts that are not zero. The raw zero
of its nonce shows. -/
theorem encode_eq_iff_agrees_sample :
    (sample 1 ⟨true, false, false⟩).encode = (sample 2 ⟨true, true, true⟩).encode ∧
      (sample 1 ⟨true, false, false⟩).Agrees (sample 2 ⟨true, true, true⟩) ∧
      (sample 1 ⟨true, false, false⟩).encode ≠ (sample 1 ⟨false, false, false⟩).encode := by
  have hlt : (sample 1 ⟨true, false, false⟩).encode.length < 2 ^ 64 := by decide +kernel
  have hsame : (sample 1 ⟨true, false, false⟩).encode = (sample 2 ⟨true, true, true⟩).encode := by
    decide +kernel
  refine ⟨hsame, (encode_eq_iff_agrees _ _ hlt).mp hsame, fun h => ?_⟩
  have hraw := ((encode_eq_iff_agrees _ _ hlt).mp h).rawNonce rfl
  exact absurd hraw (by decide)

end Transaction

end BlockAudit
