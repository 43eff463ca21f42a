import BlockAudit.Header
import BlockAudit.Proofs.Keccak
import BlockAudit.Proofs.Rlp.Item

/-!
The hash of a header stands for all fields that are hashed under the rules in force, those in the
extension included.
-/
namespace BlockAudit

open Rlp (Item)

section Amounts

theorem ofBigEndian_gasLimitBytes (limit : Word) :
    ofBigEndian (gasLimitBytes limit) = limit.toNat := by
  rw [gasLimitBytes, ofBigEndian_replicate_append, ofBigEndian_bigEndian]

theorem ofBigEndian_coinBytes (amount : Word) : ofBigEndian (coinBytes amount) = amount.toNat := by
  have hdigits := ofBigEndian_bigEndian amount.toNat
  unfold coinBytes
  split
  · rename_i hnil
    rw [← hdigits, hnil]
    rfl
  · rename_i first rest hcons
    rw [← hdigits, hcons]
    split
    · exact ofBigEndian_zero_cons _
    · rfl

theorem gasLimitBytes_injective {a b : Word} (h : gasLimitBytes a = gasLimitBytes b) : a = b := by
  apply BitVec.eq_of_toNat_eq
  rw [← ofBigEndian_gasLimitBytes, h, ofBigEndian_gasLimitBytes]

theorem coinBytes_injective {a b : Word} (h : coinBytes a = coinBytes b) : a = b := by
  apply BitVec.eq_of_toNat_eq
  rw [← ofBigEndian_coinBytes, h, ofBigEndian_coinBytes]

end Amounts

section Extension

variable {bloom bloom' : Bloom} {edges edges' : Option (List UInt16)}

/-- What the hash of an extension is the hash of. -/
def extensionPreimage (bloom : Bloom) (edges : Option (List UInt16)) : Bytes :=
  (Item.list (.ofFixed (keccak bloom.toBytes) ::
    edges.toList.map fun list => Item.list (list.map fun e => .ofNat e.toNat))).encode

theorem extensionHash_eq : extensionHash bloom edges = keccak (extensionPreimage bloom edges) := rfl

theorem extensionHash_eq_of_extensionData_eq (hlt : (extensionData bloom edges).length < 256 ^ 8)
    (h : extensionData bloom edges = extensionData bloom' edges') :
    extensionHash bloom edges = extensionHash bloom' edges' := by
  have hitems := Item.list.inj (Item.encode_inj h hlt)
  exact Item.ofFixed_inj (List.cons.inj (List.cons.inj hitems).2).1

/-- No edges and an empty list of them are told apart. -/
theorem extensionPreimage_inj (hlt : (extensionPreimage bloom edges).length < 256 ^ 8)
    (h : extensionPreimage bloom edges = extensionPreimage bloom' edges') :
    keccak bloom.toBytes = keccak bloom'.toBytes ∧ edges = edges' := by
  obtain ⟨hbloom, hedges⟩ := List.cons.inj (Item.list.inj (Item.encode_inj h hlt))
  refine ⟨Item.ofFixed_inj hbloom, ?_⟩
  have hlist : ∀ l l' : List UInt16, Item.list (l.map fun e => .ofNat e.toNat) =
      Item.list (l'.map fun e => .ofNat e.toNat) → l = l' := fun _ _ h =>
    (List.map_inj_right fun _ _ he => UInt16.toNat_inj.mp (Item.ofNat_inj he)).mp (Item.list.inj h)
  have htoList := (List.map_inj_right hlist).mp hedges
  cases edges <;> cases edges' <;> simp_all

end Extension

namespace Header

/-- Two headers agree on every field that is hashed under the rules. No root of united merged mining
counts as an empty one. -/
structure Agrees (rules : Rules) (a b : Header) : Prop where
  parentHash : a.parentHash = b.parentHash
  unclesHash : a.unclesHash = b.unclesHash
  coinbase : a.coinbase = b.coinbase
  stateRoot : a.stateRoot = b.stateRoot
  transactionsRoot : a.transactionsRoot = b.transactionsRoot
  receiptsRoot : a.receiptsRoot = b.receiptsRoot
  logsBloom : a.logsBloom = b.logsBloom
  difficulty : a.difficulty = b.difficulty
  number : a.number = b.number
  gasLimit : a.gasLimit = b.gasLimit
  gasUsed : a.gasUsed = b.gasUsed
  timestamp : a.timestamp = b.timestamp
  extraData : a.extraData = b.extraData
  paidFees : a.paidFees = b.paidFees
  minimumGasPrice : a.minimumGasPrice = b.minimumGasPrice
  uncleCount : a.uncleCount = b.uncleCount
  ummRoot : rules.rskipUmm → a.ummRoot.getD [] = b.ummRoot.getD []
  sublistEdges : rules.rskip351 → a.sublistEdges = b.sublistEdges
  mergedMiningHeader : a.mergedMiningHeader = b.mergedMiningHeader
  mergedMiningProof : ¬ rules.rskip92 → a.mergedMiningProof = b.mergedMiningProof
  mergedMiningCoinbase : ¬ rules.rskip92 → a.mergedMiningCoinbase = b.mergedMiningCoinbase

/-- All that is hashed on the way to the hash of a header. -/
def hashed (header : Header) (rules : Rules) : List Bytes :=
  header.preimage rules ::
    if rules.rskip351 then
      [header.logsBloom.toBytes, extensionPreimage header.logsBloom header.sublistEdges]
    else []

variable {rules : Rules} {a b : Header} {known : List Bytes}

theorem eq_nil_of_not_hasMergedMining {header : Header} (h : ¬ header.hasMergedMining) :
    header.mergedMiningHeader = [] ∧ header.mergedMiningProof = [] ∧
      header.mergedMiningCoinbase = [] := by
  simpa [hasMergedMining, and_assoc] using h

/-- The merged mining items are there or not as a whole, so what is missing is empty. -/
theorem mergedMining_of_items (h : a.mergedMiningItems rules = b.mergedMiningItems rules) :
    a.mergedMiningHeader = b.mergedMiningHeader ∧
      (¬ rules.rskip92 → a.mergedMiningProof = b.mergedMiningProof ∧
        a.mergedMiningCoinbase = b.mergedMiningCoinbase) := by
  unfold mergedMiningItems at h
  by_cases ha : a.hasMergedMining <;> by_cases hb : b.hasMergedMining <;>
    simp only [ha, hb, Bool.not_true, Bool.not_false, Bool.false_eq_true, if_true, if_false] at h
  · split at h
    · rename_i hrskip
      exact ⟨Item.string.inj (List.cons.inj h).1, fun hnot => absurd hrskip hnot⟩
    · obtain ⟨hheader, h⟩ := List.cons.inj h
      obtain ⟨hproof, h⟩ := List.cons.inj h
      obtain ⟨hcoinbase, -⟩ := List.cons.inj h
      exact ⟨Item.string.inj hheader, fun _ => ⟨Item.string.inj hproof, Item.string.inj hcoinbase⟩⟩
  · split at h <;> cases h
  · split at h <;> cases h
  · obtain ⟨ha, ha', ha''⟩ := eq_nil_of_not_hasMergedMining ha
    obtain ⟨hb, hb', hb''⟩ := eq_nil_of_not_hasMergedMining hb
    rw [ha, ha', ha'', hb, hb', hb'']
    exact ⟨rfl, fun _ => ⟨rfl, rfl⟩⟩

theorem mergedMiningItems_eq_nil_iff (rules : Rules) {header : Header} :
    header.mergedMiningItems rules = [] ↔ header.hasMergedMining = false := by
  unfold mergedMiningItems
  cases header.hasMergedMining with
  | false => simp
  | true => cases rules.rskip92 <;> simp

theorem hasMergedMining_of_eq_nil_iff
    (h : a.mergedMiningItems rules = [] ↔ b.mergedMiningItems rules = []) :
    a.hasMergedMining = b.hasMergedMining := by
  rw [mergedMiningItems_eq_nil_iff, mergedMiningItems_eq_nil_iff] at h
  exact Bool.eq_iff_iff.mpr (by simpa using not_congr h)

theorem hasMergedMining_of_items (h : a.mergedMiningItems rules = b.mergedMiningItems rules) :
    a.hasMergedMining = b.hasMergedMining :=
  hasMergedMining_of_eq_nil_iff (by rw [h])

theorem bloomItem_mem_items (header : Header) (rules : Rules) :
    header.bloomItem rules ∈ header.items rules := by
  simp [items]

/-- The bloom, or the extension in its place, tells bloom and edges where no two hashes collide. -/
theorem bloom_of_bloomItem (hfree : CollisionFree known) (ha : a.hashed rules ⊆ known)
    (hb : b.hashed rules ⊆ known) (hlt : ∀ s ∈ a.hashed rules, s.length < 2 ^ 64)
    (h : a.bloomItem rules = b.bloomItem rules) :
    a.logsBloom = b.logsBloom ∧ (rules.rskip351 → a.sublistEdges = b.sublistEdges) := by
  unfold bloomItem at h
  split at h
  · rename_i hrskip
    unfold hashed at ha hb hlt
    rw [if_pos hrskip] at ha hb hlt
    have hdata : (extensionData a.logsBloom a.sublistEdges).length < 256 ^ 8 := by
      have hitem := Item.length_encode_le_of_mem (bloomItem_mem_items a rules)
      have hpayload := (a.bloomItem rules).length_payload_le
      have hpreimage := hlt (a.preimage rules) List.mem_cons_self
      rw [bloomItem, if_pos hrskip] at hitem hpayload
      exact Nat.lt_of_le_of_lt hpayload (Nat.lt_of_le_of_lt hitem hpreimage)
    have hhash := extensionHash_eq_of_extensionData_eq hdata (Item.string.inj h)
    rw [extensionHash_eq, extensionHash_eq] at hhash
    have hextension := hfree _ (ha (by simp)) _ (hb (by simp)) hhash
    obtain ⟨hbloom, hedges⟩ := extensionPreimage_inj (hlt _ (by simp)) hextension
    exact ⟨FixedBytes.ext (hfree _ (ha (by simp)) _ (hb (by simp)) hbloom), fun _ => hedges⟩
  · rename_i hrskip
    exact ⟨Item.ofFixed_inj h, fun hrskip' => absurd hrskip' hrskip⟩

theorem bloomItem_of_items (h : a.items rules = b.items rules) :
    a.bloomItem rules = b.bloomItem rules := by
  have hitem := congrArg (fun items => items[6]?) h
  simpa [items] using hitem

/-- The items after the sixteenth, which are there under some rules or in some headers only. -/
theorem optionalItems_of_items (h : a.items rules = b.items rules) :
    a.ummItems rules = b.ummItems rules ∧ a.mergedMiningItems rules = b.mergedMiningItems rules := by
  have hrest : a.ummItems rules ++ a.mergedMiningItems rules =
      b.ummItems rules ++ b.mergedMiningItems rules := by
    have hdrop := congrArg (List.drop 16) h
    simpa [items] using hdrop
  have hlen : (a.ummItems rules).length = (b.ummItems rules).length := by
    unfold ummItems
    split <;> rfl
  exact List.append_inj hrest hlen

theorem agrees_of_items (h : a.items rules = b.items rules) (hlogs : a.logsBloom = b.logsBloom)
    (hedges : rules.rskip351 → a.sublistEdges = b.sublistEdges) : a.Agrees rules b := by
  obtain ⟨humm, hmining⟩ := optionalItems_of_items h
  obtain ⟨hheader, hadvertised⟩ := mergedMining_of_items hmining
  unfold items at h
  rw [List.append_assoc, List.append_assoc] at h
  obtain ⟨hbase, -⟩ := List.append_inj h (by simp)
  simp only [List.cons.injEq, and_true] at hbase
  obtain ⟨hparent, huncles, hcoinbase, hstate, htxs, hreceipts, -, hdifficulty, hnumber, hlimit,
    hused, htime, hextra, hfees, hprice, hcount⟩ := hbase
  exact {
    parentHash := Item.ofFixed_inj hparent
    unclesHash := Item.ofFixed_inj huncles
    coinbase := Item.ofFixed_inj hcoinbase
    stateRoot := Item.ofFixed_inj hstate
    transactionsRoot := Item.ofFixed_inj htxs
    receiptsRoot := Item.ofFixed_inj hreceipts
    logsBloom := hlogs
    difficulty := Item.ofWord_inj hdifficulty
    number := Item.ofUInt64_inj hnumber
    gasLimit := gasLimitBytes_injective (Item.string.inj hlimit)
    gasUsed := Item.ofUInt64_inj hused
    timestamp := Item.ofUInt64_inj htime
    extraData := Item.string.inj hextra
    paidFees := Item.ofWord_inj hfees
    minimumGasPrice := coinBytes_injective (Item.string.inj hprice)
    uncleCount := Item.ofUInt64_inj hcount
    ummRoot := fun hrskip => by
      rw [ummItems, ummItems, if_pos hrskip, if_pos hrskip] at humm
      exact Item.string.inj (List.cons.inj humm).1
    sublistEdges := hedges
    mergedMiningHeader := hheader
    mergedMiningProof := fun hrskip => (hadvertised hrskip).1
    mergedMiningCoinbase := fun hrskip => (hadvertised hrskip).2 }

/-- Headers that agree are written alike, unless one of them has merged mining items and the other has
none. -/
theorem items_eq_of_agrees (h : a.Agrees rules b) (hmining : a.hasMergedMining = b.hasMergedMining) :
    a.items rules = b.items rules := by
  have hbloomItem : a.bloomItem rules = b.bloomItem rules := by
    unfold bloomItem
    split
    · rename_i hrskip
      rw [h.logsBloom, h.sublistEdges hrskip]
    · rw [h.logsBloom]
  have hummItems : a.ummItems rules = b.ummItems rules := by
    unfold ummItems
    split
    · rename_i hrskip
      rw [h.ummRoot hrskip]
    · rfl
  have hminingItems : a.mergedMiningItems rules = b.mergedMiningItems rules := by
    unfold mergedMiningItems
    rw [hmining, h.mergedMiningHeader]
    split
    · rfl
    · split
      · rfl
      · rename_i hrskip
        rw [h.mergedMiningProof hrskip, h.mergedMiningCoinbase hrskip]
  unfold items
  rw [hbloomItem, hummItems, hminingItems, h.parentHash, h.unclesHash, h.coinbase, h.stateRoot,
    h.transactionsRoot, h.receiptsRoot, h.difficulty, h.number, h.gasLimit, h.gasUsed, h.timestamp,
    h.extraData, h.paidFees, h.minimumGasPrice, h.uncleCount]

theorem items_of_hash_eq (hfree : CollisionFree known) (ha : a.preimage rules ∈ known)
    (hb : b.preimage rules ∈ known) (hlt : (a.preimage rules).length < 2 ^ 64)
    (h : a.hash rules = b.hash rules) : a.items rules = b.items rules :=
  Item.list.inj (Item.encode_inj (hfree _ ha _ hb h) hlt)

/-- Headers with the same hash agree on every field that is hashed. -/
theorem agrees_of_hash_eq (hfree : CollisionFree known) (ha : a.hashed rules ⊆ known)
    (hb : b.hashed rules ⊆ known) (hlt : ∀ s ∈ a.hashed rules, s.length < 2 ^ 64)
    (h : a.hash rules = b.hash rules) : a.Agrees rules b := by
  have hitems : a.items rules = b.items rules :=
    items_of_hash_eq hfree (ha List.mem_cons_self) (hb List.mem_cons_self)
      (hlt _ List.mem_cons_self) h
  obtain ⟨hlogs, hedges⟩ := bloom_of_bloomItem hfree ha hb hlt (bloomItem_of_items hitems)
  exact agrees_of_items hitems hlogs hedges

/-- Without collisions in what is hashed, headers have the same hash exactly if they agree on every field
that is hashed, and both of them or neither have merged mining items. Headers are of a size that a memory
can hold. -/
theorem hash_eq_iff_agrees (rules : Rules) (a b : Header)
    (hfree : CollisionFree (a.hashed rules ++ b.hashed rules))
    (hlt : ∀ s ∈ a.hashed rules, s.length < 2 ^ 64) :
    a.hash rules = b.hash rules ↔
      a.Agrees rules b ∧ a.hasMergedMining = b.hasMergedMining := by
  have ha : a.hashed rules ⊆ a.hashed rules ++ b.hashed rules := List.subset_append_left _ _
  have hb : b.hashed rules ⊆ a.hashed rules ++ b.hashed rules := List.subset_append_right _ _
  constructor
  · intro h
    have hitems := items_of_hash_eq hfree (ha List.mem_cons_self) (hb List.mem_cons_self)
      (hlt _ List.mem_cons_self) h
    have hmining := hasMergedMining_of_items (optionalItems_of_items hitems).2
    exact ⟨agrees_of_hash_eq hfree ha hb hlt h, hmining⟩
  · rintro ⟨hagrees, hmining⟩
    rw [hash, preimage, items_eq_of_agrees hagrees hmining, ← preimage, ← hash]

/-- A header without merged mining fields. -/
def withoutMining (header : Header) : Header :=
  { header with mergedMiningHeader := [], mergedMiningProof := [], mergedMiningCoinbase := [] }

theorem items_eq_append (header : Header) (rules : Rules) :
    header.items rules = header.withoutMining.items rules ++ header.mergedMiningItems rules := by
  have hnone : header.withoutMining.mergedMiningItems rules = [] :=
    (mergedMiningItems_eq_nil_iff rules).mpr rfl
  rw [items, items, hnone, List.append_nil]
  rfl

theorem Agrees.withoutMining (h : a.Agrees rules b) :
    a.withoutMining.Agrees rules b.withoutMining :=
  { h with
    mergedMiningHeader := rfl
    mergedMiningProof := fun _ => rfl
    mergedMiningCoinbase := fun _ => rfl }

/-- Headers that agree are hashed alike if both of them or neither have merged mining items. -/
theorem preimage_eq_iff_of_agrees (h : a.Agrees rules b) :
    a.preimage rules = b.preimage rules ↔ a.hasMergedMining = b.hasMergedMining := by
  constructor
  · intro heq
    have hfront : a.withoutMining.items rules = b.withoutMining.items rules :=
      items_eq_of_agrees h.withoutMining rfl
    rw [preimage, preimage, items_eq_append a, items_eq_append b, hfront] at heq
    exact hasMergedMining_of_eq_nil_iff (Item.eq_nil_iff_of_encode_eq heq)
  · intro hmining
    rw [preimage, preimage, items_eq_of_agrees h hmining]

/-- What is hashed of a header does not depend on the fields that the rules leave out, but for whether any
merged mining field has bytes, and not on the rules that are about something else. -/
theorem preimage_excludes (rules : Rules) :
    (∀ a b : Header, a.Agrees rules b →
        (a.preimage rules = b.preimage rules ↔ a.hasMergedMining = b.hasMergedMining)) ∧
      ∀ (header : Header) (rskip126 rskip144 : Bool),
        header.preimage { rules with rskip126 := rskip126, rskip144 := rskip144 } =
          header.preimage rules := by
  constructor
  · intro a b h
    exact preimage_eq_iff_of_agrees h
  · intro header rskip126 rskip144
    rfl

/-- A header with an amount that takes a sign byte, and with an empty list of edges. -/
def sample (ummRoot : Option Bytes) (mergedMiningProof : Bytes) : Header where
  gasLimit := 0x1234
  extraData := List.replicate 60 1
  minimumGasPrice := 0x80
  ummRoot := ummRoot
  sublistEdges := some []
  mergedMiningHeader := [1]
  mergedMiningProof := mergedMiningProof

end Header

def sampleRules : Rules :=
  { rskip92 := true, rskip126 := true, rskipUmm := true, rskip351 := true }

/-- The sample rules do not hash the merged mining proof. -/
theorem Header.hash_eq_iff_agrees_sample :
    (sample none [1]).hash sampleRules = (sample (some []) [2]).hash sampleRules ∧
      (sample none [1]).Agrees sampleRules (sample (some []) [2]) := by
  have hhash : (sample none [1]).hash sampleRules = (sample (some []) [2]).hash sampleRules := rfl
  have hsame : (sample (some []) [2]).hashed sampleRules = (sample none [1]).hashed sampleRules := rfl
  have hfree : CollisionFree ((sample none [1]).hashed sampleRules) := by decide +kernel
  have hiff := hash_eq_iff_agrees sampleRules (sample none [1]) (sample (some []) [2])
    (hfree.mono (by simp [hsame])) (by decide +kernel)
  exact ⟨hhash, (hiff.mp hhash).1⟩

namespace Header

/-- The merged mining proof and the root of united merged mining are left out where both headers have
merged mining fields. -/
theorem preimage_excludes_sample :
    (sample none [1]).Agrees { rskip92 := true } (sample (some [1]) [2]) ∧
      (sample none [1]).preimage { rskip92 := true } =
        (sample (some [1]) [2]).preimage { rskip92 := true, rskip126 := true } := by
  have hagrees : (sample none [1]).Agrees { rskip92 := true } (sample (some [1]) [2]) := by
    constructor <;> simp [sample]
  obtain ⟨hfields, hrules⟩ := preimage_excludes { rskip92 := true }
  refine ⟨hagrees, ?_⟩
  rw [(hfields _ _ hagrees).mpr rfl]
  exact (hrules (sample (some [1]) [2]) true false).symm

/-- A merged mining proof that is left out still shows where it is the only merged mining field. -/
theorem preimage_ne_of_mergedMiningProof :
    ({ mergedMiningProof := [1] } : Header).Agrees { rskip92 := true } {} ∧
      ({ mergedMiningProof := [1] } : Header).preimage { rskip92 := true } ≠
        ({} : Header).preimage { rskip92 := true } := by
  have hagrees : ({ mergedMiningProof := [1] } : Header).Agrees { rskip92 := true } {} := by
    constructor <;> simp
  refine ⟨hagrees, fun heq => ?_⟩
  cases (preimage_eq_iff_of_agrees hagrees).mp heq

end Header

end BlockAudit
