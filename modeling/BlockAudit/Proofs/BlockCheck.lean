import BlockAudit.BlockCheck
import BlockAudit.Proofs.Header
import BlockAudit.Proofs.IndexedRoot

/-!
What it takes for a block to be found valid, and that the hash of a valid block stands for its header,
its transactions and their receipts.
-/
namespace BlockAudit

theorem HashCheck.isMatch_iff {check : HashCheck} :
    check.isMatch ↔ check.expected = check.computed := by
  rw [isMatch, beq_iff_eq]

theorem BlockCheck.isValid_iff {check : BlockCheck} :
    check.isValid ↔ check.blockHash.isMatch ∧ check.transactionsRoot.isMatch ∧
      ∀ c ∈ check.receiptsRoot, c.isMatch := by
  unfold isValid checks
  cases check.receiptsRoot <;> simp

/-- What is hashed on the way to the root of a row of items. -/
def rootDigests (layout : Trie.Layout) (items : List Bytes) : List Bytes :=
  (indexed items).builder.tree.digests layout

section Valid

variable {rules : Rules} {block : Rpc.Block} {receipts : Option (List Rpc.Receipt)}
  {check : BlockCheck}

/-- The check of the receipts, where they are given. -/
private def receiptsCheck (rules : Rules) (block : Rpc.Block) (txs : List Transaction) :
    Option (List Rpc.Receipt) → Except Rpc.InputError (Option HashCheck)
  | none => .ok none
  | some rs => do
    let ordered ← BlockCheck.orderedReceipts rs (txs.map (·.type))
    let root ← (receiptsRoot rules.layout ordered).mapError .trie
    return some ⟨block.receiptsRoot, root⟩

private theorem checkBlock_eq :
    checkBlock rules block receipts = do
      let txs ← block.toTransactions
      let txRoot ← (transactionsRoot rules.layout txs).mapError .trie
      let receiptCheck ← receiptsCheck rules block txs receipts
      return {
        number := block.number
        rules := rules
        blockHash := ⟨block.hash, block.header.hash rules⟩
        transactionsRoot := ⟨block.transactionsRoot, txRoot⟩
        receiptsRoot := receiptCheck } := by
  unfold checkBlock receiptsCheck
  cases receipts with
  | none => rfl
  | some rs => simp only [bind_assoc, pure_bind]

/-- A block is found valid exactly if the hashes that it reports are those of its header, of its
transactions and of the receipts in the order of these. -/
theorem exists_isValid_iff :
    (∃ check, checkBlock rules block receipts = .ok check ∧ check.isValid) ↔
      block.hash = block.header.hash rules ∧
        ∃ txs, block.toTransactions = .ok txs ∧
          transactionsRoot rules.layout txs = .ok block.transactionsRoot ∧
          ∀ rs ∈ receipts, ∃ ordered,
            BlockCheck.orderedReceipts rs (txs.map (·.type)) = .ok ordered ∧
            receiptsRoot rules.layout ordered = .ok block.receiptsRoot := by
  rw [checkBlock_eq]
  constructor
  · rintro ⟨check, h, hvalid⟩
    obtain ⟨txs, htxs, h⟩ := bind_eq_ok_iff.mp h
    obtain ⟨txRoot, htxRoot, h⟩ := bind_eq_ok_iff.mp h
    obtain ⟨receiptCheck, hreceipts, h⟩ := bind_eq_ok_iff.mp h
    cases h
    obtain ⟨hhash, hroot, hchecked⟩ := BlockCheck.isValid_iff.mp hvalid
    rw [HashCheck.isMatch_iff] at hhash hroot
    dsimp only at hhash hroot
    refine ⟨hhash, txs, htxs, hroot ▸ mapError_eq_ok_iff.mp htxRoot, ?_⟩
    rintro rs ⟨⟩
    obtain ⟨ordered, hordered, hreceipts⟩ := bind_eq_ok_iff.mp hreceipts
    obtain ⟨root, hroot, hreceipts⟩ := bind_eq_ok_iff.mp hreceipts
    cases hreceipts
    have hmatch : block.receiptsRoot = root := HashCheck.isMatch_iff.mp (hchecked _ rfl)
    exact ⟨ordered, hordered, hmatch ▸ mapError_eq_ok_iff.mp hroot⟩
  · rintro ⟨hhash, txs, htxs, hroot, hreceipts⟩
    have hcheck : ∃ c, receiptsCheck rules block txs receipts = .ok c ∧ ∀ d ∈ c, d.isMatch := by
      cases receipts with
      | none => exact ⟨none, rfl, by simp⟩
      | some rs =>
        obtain ⟨ordered, hordered, hroot⟩ := hreceipts rs rfl
        refine ⟨some ⟨block.receiptsRoot, block.receiptsRoot⟩, ?_, by simp [HashCheck.isMatch]⟩
        rw [receiptsCheck, hordered, ok_bind, hroot]
        rfl
    obtain ⟨c, hc, hmatch⟩ := hcheck
    rw [htxs, ok_bind, hroot, mapError_ok, ok_bind, hc, ok_bind]
    refine ⟨_, rfl, BlockCheck.isValid_iff.mpr ⟨?_, ?_, hmatch⟩⟩
    · exact HashCheck.isMatch_iff.mpr hhash
    · exact HashCheck.isMatch_iff.mpr rfl

end Valid

namespace BlockCheck

/-- All that is hashed to check a block: the header, and the tries of its transactions and receipts. -/
def digests (rules : Rules) (block : Rpc.Block) (receipts : Option (List Rpc.Receipt)) :
    List Bytes :=
  block.header.hashed rules ++
    match block.toTransactions with
    | .error _ => []
    | .ok txs =>
      rootDigests rules.layout (txs.map Transaction.encode) ++
        match receipts.map fun rs => orderedReceipts rs (txs.map (·.type)) with
        | some (.ok ordered) => rootDigests rules.layout (ordered.map Receipt.encode)
        | _ => []

section Digests

variable {rules : Rules} {block : Rpc.Block} {receipts : Option (List Rpc.Receipt)}
  {txs : List Transaction}

theorem header_digests_subset : block.header.hashed rules ⊆ digests rules block receipts :=
  List.subset_append_left _ _

theorem transactions_digests_subset (htxs : block.toTransactions = .ok txs) :
    rootDigests rules.layout (txs.map Transaction.encode) ⊆ digests rules block receipts := by
  unfold digests
  rw [htxs]
  exact List.Subset.trans (List.subset_append_left _ _) (List.subset_append_right _ _)

theorem receipts_digests_subset {rs : List Rpc.Receipt} {ordered : List Receipt}
    (htxs : block.toTransactions = .ok txs) (hrs : rs ∈ receipts)
    (hordered : orderedReceipts rs (txs.map (·.type)) = .ok ordered) :
    rootDigests rules.layout (ordered.map Receipt.encode) ⊆ digests rules block receipts := by
  cases hrs
  unfold digests
  rw [htxs]
  dsimp only [Option.map_some]
  rw [hordered]
  exact List.Subset.trans (List.subset_append_right _ _) (List.subset_append_right _ _)

end Digests

end BlockCheck

theorem Rpc.Block.getD_ummRoot (block : Rpc.Block) : block.header.ummRoot.getD [] = block.ummRoot := by
  unfold header
  cases block.ummRoot <;> rfl

/-- Under the same rules, valid blocks of one hash have the same header as far as it is hashed, the
same transactions, and the same receipts where these are given. Headers are of a size that a memory can
hold. -/
theorem sameBlock_of_hash_eq (rules : Rules) {block block' : Rpc.Block}
    {receipts receipts' : Option (List Rpc.Receipt)} {check check' : BlockCheck}
    (h : checkBlock rules block receipts = .ok check)
    (h' : checkBlock rules block' receipts' = .ok check') (hvalid : check.isValid)
    (hvalid' : check'.isValid) (hhash : block.hash = block'.hash)
    (hlt : ∀ s ∈ block.header.hashed rules, s.length < 2 ^ 64)
    (hfree : CollisionFree (BlockCheck.digests rules block receipts ++
      BlockCheck.digests rules block' receipts' ++ [[0x80]])) :
    block.header.Agrees rules block'.header ∧
      (rules.rskipUmm → block.header.ummRoot = block'.header.ummRoot) ∧
      ∃ txs txs', block.toTransactions = .ok txs ∧ block'.toTransactions = .ok txs' ∧
        txs.map Transaction.encode = txs'.map Transaction.encode ∧
        ∀ rs ∈ receipts, ∀ rs' ∈ receipts', ∃ ordered ordered',
          BlockCheck.orderedReceipts rs (txs.map (·.type)) = .ok ordered ∧
          BlockCheck.orderedReceipts rs' (txs'.map (·.type)) = .ok ordered' ∧
          ordered.map Receipt.encode = ordered'.map Receipt.encode := by
  obtain ⟨hheader, txs, htxs, hroot, hreceipts⟩ :=
    exists_isValid_iff.mp ⟨check, h, hvalid⟩
  obtain ⟨hheader', txs', htxs', hroot', hreceipts'⟩ :=
    exists_isValid_iff.mp ⟨check', h', hvalid'⟩
  let known := BlockCheck.digests rules block receipts ++
    BlockCheck.digests rules block' receipts' ++ [[0x80]]
  have hknown : BlockCheck.digests rules block receipts ⊆ known := by simp [known]
  have hknown' : BlockCheck.digests rules block' receipts' ⊆ known := by simp [known]
  have hempty : [0x80] ∈ known := by simp [known]
  have hagrees : block.header.Agrees rules block'.header := by
    refine Header.agrees_of_hash_eq hfree ?_ ?_ hlt (hheader.symm.trans (hhash.trans hheader'))
    · exact List.Subset.trans BlockCheck.header_digests_subset hknown
    · exact List.Subset.trans BlockCheck.header_digests_subset hknown'
  refine ⟨hagrees, fun hrskip => ?_, txs, txs', htxs, htxs', ?_, fun rs hrs rs' hrs' => ?_⟩
  · have humm := hagrees.ummRoot hrskip
    rw [Rpc.Block.getD_ummRoot, Rpc.Block.getD_ummRoot] at humm
    unfold Rpc.Block.header
    rw [humm]
  · rw [show block.transactionsRoot = block'.transactionsRoot from hagrees.transactionsRoot] at hroot
    have hsub := List.Subset.trans (BlockCheck.transactions_digests_subset htxs) hknown
    have hsub' := List.Subset.trans (BlockCheck.transactions_digests_subset htxs') hknown'
    exact eq_of_indexedRoot_eq hfree hempty hsub hsub' hroot hroot'
  · obtain ⟨ordered, hordered, hroot⟩ := hreceipts rs hrs
    obtain ⟨ordered', hordered', hroot'⟩ := hreceipts' rs' hrs'
    rw [show block.receiptsRoot = block'.receiptsRoot from hagrees.receiptsRoot] at hroot
    have hsub := List.Subset.trans (BlockCheck.receipts_digests_subset htxs hrs hordered) hknown
    have hsub' := List.Subset.trans (BlockCheck.receipts_digests_subset htxs' hrs' hordered') hknown'
    have hencodings := eq_of_indexedRoot_eq hfree hempty hsub hsub' hroot hroot'
    exact ⟨ordered, ordered', hordered, hordered', hencodings⟩

section Sample

def sampleTransaction : Rpc.Transaction where
  hash := .zero 32
  nonce := 1
  transactionIndex := none
  sender := none
  recipient := none
  gas := 21000
  gasPrice := some 1
  maxFeePerGas := none
  maxPriorityFeePerGas := none
  value := 1
  input := []
  v := 0
  r := 0
  s := 0
  type := none
  chainId := none
  accessList := []

def sampleReceipt : Rpc.Receipt where
  transactionHash := .zero 32
  transactionIndex := 0
  cumulativeGasUsed := 21000
  gasUsed := 21000
  logsBloom := .zero 256
  logs := []
  root := []
  status := none
  type := none

def sampleTransactionDecoded : Transaction :=
  { nonce := 1, gasPrice := 1, gas := 21000, value := 1 }

def sampleReceiptDecoded : Receipt :=
  { cumulativeGas := 21000, gasUsed := 21000 }

/-- A block with one transaction. The sample rules do not hash the merged mining proof. -/
def sampleBlock (mergedMiningProof : Bytes) : Rpc.Block :=
  let block : Rpc.Block := {
    number := 1
    hash := .zero 32
    parentHash := .zero 32
    unclesHash := .zero 32
    miner := .zero 20
    stateRoot := .zero 32
    transactionsRoot := (indexed [sampleTransactionDecoded.encode]).builder.rootHash .rskip107
    receiptsRoot := (indexed [sampleReceiptDecoded.encode]).builder.rootHash .rskip107
    logsBloom := .zero 256
    difficulty := 1
    gasLimit := 21000
    gasUsed := 21000
    timestamp := 1
    extraData := []
    paidFees := 0
    minimumGasPrice := 0
    uncles := []
    ummRoot := []
    sublistEdges := some [1]
    mergedMiningHeader := [1]
    mergedMiningProof := mergedMiningProof
    mergedMiningCoinbase := []
    transactions := .full [sampleTransaction] }
  { block with hash := block.header.hash sampleRules }

theorem toTransactions_sampleBlock (proof : Bytes) :
    (sampleBlock proof).toTransactions = .ok [sampleTransactionDecoded] := by
  have htx : sampleTransaction.toTransaction = .ok sampleTransactionDecoded := by decide +kernel
  change [sampleTransaction].mapM Rpc.Transaction.toTransaction = _
  rw [List.mapM_cons, htx]
  rfl

theorem hash_sampleBlock (proof : Bytes) :
    (sampleBlock proof).hash = keccak ((sampleBlock proof).header.preimage sampleRules) := by
  unfold sampleBlock
  dsimp only [Rpc.Block.header, Header.hash]

theorem exists_isValid_sampleBlock (proof : Bytes) :
    ∃ check, checkBlock sampleRules (sampleBlock proof) (some [sampleReceipt]) = .ok check ∧
      check.isValid := by
  have hordered : BlockCheck.orderedReceipts [sampleReceipt] [.legacy] =
      .ok [sampleReceiptDecoded] := by decide +kernel
  have htx : Trie.Accepted sampleTransactionDecoded.encode := by decide +kernel
  have hreceipt : Trie.Accepted sampleReceiptDecoded.encode := by decide +kernel
  refine exists_isValid_iff.mpr ⟨?_, _, toTransactions_sampleBlock proof, ?_, ?_⟩
  · exact hash_sampleBlock proof
  · exact indexedRoot_eq_ok_iff.mpr ⟨by simpa using htx, rfl⟩
  · rintro rs ⟨⟩
    exact ⟨_, hordered, indexedRoot_eq_ok_iff.mpr ⟨by simpa using hreceipt, rfl⟩⟩

/-- The sample blocks are hashed alike, whatever their merged mining proof. -/
theorem digests_sampleBlock (proof proof' : Bytes) :
    BlockCheck.digests sampleRules (sampleBlock proof) (some [sampleReceipt]) =
      BlockCheck.digests sampleRules (sampleBlock proof') (some [sampleReceipt]) := rfl

theorem sameBlock_of_hash_eq_sample :
    ∃ check check', (sampleBlock [1]).hash = (sampleBlock [2]).hash ∧
      checkBlock sampleRules (sampleBlock [1]) (some [sampleReceipt]) = .ok check ∧ check.isValid ∧
      checkBlock sampleRules (sampleBlock [2]) (some [sampleReceipt]) = .ok check' ∧
      check'.isValid ∧ (sampleBlock [1]).header.Agrees sampleRules (sampleBlock [2]).header := by
  obtain ⟨check, h, hvalid⟩ := exists_isValid_sampleBlock [1]
  obtain ⟨check', h', hvalid'⟩ := exists_isValid_sampleBlock [2]
  have hhash : (sampleBlock [1]).hash = (sampleBlock [2]).hash := by
    rw [hash_sampleBlock, hash_sampleBlock]
    exact congrArg keccak (List.cons.inj (digests_sampleBlock [1] [2])).1
  have hfree : CollisionFree (BlockCheck.digests sampleRules (sampleBlock [1]) (some [sampleReceipt]) ++
      [[0x80]]) := by decide +kernel
  refine ⟨check, check', hhash, h, hvalid, h', hvalid', ?_⟩
  refine (sameBlock_of_hash_eq sampleRules h h' hvalid hvalid' hhash (by decide +kernel) ?_).1
  rw [← digests_sampleBlock [1] [2]]
  have hsub : ∀ l r : List Bytes, l ++ l ++ r ⊆ l ++ r := by simp
  exact hfree.mono (hsub _ _)

end Sample

end BlockAudit
