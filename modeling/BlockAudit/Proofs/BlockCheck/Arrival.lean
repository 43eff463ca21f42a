import BlockAudit.Proofs.BlockCheck

/-!
The order in which receipts arrive. Only among receipts that claim the same transaction does it count, so that
the receipts of different transactions may arrive in any order.
-/
namespace BlockAudit

namespace BlockCheck

/-- The receipts that claim the transaction at an index, as they arrived. -/
def receiptsAt (index : UInt64) (receipts : List Rpc.Receipt) : List Rpc.Receipt :=
  receipts.filter fun receipt => receipt.transactionIndex = index

/-- Receipts in the order of their transactions. -/
def InOrder (receipts : List Rpc.Receipt) : Prop :=
  receipts.Pairwise fun a b => a.transactionIndex ≤ b.transactionIndex

variable {receipts receipts' : List Rpc.Receipt} {index : UInt64}

section ReceiptsAt

variable {receipt : Rpc.Receipt}

theorem mem_receiptsAt :
    receipt ∈ receiptsAt index receipts ↔ receipt ∈ receipts ∧ receipt.transactionIndex = index := by
  rw [receiptsAt, List.mem_filter, decide_eq_true_iff]

theorem mem_iff_of_receiptsAt_eq
    (h : ∀ index, receiptsAt index receipts = receiptsAt index receipts') :
    receipt ∈ receipts ↔ receipt ∈ receipts' := by
  have hself := @mem_receiptsAt receipts receipt.transactionIndex receipt
  have hself' := @mem_receiptsAt receipts' receipt.transactionIndex receipt
  rw [and_iff_left rfl] at hself hself'
  rw [← hself, h, hself']

theorem receiptsAt_cons_self :
    receiptsAt receipt.transactionIndex (receipt :: receipts) =
      receipt :: receiptsAt receipt.transactionIndex receipts :=
  List.filter_cons_of_pos (decide_eq_true rfl)

theorem receiptsAt_cons_of_ne (h : receipt.transactionIndex ≠ index) :
    receiptsAt index (receipt :: receipts) = receiptsAt index receipts :=
  List.filter_cons_of_neg (by simpa using h)

end ReceiptsAt

section InOrder

/-- The first of the receipts in order has the least index. -/
theorem InOrder.le_of_mem {first receipt : Rpc.Receipt} (h : InOrder (first :: receipts))
    (hmem : receipt ∈ first :: receipts) : first.transactionIndex ≤ receipt.transactionIndex := by
  rcases List.mem_cons.mp hmem with rfl | hrest
  · exact UInt64.le_refl _
  · exact List.rel_of_pairwise_cons h hrest

/-- Two lists in order are the same if they have the same receipts for every transaction. -/
theorem InOrder.eq_of_receiptsAt_eq (h : InOrder receipts) (h' : InOrder receipts')
    (hat : ∀ index, receiptsAt index receipts = receiptsAt index receipts') : receipts = receipts' := by
  induction receipts generalizing receipts' with
  | nil =>
    refine (List.eq_nil_iff_forall_not_mem.mpr fun receipt => ?_).symm
    simp [← mem_iff_of_receiptsAt_eq hat]
  | cons first rest ih =>
    have hmem := fun receipt => @mem_iff_of_receiptsAt_eq _ _ receipt hat
    cases receipts' with
    | nil => cases (hmem first).mp List.mem_cons_self
    | cons first' rest' =>
      have hindex : first.transactionIndex = first'.transactionIndex :=
        UInt64.le_antisymm (h.le_of_mem ((hmem first').mpr List.mem_cons_self))
          (h'.le_of_mem ((hmem first).mp List.mem_cons_self))
      have hsame := hat first.transactionIndex
      rw [receiptsAt_cons_self, hindex, receiptsAt_cons_self] at hsame
      obtain ⟨rfl, hrest⟩ := List.cons.inj hsame
      have hat_rest : ∀ index, receiptsAt index rest = receiptsAt index rest' := fun index => by
        by_cases hi : first.transactionIndex = index
        · rw [← hi, hrest]
        · rw [← receiptsAt_cons_of_ne hi, hat index, receiptsAt_cons_of_ne hi]
      rw [ih h.of_cons h'.of_cons hat_rest]

end InOrder

section Sorting

/-- The receipts sorted by their index. -/
def sorted (receipts : List Rpc.Receipt) : List Rpc.Receipt :=
  receipts.mergeSort fun a b => a.transactionIndex ≤ b.transactionIndex

private theorem index_le_trans (a b c : Rpc.Receipt) (hab : decide (a.transactionIndex ≤ b.transactionIndex))
    (hbc : decide (b.transactionIndex ≤ c.transactionIndex)) :
    decide (a.transactionIndex ≤ c.transactionIndex) :=
  decide_eq_true (UInt64.le_trans (of_decide_eq_true hab) (of_decide_eq_true hbc))

private theorem index_le_total (a b : Rpc.Receipt) :
    decide (a.transactionIndex ≤ b.transactionIndex) || decide (b.transactionIndex ≤ a.transactionIndex) := by
  rw [Bool.or_eq_true, decide_eq_true_iff, decide_eq_true_iff]
  exact UInt64.le_total _ _

theorem inOrder_sorted (receipts : List Rpc.Receipt) : InOrder (sorted receipts) :=
  (List.pairwise_mergeSort index_le_trans index_le_total receipts).imp of_decide_eq_true

theorem perm_sorted (receipts : List Rpc.Receipt) : (sorted receipts).Perm receipts :=
  List.mergeSort_perm receipts _

/-- Sorting keeps the receipts of a transaction as they arrived. -/
theorem receiptsAt_sorted (index : UInt64) (receipts : List Rpc.Receipt) :
    receiptsAt index (sorted receipts) = receiptsAt index receipts := by
  have hpairwise : (receiptsAt index receipts).Pairwise fun a b =>
      decide (a.transactionIndex ≤ b.transactionIndex) = true := by
    refine List.pairwise_of_forall_mem_list fun a ha b hb => decide_eq_true ?_
    rw [(mem_receiptsAt.mp ha).2, (mem_receiptsAt.mp hb).2]
    exact UInt64.le_refl index
  have hsublist : (receiptsAt index receipts).Sublist (sorted receipts) :=
    List.sublist_mergeSort index_le_trans index_le_total hpairwise List.filter_sublist
  have hwithin : (receiptsAt index receipts).Sublist (receiptsAt index (sorted receipts)) := by
    have := hsublist.filter fun receipt => decide (receipt.transactionIndex = index)
    simpa only [receiptsAt, List.filter_filter, Bool.and_self] using this
  exact (hwithin.eq_of_length (((perm_sorted receipts).filter _).length_eq).symm).symm

theorem sorted_eq_of_receiptsAt_eq
    (h : ∀ index, receiptsAt index receipts = receiptsAt index receipts') :
    sorted receipts = sorted receipts' :=
  (inOrder_sorted receipts).eq_of_receiptsAt_eq (inOrder_sorted receipts') fun index => by
    rw [receiptsAt_sorted, h, receiptsAt_sorted]

end Sorting

/-- Receipts are decoded alike if those of every transaction arrive in the same order. -/
theorem orderedReceipts_congr (h : ∀ index, receiptsAt index receipts = receiptsAt index receipts') :
    orderedReceipts receipts = orderedReceipts receipts' := by
  have hsorted := sorted_eq_of_receiptsAt_eq h
  have hlength : receipts.length = receipts'.length := by
    rw [← (perm_sorted receipts).length_eq, hsorted, (perm_sorted receipts').length_eq]
  funext types
  unfold orderedReceipts
  rw [hlength, ← sorted, hsorted, sorted]

/-- If no two receipts claim the same transaction, no order of arrival can be told from another. -/
theorem receiptsAt_eq_of_perm (h : receipts.Perm receipts')
    (hnodup : (receipts.map (·.transactionIndex)).Nodup) (index : UInt64) :
    receiptsAt index receipts = receiptsAt index receipts' := by
  have hperm : (receiptsAt index receipts).Perm (receiptsAt index receipts') := h.filter _
  have hindices : ((receiptsAt index receipts).map (·.transactionIndex)).Nodup :=
    hnodup.sublist (List.filter_sublist.map _)
  have hsame : ∀ receipt ∈ receiptsAt index receipts, receipt.transactionIndex = index :=
    fun receipt hreceipt => (mem_receiptsAt.mp hreceipt).2
  match hlist : receiptsAt index receipts with
  | [] => rw [hlist] at hperm; exact hperm.nil_eq
  | [receipt] => rw [hlist] at hperm; exact hperm.singleton_eq
  | first :: second :: rest =>
    rw [hlist] at hindices hsame
    have hfirst := hsame first List.mem_cons_self
    have hsecond := hsame second (List.mem_cons_of_mem first List.mem_cons_self)
    rw [List.map_cons, List.map_cons, hfirst, hsecond] at hindices
    exact absurd List.mem_cons_self (List.nodup_cons.mp hindices).1

end BlockCheck

/-- What a check of a block comes to, its errors included, depends on the order of the receipts only as far as
they claim the same transaction. -/
theorem checkBlock_congr (rules : Rules) (block : Rpc.Block) {receipts receipts' : List Rpc.Receipt}
    (h : ∀ index, BlockCheck.receiptsAt index receipts = BlockCheck.receiptsAt index receipts') :
    checkBlock rules block (some receipts) = checkBlock rules block (some receipts') := by
  unfold checkBlock
  dsimp only
  rw [BlockCheck.orderedReceipts_congr h]

/-- Receipts of different transactions may arrive in any order. -/
theorem checkBlock_perm (rules : Rules) (block : Rpc.Block) {receipts receipts' : List Rpc.Receipt}
    (h : receipts.Perm receipts') (hnodup : (receipts.map (·.transactionIndex)).Nodup) :
    checkBlock rules block (some receipts) = checkBlock rules block (some receipts') :=
  checkBlock_congr rules block (BlockCheck.receiptsAt_eq_of_perm h hnodup)

section Sample

def sampleReceiptAt (index : UInt64) (status : String) : Rpc.Receipt :=
  { sampleReceipt with transactionIndex := index, status := some status }

/-- A block with two transactions, of which the first succeeds. -/
def samplePair : Rpc.Block :=
  let transactions := [sampleTransactionDecoded, sampleTransactionDecoded]
  let receipts := [{ sampleReceiptDecoded with succeeded := true }, sampleReceiptDecoded]
  let block := { sampleBlock [] with
    transactionsRoot := (indexed (transactions.map Transaction.encode)).builder.rootHash .rskip107
    receiptsRoot := (indexed (receipts.map Receipt.encode)).builder.rootHash .rskip107
    transactions := .full [sampleTransaction, sampleTransaction] }
  { block with hash := block.header.hash sampleRules }

theorem toTransactions_samplePair :
    samplePair.toTransactions = .ok [sampleTransactionDecoded, sampleTransactionDecoded] := by
  have htx : sampleTransaction.toTransaction = .ok sampleTransactionDecoded := by decide +kernel
  change [sampleTransaction, sampleTransaction].mapM Rpc.Transaction.toTransaction = _
  rw [List.mapM_cons, List.mapM_cons, htx]
  rfl

theorem transactionsRoot_samplePair :
    transactionsRoot sampleRules.layout [sampleTransactionDecoded, sampleTransactionDecoded] =
      .ok samplePair.transactionsRoot := by
  have htx : Trie.Accepted sampleTransactionDecoded.encode := by decide +kernel
  exact indexedRoot_eq_ok_iff.mpr ⟨by simpa using htx, rfl⟩

/-- Receipts that arrive in order are decoded in order. -/
theorem orderedReceipts_samplePair (first second : String) :
    BlockCheck.orderedReceipts [sampleReceiptAt 0 first, sampleReceiptAt 1 second]
        ([sampleTransactionDecoded, sampleTransactionDecoded].map (·.type)) =
      BlockCheck.typedReceipts [sampleReceiptAt 0 first, sampleReceiptAt 1 second]
        [.legacy, .legacy] := by
  have hinOrder : BlockCheck.sorted [sampleReceiptAt 0 first, sampleReceiptAt 1 second] =
      [sampleReceiptAt 0 first, sampleReceiptAt 1 second] := by
    refine List.mergeSort_of_pairwise ?_
    rw [List.pairwise_pair]
    exact decide_eq_true (show (0 : UInt64) ≤ 1 by decide)
  rw [BlockCheck.orderedReceipts, ← BlockCheck.sorted, hinOrder]
  rfl

theorem checkBlock_samplePair :
    checkBlock sampleRules samplePair (some [sampleReceiptAt 0 "0x2", sampleReceiptAt 1 "0x3"]) =
      .error (.invalidStatus "0x2") := by
  have htyped : BlockCheck.typedReceipts [sampleReceiptAt 0 "0x2", sampleReceiptAt 1 "0x3"]
      [.legacy, .legacy] = .error (.invalidStatus "0x2") := by decide +kernel
  unfold checkBlock
  rw [toTransactions_samplePair, ok_bind, transactionsRoot_samplePair, mapError_ok, ok_bind]
  dsimp only
  rw [orderedReceipts_samplePair, htyped]
  rfl

theorem exists_isValid_samplePair :
    ∃ check, checkBlock sampleRules samplePair
      (some [sampleReceiptAt 0 "0x1", sampleReceiptAt 1 "0x0"]) = .ok check ∧ check.isValid := by
  have htyped : BlockCheck.typedReceipts [sampleReceiptAt 0 "0x1", sampleReceiptAt 1 "0x0"]
      [.legacy, .legacy] =
        .ok [{ sampleReceiptDecoded with succeeded := true }, sampleReceiptDecoded] := by
    decide +kernel
  have haccepted : ∀ item ∈ [{ sampleReceiptDecoded with succeeded := true },
      sampleReceiptDecoded].map Receipt.encode, Trie.Accepted item := by decide +kernel
  refine exists_isValid_iff.mpr ⟨?_, _, toTransactions_samplePair, transactionsRoot_samplePair, ?_⟩
  · unfold samplePair
    dsimp only [Rpc.Block.header]
  · rintro rs ⟨⟩
    rw [orderedReceipts_samplePair, htyped]
    exact ⟨_, rfl, indexedRoot_eq_ok_iff.mpr ⟨haccepted, rfl⟩⟩

/-- Receipts that arrive in reverse have the root of the block, and of two that cannot be decoded, the one of
the first transaction is reported. -/
theorem checkBlock_perm_samplePair :
    (∃ check, checkBlock sampleRules samplePair
      (some [sampleReceiptAt 1 "0x0", sampleReceiptAt 0 "0x1"]) = .ok check ∧ check.isValid) ∧
      checkBlock sampleRules samplePair (some [sampleReceiptAt 1 "0x3", sampleReceiptAt 0 "0x2"]) =
        .error (.invalidStatus "0x2") := by
  have hroots := checkBlock_perm sampleRules samplePair
    (List.Perm.swap (sampleReceiptAt 0 "0x1") (sampleReceiptAt 1 "0x0") []) (by decide)
  have herrors := checkBlock_perm sampleRules samplePair
    (List.Perm.swap (sampleReceiptAt 0 "0x2") (sampleReceiptAt 1 "0x3") []) (by decide)
  rw [hroots, herrors]
  exact ⟨exists_isValid_samplePair, checkBlock_samplePair⟩

end Sample

end BlockAudit
