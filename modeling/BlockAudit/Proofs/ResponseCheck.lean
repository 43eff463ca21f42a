import BlockAudit.Proofs.AccountState
import BlockAudit.Proofs.Hex
import BlockAudit.Proofs.Proof.Completeness
import BlockAudit.ResponseCheck

/-!
What a check of a response is worth. Under the root of a trie it lets nothing pass that is not true of the
entries of the trie, and it lets every response pass that reports them with the proofs that are needed.
-/
namespace BlockAudit

open Trie Proof

/-- Nonce and balance are those of the account that is stored, or zero where there is none. -/
def AccountReported (nonce balance : Word) : Option Bytes → Prop
  | none => nonce = 0 ∧ balance = 0
  | some v => ∃ state, AccountState.decode v = .ok state ∧ state.nonce = nonce ∧ state.balance = balance

/-- A value is reported without zeros in front, and an absent one as empty. -/
def ValueReported (reported : Bytes) : Option Bytes → Prop
  | none => reported = []
  | some v => stripLeadingZeros v = reported

namespace Rpc

variable {write : Bytes → String} {blobs : List Bytes} {text : String} {blob : Bytes}

theorem proofBlob_of_writes (h : Hex.Writes text blob) : proofBlob text = .ok blob := by
  rw [proofBlob, Hex.decodeText_of_writes h, mapError_ok]

/-- Blobs that are written in digits, one way or another, are read back. -/
theorem proofBlobs_map (hwrite : ∀ blob, Hex.Writes (write blob) blob) (blobs : List Bytes) :
    proofBlobs (blobs.map write) = .ok blobs := by
  have hread : blobs.mapM (proofBlob ∘ write) = .ok (blobs.map id) :=
    mapM_eq_ok_map fun blob _ => proofBlob_of_writes (hwrite blob)
  rwa [List.map_id, ← List.mapM_map] at hread

namespace ProofResponse

/-- The texts of all proofs. -/
def proofTexts (response : ProofResponse) : List String :=
  response.accountProof ++ response.storageProof.flatMap StorageProof.proofs

/-- The messages inside all proofs, as far as these can be read. -/
def messages (response : ProofResponse) : List Bytes :=
  Proof.messages (response.proofTexts.filterMap fun text => (proofBlob text).toOption)

theorem messages_subset {response : ProofResponse} {texts : List String} {blobs : List Bytes}
    (htexts : texts ⊆ response.proofTexts) (h : proofBlobs texts = .ok blobs) :
    Proof.messages blobs ⊆ response.messages := by
  obtain ⟨-, hblobs⟩ := mem_of_mapM_eq_ok h
  intro message hmessage
  obtain ⟨blob, hblob, hunwrap⟩ := List.mem_filterMap.mp hmessage
  obtain ⟨text, htext, hread⟩ := hblobs blob hblob
  refine List.mem_filterMap.mpr ⟨blob, List.mem_filterMap.mpr ⟨text, htexts htext, ?_⟩, hunwrap⟩
  rw [hread]
  rfl

theorem accountProof_subset (response : ProofResponse) :
    response.accountProof ⊆ response.proofTexts :=
  List.subset_append_left _ _

theorem proofs_subset {response : ProofResponse} {entry : StorageProof}
    (h : entry ∈ response.storageProof) : entry.proofs ⊆ response.proofTexts :=
  fun _ htext => List.mem_append_right _ (List.mem_flatMap.mpr ⟨entry, h, htext⟩)

end ProofResponse

end Rpc

namespace Verdict

variable {result : Except ProofError Lookup}

theorem isValid_ofResult_iff : (ofResult result).isValid ↔ ∃ lookup, result = .ok lookup := by
  cases result with
  | ok lookup => exact iff_of_true rfl ⟨lookup, rfl⟩
  | error error => exact iff_of_false Bool.false_ne_true nofun

/-- A proof is valid exactly if there is no error. -/
theorem isValid_ofResult_iff_error? (result : Except ProofError Lookup) :
    (ofResult result).isValid ↔ (ofResult result).error? = none := by
  cases result with
  | ok lookup => exact iff_of_true rfl rfl
  | error error => exact iff_of_false Bool.false_ne_true nofun

end Verdict

namespace ResponseCheck

variable {zeroSlot : ZeroSlot} {root : Hash} {address : Address} {response : Rpc.ProofResponse}
  {entry : Rpc.StorageProof} {check : ResponseCheck} {slot : StorageCheck}

theorem isValid_iff :
    check.isValid ↔ check.account.isValid ∧ check.accountMatches ∧
      ∀ slot ∈ check.storage, slot.isValid := by
  rw [isValid, Bool.and_eq_true, Bool.and_eq_true, List.all_eq_true, and_assoc]

theorem checkStorage_eq_ok_iff :
    checkStorage zeroSlot root address entry = .ok slot ↔
      ∃ blobs, Rpc.proofBlobs entry.proofs = .ok blobs ∧
        slot = ⟨entry.key, verifyStorage zeroSlot root address entry.key blobs, entry.value,
          checkValue (verifyStorage zeroSlot root address entry.key blobs) entry.value⟩ := by
  rw [checkStorage, bind_eq_ok_iff]
  simp only [pure_eq_ok, Except.ok.injEq, eq_comm]

theorem checkResponse_eq_ok_iff :
    checkResponse zeroSlot root address response = .ok check ↔
      ∃ blobs storage, Rpc.proofBlobs response.accountProof = .ok blobs ∧
        response.storageProof.mapM (checkStorage zeroSlot root address) = .ok storage ∧
        check = ⟨verifyAccount root address blobs,
          (checkAccount (verifyAccount root address blobs) response).1,
          (checkAccount (verifyAccount root address blobs) response).2, storage⟩ := by
  rw [checkResponse, bind_eq_ok_iff]
  simp only [bind_eq_ok_iff, pure_eq_ok, Except.ok.injEq]
  constructor
  · rintro ⟨blobs, hblobs, storage, hstorage, rfl⟩
    exact ⟨blobs, storage, hblobs, hstorage, rfl⟩
  · rintro ⟨blobs, storage, hblobs, hstorage, rfl⟩
    exact ⟨blobs, hblobs, storage, hstorage, rfl⟩

/-- What the verdicts of a check are worth: each is valid exactly if it has no error, and the values of slots
are checked against what is reported. -/
theorem verdicts_of_checkResponse (h : checkResponse zeroSlot root address response = .ok check) :
    (check.account.isValid ↔ check.account.error? = none) ∧
      ∀ slot ∈ check.storage, (slot.verdict.isValid ↔ slot.verdict.error? = none) ∧
        slot.matchesReport = checkValue slot.verdict slot.reported := by
  obtain ⟨blobs, storage, -, hstorage, rfl⟩ := checkResponse_eq_ok_iff.mp h
  refine ⟨Verdict.isValid_ofResult_iff_error? _, fun slot hslot => ?_⟩
  obtain ⟨entry, -, hentry⟩ := (mem_of_mapM_eq_ok hstorage).2 slot hslot
  obtain ⟨blobs, -, rfl⟩ := checkStorage_eq_ok_iff.mp hentry
  exact ⟨Verdict.isValid_ofResult_iff_error? _, rfl⟩

/-- A long value that is only known by its hash is never taken for the one reported. -/
theorem valueHash?_eq_none_of_checkValue {verdict : Verdict} {reported : Bytes}
    (h : checkValue verdict reported) (hvalue : verdict.value? = none) : verdict.valueHash? = none := by
  unfold checkValue at h
  split at h
  · cases h
  · rw [hvalue] at h
    cases hhash : verdict.valueHash? with
    | none => rfl
    | some hash =>
      rw [hhash] at h
      cases h

theorem checkAccount_found (v : Bytes) (response : Rpc.ProofResponse) :
    checkAccount (.ofResult (.ok (.found v))) response =
      match AccountState.decode v with
      | .ok state =>
        (some state, state.nonce == response.nonce && state.balance == response.balance)
      | .error _ => (none, false) :=
  rfl

theorem checkAccount_notFound (response : Rpc.ProofResponse) :
    checkAccount (.ofResult (.ok .notFound)) response =
      (none, response.nonce == 0 && response.balance == 0) :=
  rfl

section Reported

variable {value : Option Bytes} {lookup : Lookup} {reported : Bytes}

/-- An account that matches is reported as it is stored, if the proof says the truth. -/
theorem accountReported_of_checkAccount (htrue : lookup.TrueOf value)
    (h : (checkAccount (.ofResult (.ok lookup)) response).2) :
    AccountReported response.nonce response.balance value := by
  cases lookup with
  | found v =>
    obtain rfl : value = some v := htrue
    rw [checkAccount_found] at h
    split at h
    · rename_i state hdecode
      obtain ⟨hnonce, hbalance⟩ : state.nonce = response.nonce ∧ state.balance = response.balance := by
        simpa using h
      exact ⟨state, hdecode, hnonce, hbalance⟩
    · cases h
  | foundHashed hash length => cases h
  | notFound =>
    obtain rfl : value = none := htrue
    rw [checkAccount_notFound] at h
    simpa [AccountReported] using h

theorem valueReported_of_checkValue (htrue : lookup.TrueOf value)
    (h : checkValue (.ofResult (.ok lookup)) reported) : ValueReported reported value := by
  cases lookup with
  | found v =>
    obtain rfl : value = some v := htrue
    exact beq_iff_eq.mp h
  | foundHashed hash length => cases h
  | notFound =>
    obtain rfl : value = none := htrue
    exact List.isEmpty_iff.mp h

end Reported

end ResponseCheck

section Sound

variable {entries : Entries} {key : Bytes} {response : Rpc.ProofResponse} {texts : List String}
  {blobs : List Bytes} {lookup : Lookup}

/-- What a proof of a response says is true. -/
theorem trueOf_of_proofBlobs (hkeys : ∀ k v, entries.value? k = some v → 8 * k.length < 2 ^ 64)
    (hfree : CollisionFree
      (entries.builder.tree.hashed .rskip107 ++ response.messages ++ [[0x80]]))
    (htexts : texts ⊆ response.proofTexts) (hblobs : Rpc.proofBlobs texts = .ok blobs)
    (h : verify (entries.builder.rootHash .rskip107) key blobs = .ok lookup) :
    lookup.TrueOf (entries.value? key) := by
  have hmessages : messages blobs ⊆
      entries.builder.tree.hashed .rskip107 ++ response.messages ++ [[0x80]] :=
    List.Subset.trans (Rpc.ProofResponse.messages_subset htexts hblobs) (by simp)
  have htree : entries.builder.tree.hashed .rskip107 ⊆
      entries.builder.tree.hashed .rskip107 ++ response.messages ++ [[0x80]] := by simp
  rw [eq_ofValue_of_verify hkeys hfree hmessages htree (by simp) h]
  refine trueOf_ofValue (fun v hv => Entries.accepted_of_value? hv) fun v hv w hw => ?_
  exact store_eq_value hfree hmessages htree hv hw

end Sound

/-- A response that is found valid under the root of a trie reports what the trie has for the account and
for every slot it lists, whoever made it. -/
theorem checkResponse_sound (entries : Entries)
    (hkeys : ∀ k v, entries.value? k = some v → 8 * k.length < 2 ^ 64) (zeroSlot : ZeroSlot)
    (address : Address) (response : Rpc.ProofResponse)
    (hfree : CollisionFree
      (entries.builder.tree.hashed .rskip107 ++ response.messages ++ [[0x80]]))
    {check : ResponseCheck}
    (h : checkResponse zeroSlot (entries.builder.rootHash .rskip107) address response = .ok check)
    (hvalid : check.isValid) :
    AccountReported response.nonce response.balance (entries.value? (Key.account address)) ∧
      ∀ entry ∈ response.storageProof,
        ValueReported entry.value (entries.value? (Key.storage zeroSlot address entry.key)) := by
  obtain ⟨blobs, storage, hblobs, hstorage, rfl⟩ := ResponseCheck.checkResponse_eq_ok_iff.mp h
  obtain ⟨haccount, hmatches, hslots⟩ := ResponseCheck.isValid_iff.mp hvalid
  dsimp only at hmatches hslots
  constructor
  · obtain ⟨lookup, hlookup⟩ := Verdict.isValid_ofResult_iff.mp haccount
    have htrue := trueOf_of_proofBlobs hkeys hfree response.accountProof_subset hblobs hlookup
    rw [verifyAccount, hlookup] at hmatches
    exact ResponseCheck.accountReported_of_checkAccount htrue hmatches
  · intro entry hentry
    obtain ⟨slot, hslot, hcheck⟩ := (mem_of_mapM_eq_ok hstorage).1 entry hentry
    obtain ⟨blobs, hblobs, rfl⟩ := ResponseCheck.checkStorage_eq_ok_iff.mp hcheck
    obtain ⟨hverdict, hvalue⟩ := Bool.and_eq_true_iff.mp (hslots _ hslot)
    obtain ⟨lookup, hlookup⟩ := Verdict.isValid_ofResult_iff.mp hverdict
    have htrue := trueOf_of_proofBlobs hkeys hfree (Rpc.ProofResponse.proofs_subset hentry) hblobs
      hlookup
    dsimp only at hvalue
    rw [verifyStorage, hlookup] at hvalue
    exact ResponseCheck.valueReported_of_checkValue htrue hvalue

section Sample

def sampleAddress : Address :=
  .zero 20

def sampleSlot : Hash :=
  ⟨List.replicate 32 1, List.length_replicate⟩

/-- An account whose balance is written as a coin amount, and a slot with a zero in front of its value. -/
def sampleEntries : Entries :=
  [(Key.account sampleAddress, [0xc5, 0x01, 0x82, 0x00, 0x80, 0x01]),
    (Key.storage .singleZero sampleAddress (.zero 32), [0, 7])]

/-- All messages, wrapped. To unfold them is to compute their hashes. -/
@[irreducible] def sampleBlobs : List Bytes :=
  (sampleEntries.builder.tree.messages .rskip107).map Rlp.encodeBytes

/-- The account, the slot that is stored, and one that is absent under a longer key. -/
def sampleResponse : Rpc.ProofResponse where
  address := none
  balance := 128
  nonce := 1
  codeHash := none
  storageHash := none
  accountProof := sampleBlobs.map Hex.encode
  storageProof := [⟨.zero 32, [7], sampleBlobs.map Hex.encodeMarked⟩,
    ⟨sampleSlot, [], sampleBlobs.map Hex.encodeMarked⟩]

theorem collisionFree_sampleResponse :
    CollisionFree
      (sampleEntries.builder.tree.hashed .rskip107 ++ sampleResponse.messages ++ [[0x80]]) := by
  have hread : (sampleBlobs.map Hex.encode).filterMap (fun text => (Rpc.proofBlob text).toOption) =
      sampleBlobs :=
    filterMap_of_mapM_eq_ok (Rpc.proofBlobs_map Hex.writes_encode sampleBlobs)
  have hmarked :
      (sampleBlobs.map Hex.encodeMarked).filterMap (fun text => (Rpc.proofBlob text).toOption) =
        sampleBlobs :=
    filterMap_of_mapM_eq_ok (Rpc.proofBlobs_map Hex.writes_encodeMarked sampleBlobs)
  have hmessages : sampleResponse.messages ⊆ messages sampleBlobs := by
    rw [Rpc.ProofResponse.messages, Rpc.ProofResponse.proofTexts, sampleResponse]
    simp [List.filterMap_append, hread, hmarked, messages]
  have hfree : CollisionFree
      (sampleEntries.builder.tree.hashed .rskip107 ++ messages sampleBlobs ++ [[0x80]]) := by
    decide +kernel
  refine hfree.mono (List.append_subset.mpr ⟨List.append_subset.mpr ⟨by simp, ?_⟩, by simp⟩)
  exact List.Subset.trans hmessages (by simp)

theorem checkResponse_sound_sample :
    AccountReported 1 128 (sampleEntries.value? (Key.account sampleAddress)) ∧
      ∀ entry ∈ sampleResponse.storageProof,
        ValueReported entry.value
          (sampleEntries.value? (Key.storage .singleZero sampleAddress entry.key)) := by
  let root := sampleEntries.builder.rootHash .rskip107
  let verdict (entry : Rpc.StorageProof) : Verdict :=
    verifyStorage .singleZero root sampleAddress entry.key sampleBlobs
  let slot (entry : Rpc.StorageProof) : StorageCheck :=
    ⟨entry.key, verdict entry, entry.value, ResponseCheck.checkValue (verdict entry) entry.value⟩
  have hread := Rpc.proofBlobs_map Hex.writes_encode sampleBlobs
  have hmarked := Rpc.proofBlobs_map Hex.writes_encodeMarked sampleBlobs
  have hslot : ∀ entry ∈ sampleResponse.storageProof,
      ResponseCheck.checkStorage .singleZero root sampleAddress entry = .ok (slot entry) := by
    intro entry hentry
    refine ResponseCheck.checkStorage_eq_ok_iff.mpr ⟨sampleBlobs, ?_, rfl⟩
    rcases List.mem_pair.mp hentry with rfl | rfl <;> exact hmarked
  have hcheck : checkResponse .singleZero root sampleAddress sampleResponse = .ok _ :=
    ResponseCheck.checkResponse_eq_ok_iff.mpr
      ⟨sampleBlobs, _, hread, mapM_eq_ok_map hslot, rfl⟩
  exact checkResponse_sound sampleEntries (Entries.forall_value? (by decide +kernel)) .singleZero
    sampleAddress sampleResponse collisionFree_sampleResponse hcheck (by decide +kernel)

end Sample

section Honest

/-- A list of wrapped messages, spelled in whatever way, among which are those of the root and of the nodes
on the way of a key that are not written inside others. -/
structure Proves (tree : Tree) (key : Bytes) (texts : List String) : Prop where
  wrapped : ∀ text ∈ texts, ∃ blob message, Hex.Writes text blob ∧ unwrap blob = .ok message
  root : ∃ text ∈ texts, Hex.Writes text (Rlp.encodeBytes tree.toNode.message)
  visited : ∀ s ∈ tree.visited (BitPath.ofBytes key), ¬ s.toChild.isInline →
    ∃ text ∈ texts, Hex.Writes text (Rlp.encodeBytes s.toNode.message)

/-- A slot that is reported as it is stored, with a proof. An absent one has no shorter key than any that
is stored. -/
structure HonestSlot (entries : Entries) (key : Bytes) (entry : Rpc.StorageProof) : Prop where
  reported : ValueReported entry.value (entries.value? key)
  inline : ∀ v ∈ entries.value? key, v.length ≤ maxInlineValue
  absent : entries.value? key = none → ∀ k v, entries.value? k = some v → k.length ≤ key.length
  proven : Proves entries.builder.tree key entry.proofs

/-- A response that reports an account and any slots as they are stored, with proofs. -/
structure HonestResponse (entries : Entries) (zeroSlot : ZeroSlot) (address : Address)
    (state : AccountState) (response : Rpc.ProofResponse) : Prop where
  stored : ∃ items, AccountState.Encodes state items ∧
    entries.value? (Key.account address) = some (Rlp.Item.list items).encode ∧
    (Rlp.Item.list items).encode.length ≤ maxInlineValue
  nonce : response.nonce = state.nonce
  balance : response.balance = state.balance
  proven : Proves entries.builder.tree (Key.account address) response.accountProof
  slots : ∀ entry ∈ response.storageProof,
    HonestSlot entries (Key.storage zeroSlot address entry.key) entry

variable {entries : Entries} {key : Bytes} {texts : List String} {response : Rpc.ProofResponse}
  {entry : Rpc.StorageProof}

/-- Any way to write the blobs of a proof will do. -/
theorem proves_map {tree : Tree} {write : Bytes → String} {blobs : List Bytes}
    (hwrite : ∀ blob, Hex.Writes (write blob) blob) (hwrapped : WellWrapped blobs)
    (hroot : Rlp.encodeBytes tree.toNode.message ∈ blobs)
    (hvisited : ∀ s ∈ tree.visited (BitPath.ofBytes key), ¬ s.toChild.isInline →
      Rlp.encodeBytes s.toNode.message ∈ blobs) : Proves tree key (blobs.map write) where
  wrapped text htext := by
    obtain ⟨blob, hblob, rfl⟩ := List.mem_map.mp htext
    obtain ⟨message, hmessage⟩ := hwrapped blob hblob
    exact ⟨blob, message, hwrite blob, hmessage⟩
  root := ⟨_, List.mem_map_of_mem hroot, hwrite _⟩
  visited s hs hinline := ⟨_, List.mem_map_of_mem (hvisited s hs hinline), hwrite _⟩

/-- What is answered about a short value. -/
theorem ofValue_of_inline {stored : Hash → Option Bytes} {value : Option Bytes}
    (h : ∀ v ∈ value, v.length ≤ maxInlineValue) :
    Lookup.ofValue stored value = value.elim .notFound .found := by
  cases value with
  | none => rfl
  | some v =>
    have hshort : v.length ≤ maxInlineValue := h v rfl
    rw [Lookup.ofValue, if_pos hshort, Option.elim_some]

/-- The texts of a proof are read, and the proof says what the trie has for the key. -/
theorem verify_of_proves (hne : entries.builder.tree ≠ .nil)
    (hkeys : ∀ k v, entries.value? k = some v → k.length ≤ 65535)
    (hinline : ∀ v ∈ entries.value? key, v.length ≤ maxInlineValue)
    (habsent : entries.value? key = none → ∀ k v, entries.value? k = some v → k.length ≤ key.length)
    (hproves : Proves entries.builder.tree key texts) (htexts : texts ⊆ response.proofTexts)
    (hfree : CollisionFree response.messages) :
    ∃ blobs, Rpc.proofBlobs texts = .ok blobs ∧
      verify (entries.builder.rootHash .rskip107) key blobs =
        .ok ((entries.value? key).elim .notFound .found) := by
  have hread : ∀ text ∈ texts, ∃ blob, Rpc.proofBlob text = .ok blob := by
    intro text htext
    obtain ⟨blob, -, hwrites, -⟩ := hproves.wrapped text htext
    exact ⟨blob, Rpc.proofBlob_of_writes hwrites⟩
  obtain ⟨blobs, hblobs⟩ := exists_mapM_eq_ok hread
  obtain ⟨hthere, hback⟩ := mem_of_mapM_eq_ok hblobs
  have hmem : ∀ blob, (∃ text ∈ texts, Hex.Writes text blob) → blob ∈ blobs := by
    rintro blob ⟨text, htext, hwrites⟩
    obtain ⟨other, hother, hsame⟩ := hthere text htext
    rw [Rpc.proofBlob_of_writes hwrites] at hsame
    cases hsame
    exact hother
  have hwrapped : WellWrapped blobs := by
    intro blob hblob
    obtain ⟨text, htext, hsame⟩ := hback blob hblob
    obtain ⟨other, message, hwrites, hmessage⟩ := hproves.wrapped text htext
    rw [Rpc.proofBlob_of_writes hwrites] at hsame
    cases hsame
    exact ⟨message, hmessage⟩
  refine ⟨blobs, hblobs, ?_⟩
  rw [← ofValue_of_inline hinline]
  exact verify_eq_ofValue hne hkeys habsent hwrapped (hmem _ hproves.root)
    (fun s hs hs_inline => hmem _ (hproves.visited s hs hs_inline)) hfree
    (Rpc.ProofResponse.messages_subset htexts hblobs)

/-- A slot that is reported as it is stored is found valid. -/
theorem checkStorage_of_honest {zeroSlot : ZeroSlot} {address : Address}
    (hne : entries.builder.tree ≠ .nil)
    (hkeys : ∀ k v, entries.value? k = some v → k.length ≤ 65535)
    (honest : HonestSlot entries (Key.storage zeroSlot address entry.key) entry)
    (hentry : entry ∈ response.storageProof) (hfree : CollisionFree response.messages) :
    ∃ slot, ResponseCheck.checkStorage zeroSlot (entries.builder.rootHash .rskip107) address entry =
      .ok slot ∧ slot.isValid := by
  obtain ⟨blobs, hblobs, hverify⟩ := verify_of_proves hne hkeys honest.inline honest.absent
    honest.proven (Rpc.ProofResponse.proofs_subset hentry) hfree
  refine ⟨_, ResponseCheck.checkStorage_eq_ok_iff.mpr ⟨blobs, hblobs, rfl⟩, ?_⟩
  rw [verifyStorage, hverify, StorageCheck.isValid, Bool.and_eq_true]
  refine ⟨rfl, ?_⟩
  have hreported := honest.reported
  dsimp only
  cases hvalue : entries.value? (Key.storage zeroSlot address entry.key) with
  | none =>
    rw [hvalue] at hreported
    exact List.isEmpty_iff.mpr hreported
  | some v =>
    rw [hvalue] at hreported
    exact beq_iff_eq.mpr hreported

/-- An account that is reported as it is stored matches, and it is read. -/
theorem checkAccount_of_decode {v : Bytes} {state : AccountState}
    (hdecode : AccountState.decode v = .ok state) (hnonce : response.nonce = state.nonce)
    (hbalance : response.balance = state.balance) :
    ResponseCheck.checkAccount (.ofResult (.ok (.found v))) response = (some state, true) := by
  rw [ResponseCheck.checkAccount_found, hdecode, hnonce, hbalance]
  simp

end Honest

/-- A response that reports a stored account and any slots as the trie has them, each with the messages that
are needed, is found valid, and its account is read. Values are short enough to be written inside nodes. -/
theorem checkResponse_complete (entries : Entries)
    (hkeys : ∀ k v, entries.value? k = some v → k.length ≤ 65535) (zeroSlot : ZeroSlot)
    (address : Address) (state : AccountState) (response : Rpc.ProofResponse)
    (honest : HonestResponse entries zeroSlot address state response)
    (hfree : CollisionFree
      (entries.builder.tree.hashed .rskip107 ++ response.messages ++ [[0x80]])) :
    ∃ check,
      checkResponse zeroSlot (entries.builder.rootHash .rskip107) address response = .ok check ∧
        check.isValid ∧ check.state = some state := by
  have hmessages : CollisionFree response.messages := hfree.mono (by simp)
  obtain ⟨items, hencodes, haccount, hinline⟩ := honest.stored
  have hne := Entries.tree_ne_nil haccount
  obtain ⟨blobs, hblobs, hverify⟩ := verify_of_proves hne hkeys (by simpa [haccount] using hinline)
    (by simp [haccount]) honest.proven response.accountProof_subset hmessages
  rw [haccount] at hverify
  have hslot := fun entry hentry =>
    checkStorage_of_honest hne hkeys (honest.slots entry hentry) hentry hmessages
  obtain ⟨storage, hstorage⟩ := exists_mapM_eq_ok fun entry hentry =>
    (hslot entry hentry).imp fun _ => And.left
  have hstate := checkAccount_of_decode (AccountState.decode_encode hencodes) honest.nonce
    honest.balance
  refine ⟨_, ResponseCheck.checkResponse_eq_ok_iff.mpr ⟨blobs, storage, hblobs, hstorage, rfl⟩, ?_⟩
  rw [ResponseCheck.isValid_iff, verifyAccount, hverify, Option.elim_some, hstate]
  refine ⟨⟨rfl, rfl, fun slot hmem => ?_⟩, rfl⟩
  obtain ⟨entry, hentry, hchecked⟩ := (mem_of_mapM_eq_ok hstorage).2 slot hmem
  obtain ⟨same, hsame, hvalid⟩ := hslot entry hentry
  rw [hchecked] at hsame
  cases hsame
  exact hvalid

/-- The messages of all nodes prove what the sample has for any key. -/
theorem proves_sampleBlobs {write : Bytes → String} (hwrite : ∀ blob, Hex.Writes (write blob) blob)
    (key : Bytes) : Proves sampleEntries.builder.tree key (sampleBlobs.map write) := by
  have hwrapped : WellWrapped sampleBlobs := by decide +kernel
  have hroot : Rlp.encodeBytes sampleEntries.builder.tree.toNode.message ∈ sampleBlobs := by
    decide +kernel
  apply proves_map hwrite hwrapped hroot
  intro s hs _
  have hmessage : s.toNode.message ∈ sampleEntries.builder.tree.messages .rskip107 :=
    Tree.messageIn_mem_of_visited .rskip107 hs
  have hblob : Rlp.encodeBytes s.toNode.message ∈
      (sampleEntries.builder.tree.messages .rskip107).map Rlp.encodeBytes :=
    List.mem_map_of_mem hmessage
  unfold sampleBlobs
  exact hblob

theorem checkResponse_complete_sample :
    ∃ check,
      checkResponse .singleZero (sampleEntries.builder.rootHash .rskip107) sampleAddress
          sampleResponse = .ok check ∧
        check.isValid ∧ check.state = some ⟨1, 128, 1⟩ := by
  have hbalance : AccountState.IsAmount [0, 0x80] 128 := by
    constructor
    · decide
    · exact .inr (by decide +kernel)
  have hslots : ∀ entry ∈ sampleResponse.storageProof,
      HonestSlot sampleEntries (Key.storage .singleZero sampleAddress entry.key) entry := by
    intro entry hentry
    rcases List.mem_pair.mp hentry with rfl | rfl
    · have hvalue : sampleEntries.value? (Key.storage .singleZero sampleAddress (.zero 32)) =
          some [0, 7] := by decide +kernel
      refine ⟨?_, ?_, ?_, proves_sampleBlobs Hex.writes_encodeMarked _⟩
      · rw [hvalue]
        rfl
      · simp [hvalue, maxInlineValue]
      · simp [hvalue]
    · have hvalue : sampleEntries.value? (Key.storage .singleZero sampleAddress sampleSlot) =
          none := by decide +kernel
      refine ⟨?_, ?_, ?_, proves_sampleBlobs Hex.writes_encodeMarked _⟩
      · rw [hvalue]
        rfl
      · simp [hvalue]
      · exact fun _ => Entries.forall_value? (by decide +kernel)
  have honest : HonestResponse sampleEntries .singleZero sampleAddress ⟨1, 128, 1⟩ sampleResponse :=
    { stored := ⟨_, .flagged (AccountState.isAmount_bigEndian 1) hbalance (.inl rfl),
        by decide +kernel, by decide +kernel⟩
      nonce := rfl
      balance := rfl
      proven := proves_sampleBlobs Hex.writes_encode _
      slots := hslots }
  exact checkResponse_complete sampleEntries (Entries.forall_value? (by decide +kernel)) .singleZero
    sampleAddress _ sampleResponse honest collisionFree_sampleResponse

end BlockAudit
