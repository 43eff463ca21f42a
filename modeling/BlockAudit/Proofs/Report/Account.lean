import BlockAudit.Proofs.Report

/-!
The line of a report about the account. It reads absent not only where that is proven, but wherever the proof
can be used and no account can be read from what it proves.
-/
namespace BlockAudit.Report

open ResponseCheck (checkAccount)

variable {check : ResponseCheck} {shown : Address} {line : String} {zeroSlot : Trie.ZeroSlot} {root : Hash}
  {address : Address} {response : Rpc.ProofResponse}

/-- The line about the account, which is the second one, begins in a certain way. -/
def AccountReads (shown : Address) (text line : String) : Prop :=
  ("Account " ++ shown.markedHex ++ "\n" ++ line).toList <+: text.toList

/-- A proof that can be used, of a key without any value. -/
def ProvesNothing (verdict : Verdict) : Prop :=
  verdict.isValid ∧ verdict.value? = none ∧ verdict.valueHash? = none

theorem provesNothing_ofResult_iff {result : Except Proof.ProofError Proof.Lookup} :
    ProvesNothing (.ofResult result) ↔ result = .ok .notFound := by
  constructor
  · rintro ⟨hvalid, hvalue, hhash⟩
    obtain ⟨lookup, rfl⟩ := Verdict.isValid_ofResult_iff.mp hvalid
    cases lookup with
    | found value => cases hvalue
    | foundHashed hash length => cases hhash
    | notFound => rfl
  · rintro rfl
    exact ⟨rfl, rfl, rfl⟩

theorem prefix_append_iff {first second rest : List Char} (h : first.length ≤ second.length) :
    first <+: second ++ rest ↔ first <+: second :=
  ⟨fun hprefix => List.prefix_of_prefix_length_le hprefix (List.prefix_append second rest) h,
    List.prefix_append_of_prefix⟩

theorem AccountReads.of_append {text more : String} (h : AccountReads shown text (line ++ more)) :
    AccountReads shown text line := by
  rw [AccountReads, ← String.append_assoc, String.toList_append] at h
  exact (List.prefix_append _ _).trans h

/-- Only the beginning of the line counts. -/
theorem accountReads_iff {start more : String} (hline : accountLine check = start ++ more)
    (hlength : line.toList.length ≤ start.toList.length) :
    AccountReads shown (Report.response shown check) line ↔ line.toList <+: start.toList := by
  obtain ⟨rest, hrest⟩ : ∃ rest, (Report.response shown check).toList =
      ("Account " ++ shown.markedHex ++ "\n").toList ++ (start.toList ++ rest) := by
    refine ⟨more.toList ++ '\n' :: ((if check.storage.isEmpty then [] else ["  storage:"]) ++
      check.storage.map storageLine).flatMap fun line => line.toList ++ ['\n'], ?_⟩
    rw [Report.response, toList_unlines, responseLines, List.append_assoc, List.flatMap_append]
    simp [hline]
  rw [AccountReads, String.toList_append, hrest, List.prefix_append_right_inj,
    prefix_append_iff hlength]

theorem accountReads_absent_iff :
    AccountReads shown (Report.response shown check) "  absent" ↔
      check.account.error? = none ∧ check.state = none := by
  cases haccount : check.account.error? with
  | some error =>
    rw [accountReads_iff (accountLine_of_error haccount) (by decide)]
    exact iff_of_false (by decide) nofun
  | none =>
    cases hstate : check.state with
    | some state =>
      have hline := accountLine_of_state haccount hstate
      simp only [String.append_assoc] at hline
      rw [accountReads_iff hline (by decide)]
      exact iff_of_false (by decide) nofun
    | none =>
      have hline := accountLine_of_none haccount hstate
      rw [String.append_assoc] at hline
      rw [accountReads_iff hline (by decide)]
      exact iff_of_true (by decide) ⟨rfl, rfl⟩

theorem accountReads_ok_iff :
    AccountReads shown (Report.response shown check) "  absent (ok)" ↔
      check.account.error? = none ∧ check.state = none ∧ check.accountMatches := by
  constructor
  · intro h
    have habsent : AccountReads shown (Report.response shown check) ("  absent" ++ " (ok)") := h
    obtain ⟨haccount, hstate⟩ := accountReads_absent_iff.mp habsent.of_append
    refine ⟨haccount, hstate, ?_⟩
    by_contra hmatch
    have hline := accountLine_of_none haccount hstate
    rw [Bool.eq_false_of_not_eq_true hmatch, ← String.append_empty (s := _ ++ ")")] at hline
    exact absurd ((accountReads_iff hline (by decide)).mp h) (by decide)
  · rintro ⟨haccount, hstate, hmatch⟩
    have hline := accountLine_of_none haccount hstate
    rw [hmatch, ← String.append_empty (s := _ ++ ")")] at hline
    exact (accountReads_iff hline (by decide)).mpr (by decide)

/-- What is said of the account is what the proof and the reported numbers are checked for. -/
theorem account_of_checkResponse (h : checkResponse zeroSlot root address response = .ok check) :
    ∃ result, check.account = .ofResult result ∧
      check.state = (checkAccount check.account response).1 ∧
      check.accountMatches = (checkAccount check.account response).2 := by
  obtain ⟨blobs, storage, -, -, rfl⟩ := ResponseCheck.checkResponse_eq_ok_iff.mp h
  exact ⟨_, rfl, rfl, rfl⟩

section Account

variable {result : Except Proof.ProofError Proof.Lookup}

/-- There is no state where nothing is proven, and none where what is proven cannot be read. -/
theorem error?_and_checkAccount_fst_eq_none_iff :
    (Verdict.ofResult result).error? = none ∧ (checkAccount (.ofResult result) response).1 = none ↔
      ProvesNothing (.ofResult result) ∨ (∃ hash, (Verdict.ofResult result).valueHash? = some hash) ∨
        ∃ value error, (Verdict.ofResult result).value? = some value ∧
          AccountState.decode value = .error error := by
  rw [provesNothing_ofResult_iff]
  cases result with
  | error error =>
    refine iff_of_false nofun ?_
    rintro (⟨⟨⟩⟩ | ⟨hash, ⟨⟩⟩ | ⟨value, error, ⟨⟩, -⟩)
  | ok lookup =>
    cases lookup with
    | notFound => exact iff_of_true ⟨rfl, rfl⟩ (.inl rfl)
    | foundHashed hash length => exact iff_of_true ⟨rfl, rfl⟩ (.inr (.inl ⟨hash, rfl⟩))
    | found value =>
      rw [ResponseCheck.checkAccount_found]
      cases hdecode : AccountState.decode value with
      | error error => exact iff_of_true ⟨rfl, rfl⟩ (.inr (.inr ⟨value, error, rfl, hdecode⟩))
      | ok state =>
        refine iff_of_false (fun h => Option.some_ne_none _ h.2) ?_
        rintro (⟨⟨⟩⟩ | ⟨hash, ⟨⟩⟩ | ⟨other, error, hvalue, herror⟩)
        obtain rfl : value = other := Option.some.inj hvalue
        cases hdecode.symm.trans herror

/-- Nothing matches without a state but zeros for an account that is proven absent. -/
theorem checkAccount_eq_none_true_iff :
    checkAccount (.ofResult result) response = (none, true) ↔
      ProvesNothing (.ofResult result) ∧ response.nonce = 0 ∧ response.balance = 0 := by
  rw [provesNothing_ofResult_iff]
  cases result with
  | error error => exact iff_of_false nofun nofun
  | ok lookup =>
    cases lookup with
    | notFound => simp [ResponseCheck.checkAccount_notFound]
    | foundHashed hash length => exact iff_of_false nofun nofun
    | found value =>
      rw [ResponseCheck.checkAccount_found]
      cases AccountState.decode value <;> simp

end Account

/-- The line of an account reads absent if that is proven, but also if there is a value of which only the
hash is known, or one that is no account. Only with an ok it is a proven absence, of an account that was
reported with zeros. -/
theorem account_reads_absent_iff (h : checkResponse zeroSlot root address response = .ok check)
    (shown : Address) :
    (AccountReads shown (Report.response shown check) "  absent" ↔
      ProvesNothing check.account ∨ (∃ hash, check.account.valueHash? = some hash) ∨
        ∃ value error, check.account.value? = some value ∧
          AccountState.decode value = .error error) ∧
    (AccountReads shown (Report.response shown check) "  absent (ok)" ↔
      ProvesNothing check.account ∧ response.nonce = 0 ∧ response.balance = 0) := by
  obtain ⟨result, haccount, hstate, hmatch⟩ := account_of_checkResponse h
  rw [haccount] at hstate hmatch
  constructor
  · rw [accountReads_absent_iff, haccount, hstate, error?_and_checkAccount_fst_eq_none_iff]
  · rw [accountReads_ok_iff, haccount, hstate, hmatch]
    constructor
    · exact fun ⟨_, hnone, htrue⟩ => checkAccount_eq_none_true_iff.mp (Prod.ext hnone htrue)
    · intro hproven
      have hcheck := checkAccount_eq_none_true_iff.mpr hproven
      have herror := (Verdict.isValid_ofResult_iff_error? result).mp hproven.1.1
      exact ⟨herror, congrArg Prod.fst hcheck, congrArg Prod.snd hcheck⟩

section Undecodable

open Trie

/-- A trie with one byte under the key of an account, which is no account. -/
def undecodableEntries : Entries :=
  [(Key.account sampleAddress, [0x80])]

def undecodableResponse : Rpc.ProofResponse where
  address := none
  balance := 5
  nonce := 3
  codeHash := none
  storageHash := none
  accountProof := [Rlp.encodeBytes undecodableEntries.builder.tree.toNode.message].map Hex.encodeMarked
  storageProof := []

def undecodableCheck : ResponseCheck :=
  ⟨⟨true, some [0x80], none, none⟩, none, false, []⟩

theorem checkResponse_undecodable :
    checkResponse .singleZero (undecodableEntries.builder.rootHash .rskip107) sampleAddress
      undecodableResponse = .ok undecodableCheck := by
  have hverify : Proof.verifyAccount (undecodableEntries.builder.rootHash .rskip107) sampleAddress
      [Rlp.encodeBytes undecodableEntries.builder.tree.toNode.message] = ⟨true, some [0x80], none, none⟩ := by
    decide +kernel
  refine ResponseCheck.checkResponse_eq_ok_iff.mpr
    ⟨_, [], Rpc.proofBlobs_map Hex.writes_encodeMarked _, rfl, ?_⟩
  rw [hverify]
  rfl

theorem account_reads_absent_iff_undecodable :
    checkResponse .singleZero (undecodableEntries.builder.rootHash .rskip107) sampleAddress
        undecodableResponse = .ok undecodableCheck ∧
      AccountReads sampleAddress (Report.response sampleAddress undecodableCheck) "  absent" ∧
      ¬ AccountReads sampleAddress (Report.response sampleAddress undecodableCheck)
        "  absent (ok)" := by
  obtain ⟨habsent, hok⟩ := account_reads_absent_iff checkResponse_undecodable sampleAddress
  refine ⟨checkResponse_undecodable, habsent.mpr ?_, fun h => ?_⟩
  · exact .inr (.inr ⟨[0x80], _, rfl, rfl⟩)
  · exact absurd (hok.mp h).1.2.1 nofun

/-- The trie holds a byte for the account, the byte is proven, and the line reads absent all the same. -/
theorem account_reads_absent_undecodable :
    undecodableEntries.value? (Key.account sampleAddress) = some [0x80] ∧
      checkResponse .singleZero (undecodableEntries.builder.rootHash .rskip107) sampleAddress
        undecodableResponse = .ok undecodableCheck ∧
      AccountReads sampleAddress (Report.response sampleAddress undecodableCheck) "  absent" ∧
      undecodableCheck.account.value? = some [0x80] ∧
      ¬ ProvesNothing undecodableCheck.account := by
  have hvalue : undecodableEntries.value? (Key.account sampleAddress) = some [0x80] := by
    decide +kernel
  have habsent : AccountReads sampleAddress (Report.response sampleAddress undecodableCheck)
      "  absent" := accountReads_absent_iff.mpr ⟨rfl, rfl⟩
  exact ⟨hvalue, checkResponse_undecodable, habsent, rfl, fun h => absurd h.2.1 nofun⟩

end Undecodable

end BlockAudit.Report
