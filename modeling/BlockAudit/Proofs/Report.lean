import BlockAudit.Proofs.ResponseCheck
import BlockAudit.Report
import Mathlib.Data.List.Basic

/-!
What reports show. The words for a failure stand in a report exactly if what it reports on is not valid. All
other lines of a valid report are made of digits and fixed words, which do without two of the letters of these.
-/
namespace BlockAudit.Report

/-- The mark stands somewhere in the text. -/
def Shows (text mark : String) : Prop :=
  mark.toList <:+: text.toList

/-- A text without two of the letters by which failures are told. -/
def Quiet (text : String) : Prop :=
  'M' ∉ text.toList ∧ 'v' ∉ text.toList

instance (text : String) : Decidable (Quiet text) :=
  inferInstanceAs (Decidable (_ ∧ _))

variable {s t mark line : String} {lines : List String}

theorem quiet_append_iff : Quiet (s ++ t) ↔ Quiet s ∧ Quiet t := by
  simp only [Quiet, String.toList_append, List.mem_append, not_or]
  exact and_and_and_comm

theorem quiet_truth (b : Bool) : Quiet (truth b) := by
  cases b <;> decide

theorem quiet_layoutName (layout : Trie.Layout) : Quiet layout.name := by
  cases layout <;> decide

theorem quiet_rulesLine (rules : Rules) : Quiet (rulesLine rules) := by
  unfold rulesLine
  simp only [quiet_append_iff]
  simp only [quiet_truth, quiet_layoutName, and_true]
  decide

theorem quiet_encodeMarked (bytes : Bytes) : Quiet (Hex.encodeMarked bytes) := by
  have hdigit : ∀ n ∈ List.range 16, Nat.digitChar n ≠ 'M' ∧ Nat.digitChar n ≠ 'v' := by decide
  have hencode : Quiet (Hex.encode bytes) := by
    rw [Quiet, Hex.encode, String.toList_ofList]
    constructor <;>
    · intro h
      obtain ⟨byte, -, hmem⟩ := List.mem_flatMap.mp h
      have hbyte := byte.toNat_lt
      have hhigh := hdigit (byte.toNat / 16) (List.mem_range.mpr (by omega))
      have hlow := hdigit (byte.toNat % 16) (List.mem_range.mpr (by omega))
      simp_all
  exact quiet_append_iff.mpr ⟨by decide, hencode⟩

theorem quiet_toString (n : Nat) : Quiet (toString n) := by
  have hdigits : (toString n).toList = Nat.toDigits 10 n := String.toList_ofList
  rw [Quiet, hdigits]
  constructor <;>
  · intro h
    exact absurd (Nat.isDigit_of_mem_toDigits (by decide) (by decide) h) (by decide)

theorem toList_unlines (lines : List String) :
    (unlines lines).toList = lines.flatMap fun line => line.toList ++ ['\n'] := by
  rw [unlines, String.toList_join, List.flatMap_map]
  simp only [String.toList_append]
  rfl

theorem quiet_unlines (h : ∀ line ∈ lines, Quiet line) : Quiet (unlines lines) := by
  have hline : ∀ line ∈ lines, Quiet (line ++ "\n") :=
    fun line hmem => quiet_append_iff.mpr ⟨h line hmem, by decide⟩
  rw [Quiet, unlines, String.toList_join, List.flatMap_map]
  constructor <;>
  · intro hmem
    obtain ⟨line, hline_mem, hchar⟩ := List.mem_flatMap.mp hmem
    first | exact (hline line hline_mem).1 hchar | exact (hline line hline_mem).2 hchar

theorem Shows.append_left (h : Shows s mark) (t : String) : Shows (s ++ t) mark := by
  rw [Shows, String.toList_append]
  exact List.infix_append_of_infix_left h

theorem Shows.append_right (h : Shows t mark) (s : String) : Shows (s ++ t) mark := by
  rw [Shows, String.toList_append]
  exact List.infix_append_of_infix_right h

theorem Shows.unlines (h : Shows line mark) (hmem : line ∈ lines) : Shows (unlines lines) mark := by
  rw [Shows, toList_unlines, List.flatMap_def]
  exact (List.infix_append_of_infix_left h).trans
    (List.infix_of_mem_flatten (List.mem_map_of_mem hmem))

theorem Quiet.not_shows_mismatch (h : Quiet s) : ¬ Shows s "MISMATCH" :=
  fun hshows => h.1 (hshows.mem (by decide))

theorem Quiet.not_shows_invalid (h : Quiet s) : ¬ Shows s "invalid proof: " :=
  fun hshows => h.2 (hshows.mem (by decide))

theorem shows_mismatch_verdict : Shows (verdict false) "MISMATCH" := by
  exact List.infix_refl _

section Block

theorem quiet_text {check : HashCheck} (h : check.isMatch) : Quiet check.text := by
  rw [HashCheck.text, if_pos h, quiet_append_iff]
  exact ⟨quiet_encodeMarked _, by decide⟩

theorem shows_text {check : HashCheck} (h : check.isMatch = false) : Shows check.text "MISMATCH" := by
  rw [HashCheck.text, h]
  exact Shows.append_right ⟨[' ', '('], [')'], by decide⟩ _

theorem quiet_checkLine {name outcome : String} (hname : Quiet (column name)) (h : Quiet outcome) :
    Quiet (checkLine name outcome) := by
  rw [checkLine, quiet_append_iff, quiet_append_iff, quiet_append_iff]
  exact ⟨⟨⟨by decide, hname⟩, by decide⟩, h⟩

theorem quiet_names (check : BlockCheck) : ∀ entry ∈ check.checks, Quiet (column entry.1) := by
  have hnames : Quiet (column "block hash") ∧ Quiet (column "transactions root") ∧
      Quiet (column "receipts root") := by decide
  rw [BlockCheck.checks, List.forall_mem_append, List.forall_mem_map]
  exact ⟨by simpa using ⟨hnames.1, hnames.2.1⟩, fun _ _ => hnames.2.2⟩

theorem quiet_block {check : BlockCheck} (h : check.isValid) : Quiet (block check) := by
  refine quiet_unlines ?_
  rw [blockLines, List.forall_mem_append, List.forall_mem_append, List.forall_mem_map]
  refine ⟨⟨?_, fun entry hentry => ?_⟩, ?_⟩
  · simp only [List.forall_mem_cons]
    exact ⟨quiet_append_iff.mpr ⟨by decide, quiet_toString _⟩, quiet_rulesLine _, nofun⟩
  · exact quiet_checkLine (quiet_names check entry hentry)
      (quiet_text (List.all_eq_true.mp h entry hentry))
  · split
    · rw [List.forall_mem_singleton]
      decide
    · nofun

theorem shows_block {check : BlockCheck} (h : check.isValid = false) :
    Shows (block check) "MISMATCH" := by
  obtain ⟨⟨name, c⟩, hmem, hmatch⟩ := List.all_eq_false.mp h
  have hline : checkLine name c.text ∈ blockLines check :=
    List.mem_append_left _ (List.mem_append_right _ (List.mem_map.mpr ⟨_, hmem, rfl⟩))
  exact Shows.unlines ((shows_text (by simpa using hmatch)).append_right _) hline

end Block

section Response

variable {check : ResponseCheck} {slot : StorageCheck} {address : Address}

theorem accountLine_of_error {error : Proof.ProofError} (h : check.account.error? = some error) :
    accountLine check = "  invalid proof: " ++ error.message := by
  rw [accountLine, h]

theorem accountLine_of_state {state : AccountState} (h : check.account.error? = none)
    (hstate : check.state = some state) :
    accountLine check = "  nonce " ++ toString state.nonce.toNat ++ " balance " ++
      toString state.balance.toNat ++ " (" ++ verdict check.accountMatches ++ ")" := by
  rw [accountLine, h, hstate]

theorem accountLine_of_none (h : check.account.error? = none) (hstate : check.state = none) :
    accountLine check = "  absent (" ++ verdict check.accountMatches ++ ")" := by
  rw [accountLine, h, hstate]

theorem quiet_accountLine (h : check.account.error? = none) (hmatch : check.accountMatches) :
    Quiet (accountLine check) := by
  cases hstate : check.state with
  | none =>
    rw [accountLine_of_none h hstate, hmatch]
    decide
  | some state =>
    rw [accountLine_of_state h hstate, hmatch]
    simp only [quiet_append_iff]
    simp only [quiet_toString, and_true]
    decide

theorem shows_accountLine (h : check.account.error? = none) (hmatch : check.accountMatches = false) :
    Shows (accountLine check) "MISMATCH" := by
  cases hstate : check.state with
  | none =>
    rw [accountLine_of_none h hstate, hmatch]
    exact (shows_mismatch_verdict.append_right _).append_left _
  | some state =>
    rw [accountLine_of_state h hstate, hmatch]
    exact (shows_mismatch_verdict.append_right _).append_left _

theorem quiet_provenText {verdict : Verdict}
    (hhash : verdict.value? = none → verdict.valueHash? = none) : Quiet (provenText verdict) := by
  unfold provenText
  cases hvalue : verdict.value? with
  | some value => exact quiet_encodeMarked value
  | none =>
    rw [hhash hvalue]
    decide

theorem quiet_storageLine (h : slot.verdict.error? = none)
    (hhash : slot.verdict.value? = none → slot.verdict.valueHash? = none)
    (hmatch : slot.matchesReport) : Quiet (storageLine slot) := by
  have hslot : Quiet slot.slot.markedHex := quiet_encodeMarked _
  rw [storageLine, h, hmatch]
  simp only [quiet_append_iff]
  simp only [quiet_encodeMarked, quiet_provenText hhash, hslot, and_true]
  decide

theorem shows_storageLine (hverdict : slot.verdict.isValid ↔ slot.verdict.error? = none)
    (h : slot.isValid = false) :
    Shows (storageLine slot) "MISMATCH" ∨ Shows (storageLine slot) "invalid proof: " := by
  unfold storageLine
  cases herror : slot.verdict.error? with
  | some error => exact .inr (Shows.append_left (Shows.append_right (List.infix_refl _) _) _)
  | none =>
    have hmatch : slot.matchesReport = false := by
      rwa [StorageCheck.isValid, hverdict.mpr herror, Bool.true_and] at h
    rw [hmatch]
    exact .inl ((shows_mismatch_verdict.append_right _).append_left _)

theorem mem_responseLines_of_storage (address : Address) (hslot : slot ∈ check.storage) :
    storageLine slot ∈ responseLines address check :=
  List.mem_append_right _ (List.mem_map_of_mem hslot)

theorem mem_responseLines_account : accountLine check ∈ responseLines address check :=
  List.mem_append_left _ (List.mem_append_left _ (by simp))

theorem quiet_response (h : check.account.error? = none) (hmatch : check.accountMatches)
    (hstorage : ∀ slot ∈ check.storage, Quiet (storageLine slot)) :
    Quiet (response address check) := by
  refine quiet_unlines ?_
  rw [responseLines, List.forall_mem_append, List.forall_mem_append, List.forall_mem_map]
  refine ⟨⟨?_, ?_⟩, hstorage⟩
  · simp only [List.forall_mem_cons]
    exact ⟨quiet_append_iff.mpr ⟨by decide, quiet_encodeMarked _⟩, quiet_accountLine h hmatch, nofun⟩
  · split
    · nofun
    · rw [List.forall_mem_singleton]
      decide

section Checked

variable {zeroSlot : Trie.ZeroSlot} {root : Hash} {response : Rpc.ProofResponse}

theorem quiet_response_of_isValid (h : checkResponse zeroSlot root address response = .ok check)
    (shown : Address) (hvalid : check.isValid) : Quiet (Report.response shown check) := by
  obtain ⟨haccount, hmatch, hslots⟩ := ResponseCheck.isValid_iff.mp hvalid
  obtain ⟨hverdict, hverdicts⟩ := ResponseCheck.verdicts_of_checkResponse h
  refine quiet_response (hverdict.mp haccount) hmatch fun slot hslot => ?_
  obtain ⟨hproven, hreported⟩ := Bool.and_eq_true_iff.mp (hslots slot hslot)
  obtain ⟨herror, hchecked⟩ := hverdicts slot hslot
  refine quiet_storageLine (herror.mp hproven) (fun hvalue => ?_) hreported
  exact ResponseCheck.valueHash?_eq_none_of_checkValue (hchecked.symm.trans hreported) hvalue

/-- What is not valid is told in the line about it, that of the account or that of a slot. -/
theorem shows_response (h : checkResponse zeroSlot root address response = .ok check)
    (shown : Address) (hinvalid : check.isValid = false) :
    Shows (Report.response shown check) "MISMATCH" ∨
      Shows (Report.response shown check) "invalid proof: " := by
  obtain ⟨hverdict, hverdicts⟩ := ResponseCheck.verdicts_of_checkResponse h
  cases haccount : check.account.error? with
  | some error =>
    refine .inr (Shows.unlines ?_ mem_responseLines_account)
    rw [accountLine_of_error haccount]
    exact Shows.append_left ⟨[' ', ' '], [], by decide⟩ _
  | none =>
    cases hmatch : check.accountMatches with
    | false => exact .inl ((shows_accountLine haccount hmatch).unlines mem_responseLines_account)
    | true =>
      rw [ResponseCheck.isValid, hverdict.mpr haccount, hmatch, Bool.true_and, Bool.true_and] at hinvalid
      obtain ⟨slot, hslot, hslot_invalid⟩ := List.all_eq_false.mp hinvalid
      have hline := mem_responseLines_of_storage shown hslot
      exact (shows_storageLine (hverdicts slot hslot).1 (Bool.of_not_eq_true hslot_invalid)).imp
        (fun hshows => hshows.unlines hline) fun hshows => hshows.unlines hline

end Checked

end Response

/-- A report shows a mismatch or a proof that cannot be used exactly if something that it reports on is not
valid. -/
theorem shows_failure_iff :
    (∀ zeroSlot root address response check, checkResponse zeroSlot root address response = .ok check →
      ∀ shown, (Shows (Report.response shown check) "MISMATCH" ∨
        Shows (Report.response shown check) "invalid proof: ") ↔ check.isValid = false) ∧
    ∀ check, Shows (block check) "MISMATCH" ↔ check.isValid = false := by
  refine ⟨fun zeroSlot root address response check h shown => ⟨fun hshows => ?_, shows_response h shown⟩,
    fun check => ⟨fun hshows => ?_, shows_block⟩⟩
  · by_contra hvalid
    have hquiet : Quiet (Report.response shown check) :=
      quiet_response_of_isValid h shown (Bool.of_not_eq_false hvalid)
    exact hshows.elim hquiet.not_shows_mismatch hquiet.not_shows_invalid
  · by_contra hvalid
    exact (quiet_block (Bool.of_not_eq_false hvalid)).not_shows_mismatch hshows

section Sample

/-- The sample response with something reported for the slot that is absent. -/
def sampleReporting (reported : Bytes) : Rpc.ProofResponse :=
  { sampleResponse with
    storageProof := [⟨.zero 32, [7], sampleBlobs.map Hex.encodeMarked⟩,
      ⟨sampleSlot, reported, sampleBlobs.map Hex.encodeMarked⟩] }

/-- Account and first slot are as they are stored. The other slot matches if nothing is reported of it. -/
def sampleCheck (reported : Bytes) : ResponseCheck where
  account := ⟨true, some [0xc5, 0x01, 0x82, 0x00, 0x80, 0x01], none, none⟩
  state := some ⟨1, 128, 1⟩
  accountMatches := true
  storage := [⟨.zero 32, ⟨true, some [0, 7], none, none⟩, [7], true⟩,
    ⟨sampleSlot, ⟨true, none, none, none⟩, reported, reported.isEmpty⟩]

theorem checkResponse_sampleReporting (reported : Bytes) :
    checkResponse .singleZero (sampleEntries.builder.rootHash .rskip107) sampleAddress
      (sampleReporting reported) = .ok (sampleCheck reported) := by
  have haccount : Proof.verifyAccount (sampleEntries.builder.rootHash .rskip107) sampleAddress
      sampleBlobs = ⟨true, some [0xc5, 0x01, 0x82, 0x00, 0x80, 0x01], none, none⟩ := by
    decide +kernel
  have hstored : Proof.verifyStorage .singleZero (sampleEntries.builder.rootHash .rskip107)
      sampleAddress (.zero 32) sampleBlobs = ⟨true, some [0, 7], none, none⟩ := by decide +kernel
  have habsent : Proof.verifyStorage .singleZero (sampleEntries.builder.rootHash .rskip107)
      sampleAddress sampleSlot sampleBlobs = ⟨true, none, none, none⟩ := by decide +kernel
  have hstate : AccountState.decode [0xc5, 0x01, 0x82, 0x00, 0x80, 0x01] = .ok ⟨1, 128, 1⟩ := by
    decide +kernel
  have hmarked := Rpc.proofBlobs_map Hex.writes_encodeMarked sampleBlobs
  have hslots : (sampleReporting reported).storageProof.mapM (ResponseCheck.checkStorage .singleZero
      (sampleEntries.builder.rootHash .rskip107) sampleAddress) = .ok (sampleCheck reported).storage := by
    rw [sampleReporting, List.mapM_cons, List.mapM_cons, List.mapM_nil,
      ResponseCheck.checkStorage_eq_ok_iff.mpr ⟨sampleBlobs, hmarked, rfl⟩,
      ResponseCheck.checkStorage_eq_ok_iff.mpr ⟨sampleBlobs, hmarked, rfl⟩]
    dsimp only
    rw [hstored, habsent]
    rfl
  refine ResponseCheck.checkResponse_eq_ok_iff.mpr
    ⟨sampleBlobs, _, Rpc.proofBlobs_map Hex.writes_encode sampleBlobs, hslots, ?_⟩
  have hmatches : ResponseCheck.checkAccount ⟨true, some [0xc5, 0x01, 0x82, 0x00, 0x80, 0x01], none, none⟩
      (sampleReporting reported) = (some ⟨1, 128, 1⟩, true) := checkAccount_of_decode hstate rfl rfl
  rw [haccount, hmatches]
  rfl

/-- A block whose transactions have another root than it says. -/
def sampleBlockCheck : BlockCheck where
  number := 1
  rules := {}
  blockHash := ⟨sampleSlot, sampleSlot⟩
  transactionsRoot := ⟨sampleSlot, .zero 32⟩
  receiptsRoot := some ⟨sampleSlot, sampleSlot⟩

/-- Only the report about a value for the absent slot shows a failure, and only that about a block whose
transactions have another root. -/
theorem shows_failure_iff_sample :
    let root := sampleEntries.builder.rootHash .rskip107
    let report := fun reported => Report.response sampleAddress (sampleCheck reported)
    checkResponse .singleZero root sampleAddress (sampleReporting [9]) = .ok (sampleCheck [9]) ∧
      (Shows (report [9]) "MISMATCH" ∨ Shows (report [9]) "invalid proof: ") ∧
      checkResponse .singleZero root sampleAddress (sampleReporting []) = .ok (sampleCheck []) ∧
      ¬ (Shows (report []) "MISMATCH" ∨ Shows (report []) "invalid proof: ") ∧
      Shows (block sampleBlockCheck) "MISMATCH" ∧
      ¬ Shows (block { sampleBlockCheck with transactionsRoot := ⟨.zero 32, .zero 32⟩ }) "MISMATCH" := by
  intro root report
  obtain ⟨hresponse, hblock⟩ := shows_failure_iff
  have hwrong := checkResponse_sampleReporting [9]
  have hright := checkResponse_sampleReporting []
  refine ⟨hwrong, (hresponse _ _ _ _ _ hwrong _).mpr (by decide), hright, fun h => ?_,
    (hblock _).mpr (by decide), fun h => ?_⟩
  · exact absurd ((hresponse _ _ _ _ _ hright _).mp h) (by decide)
  · exact absurd ((hblock _).mp h) (by decide)

end Sample

end BlockAudit.Report
