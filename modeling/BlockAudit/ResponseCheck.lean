import BlockAudit.AccountState
import BlockAudit.Proof.Verdict
import BlockAudit.Rpc.Proof

/-! Checking what a node reports of an account and its storage against a state root. -/
namespace BlockAudit

structure StorageCheck where
  slot : Hash
  verdict : Verdict
  /-- The value that the node reports, without zeros in front. -/
  reported : Bytes
  matchesReport : Bool

def StorageCheck.isValid (check : StorageCheck) : Bool :=
  check.verdict.isValid && check.matchesReport

structure ResponseCheck where
  account : Verdict
  /-- The account that is proven, where there is one that can be read. -/
  state : Option AccountState
  accountMatches : Bool
  storage : List StorageCheck

namespace ResponseCheck

def isValid (check : ResponseCheck) : Bool :=
  check.account.isValid && check.accountMatches && check.storage.all StorageCheck.isValid

/-- The proven state, and whether nonce and balance are as reported. An absent account has none of
either. -/
def checkAccount (verdict : Verdict) (response : Rpc.ProofResponse) :
    Option AccountState × Bool :=
  if !verdict.isValid then (none, false)
  else
    match verdict.value?, verdict.valueHash? with
    | some value, _ =>
      match AccountState.decode value with
      | .ok state =>
        (some state, state.nonce == response.nonce && state.balance == response.balance)
      | .error _ => (none, false)
    | none, some _ => (none, false)
    | none, none => (none, response.nonce == 0 && response.balance == 0)

/-- Whether a value is as reported. An absent one is reported as empty. -/
def checkValue (verdict : Verdict) (reported : Bytes) : Bool :=
  if !verdict.isValid then false
  else
    match verdict.value?, verdict.valueHash? with
    | some value, _ => stripLeadingZeros value == reported
    | none, some _ => false
    | none, none => reported.isEmpty

def checkStorage (zeroSlot : Trie.ZeroSlot) (root : Hash) (address : Address)
    (entry : Rpc.StorageProof) : Except Rpc.InputError StorageCheck := do
  let blobs ← Rpc.proofBlobs entry.proofs
  let verdict := Proof.verifyStorage zeroSlot root address entry.key blobs
  return ⟨entry.key, verdict, entry.value, checkValue verdict entry.value⟩

end ResponseCheck

/-- Checks the account and then every storage entry of a response. -/
def checkResponse (zeroSlot : Trie.ZeroSlot) (root : Hash) (address : Address)
    (response : Rpc.ProofResponse) : Except Rpc.InputError ResponseCheck := do
  let blobs ← Rpc.proofBlobs response.accountProof
  let account := Proof.verifyAccount root address blobs
  let (state, accountMatches) := ResponseCheck.checkAccount account response
  let storage ← response.storageProof.mapM (ResponseCheck.checkStorage zeroSlot root address)
  return ⟨account, state, accountMatches, storage⟩

end BlockAudit
