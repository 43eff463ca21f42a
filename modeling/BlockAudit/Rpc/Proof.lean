import BlockAudit.Rpc.Transaction

/-! Account and storage proofs as the node delivers them. -/
namespace BlockAudit.Rpc

open Json (Reader Record)

structure StorageProof where
  key : Hash
  /-- The bytes of the reported value without zeros in front. -/
  value : Bytes
  /-- Wrapped messages as hexadecimal text. -/
  proofs : List String
deriving DecidableEq

structure ProofResponse where
  address : Option Address
  balance : Word
  nonce : Word
  codeHash : Option Hash
  storageHash : Option Hash
  /-- Wrapped messages as hexadecimal text. -/
  accountProof : List String
  storageProof : List StorageProof
deriving DecidableEq

namespace StorageProof

def record : Record StorageProof :=
  StorageProof.mk <$> .required "key" slot <*> .defaulting "value" [] quantity
    <*> .requiredAs "proofs" "proof" (.list .string)

def reader : Reader StorageProof :=
  record.reader .ignored

def toJson (proof : StorageProof) : Json :=
  .object [
    ("key", ofFixed proof.key),
    ("value", ofBytes proof.value),
    ("proofs", ofList .string proof.proofs)]

end StorageProof

namespace ProofResponse

def record : Record ProofResponse :=
  ProofResponse.mk
    <$> .optional "address" Rpc.address
    <*> .defaulting "balance" 0 word
    <*> .defaulting "nonce" 0 word
    <*> .optional "codeHash" hash
    <*> .optional "storageHash" hash
    <*> .required "accountProof" (.list .string)
    <*> .defaulting "storageProof" [] (.list StorageProof.reader)

def reader : Reader ProofResponse :=
  record.reader .ignored

def toJson (response : ProofResponse) : Json :=
  .object [
    ("address", ofOption ofFixed response.address),
    ("balance", ofWord response.balance),
    ("nonce", ofWord response.nonce),
    ("codeHash", ofOption ofFixed response.codeHash),
    ("storageHash", ofOption ofFixed response.storageHash),
    ("accountProof", ofList .string response.accountProof),
    ("storageProof", ofList StorageProof.toJson response.storageProof)]

end ProofResponse

/-- The bytes of a wrapped message. The mark `0x` may be left out. -/
def proofBlob (text : String) : Except InputError Bytes :=
  (Hex.decodeText (stripHexMark text)).mapError (.invalidHex text)

def proofBlobs (texts : List String) : Except InputError (List Bytes) :=
  texts.mapM proofBlob

end BlockAudit.Rpc
