import BlockAudit.Json.Printer
import BlockAudit.Json.Sorted
import BlockAudit.Rpc.Block
import BlockAudit.Rpc.Proof
import BlockAudit.Rpc.Receipt

/-! The requests to a node and what their replies mean. -/
namespace BlockAudit.Client

open Json (Reader)

structure Request where
  method : String
  params : List Json

namespace Request

/-- Method and parameters, which tell requests apart. -/
def text (request : Request) : String :=
  request.method ++ " " ++ (Json.array request.params).render

def block (number : UInt64) : Request :=
  ⟨"eth_getBlockByNumber", [Rpc.ofUInt64 number, .bool true]⟩

def receipt (hash : Hash) : Request :=
  ⟨"eth_getTransactionReceipt", [Rpc.ofFixed hash]⟩

def proof (address : Address) (slots : List Hash) (number : UInt64) : Request :=
  ⟨"eth_getProof", [Rpc.ofFixed address, Rpc.ofList Rpc.ofFixed slots, Rpc.ofUInt64 number]⟩

end Request

/-- What arrives after a request was sent. -/
inductive Reply where
  | result (value : Json)
  /-- The node answers that it cannot serve the request. -/
  | refusal
  /-- No answer arrives. Only then a request is sent again. -/
  | failure

/-- The reply to each sending of each request, counted from 0. -/
abbrev Transport := Request → Nat → Reply

inductive ClientError where
  | requestFailed (method : String)
  | invalidResult (method : String) (cause : Rpc.InputError)
  | noBlock (number : UInt64)
  | noReceipt (transaction : Hash)
  | noProof (address : Address) (number : UInt64)
deriving DecidableEq

namespace ClientError

def message : ClientError → String
  | .requestFailed method => method ++ " request failed"
  | .invalidResult method _ => "invalid " ++ method ++ " result"
  | .noBlock number => "block " ++ toString number.toNat ++ " does not exist"
  | .noReceipt transaction => "receipt of " ++ transaction.markedHex ++ " does not exist"
  | .noProof address number =>
    "no proof for " ++ address.markedHex ++ " at block " ++ toString number.toNat

def cause? : ClientError → Option Rpc.InputError
  | .invalidResult _ cause => some cause
  | _ => none

end ClientError

/-- An attempt fails if no answer arrives. Any answer ends the attempts. -/
def attempt (reply : Reply) : Except Reply Reply :=
  match reply with
  | .failure => .error reply
  | _ => .ok reply

/-- Reads a reply, where null means that there is no such thing. -/
def interpret {α : Type} (reader : Reader α) (method : String) (missing : ClientError) :
    Reply → Except ClientError α
  | .refusal | .failure => .error (.requestFailed method)
  | .result .null => .error missing
  | .result value =>
    (reader value.sorted).mapError fun m => .invalidResult method (.document (.mismatch m))

/-- A request together with the reading of its reply. -/
structure Query (α : Type) where
  request : Request
  read : Reply → Except ClientError α

namespace Query

def ofReader {α : Type} (request : Request) (reader : Reader α) (missing : ClientError) : Query α :=
  ⟨request, interpret reader request.method missing⟩

/-- The block at a height, with its transactions in full. -/
def block (number : UInt64) : Query Rpc.Block :=
  .ofReader (.block number) Rpc.Block.reader (.noBlock number)

def receipt (hash : Hash) : Query Rpc.Receipt :=
  .ofReader (.receipt hash) Rpc.Receipt.reader (.noReceipt hash)

/-- What the node proves of an account and some of its slots. -/
def proof (address : Address) (slots : List Hash) (number : UInt64) : Query Rpc.ProofResponse :=
  .ofReader (.proof address slots number) Rpc.ProofResponse.reader (.noProof address number)

end Query

end BlockAudit.Client
