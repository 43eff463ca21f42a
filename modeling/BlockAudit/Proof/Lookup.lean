import BlockAudit.Proof.Index
import BlockAudit.Trie.Key
import BlockAudit.Trie.Layout

/-! Walking a key from the root through the messages of a proof. -/
namespace BlockAudit.Proof

open Trie

/-- What a proof says about a key. -/
inductive Lookup where
  | found (value : Bytes)
  /-- There is a value, of which the proof has no more than hash and length. -/
  | foundHashed (hash : Hash) (length : UInt32)
  | notFound
deriving DecidableEq

namespace Lookup

/-- What a node says about the key that ends at it. -/
def ofLabel (label : Label) : Lookup :=
  match label.value, label.valueHash with
  | some value, _ => .found value
  | none, some hash => .foundHashed hash label.valueLength
  | none, none => .notFound

def value? : Lookup → Option Bytes
  | .found value => some value
  | _ => none

def valueHash? : Lookup → Option Hash
  | .foundHashed hash _ => some hash
  | _ => none

/-- Whether the answer agrees with an expected value, or with `none` for an absent key. -/
def agrees (lookup : Lookup) (expected : Option Bytes) : Bool :=
  match lookup, expected with
  | .notFound, none => true
  | .found value, some bytes => value == bytes
  | .foundHashed hash length, some bytes =>
    bytes.length == length.toNat && keccak bytes == hash
  | _, _ => false

end Lookup

/-- The node whose message has the hash, if that message is known. Messages serve as values too. -/
def resolve (messages : Hash → Option Bytes) (hash : Hash) : Except ProofError (Option Node) :=
  match messages hash with
  | none => .ok none
  | some message => ((Node.ofMessage messages message).mapError .malformedNode).map some

/-- Follows the rest of a key from a node. Each branch takes a bit of the key, so the walk ends. -/
def walk (messages : Hash → Option Bytes) (node : Node) (key : BitPath) :
    Except ProofError Lookup :=
  if key.length < node.path.length then .error (.keyTooShort key.length node.path.length)
  else if !node.path.isPrefixOf key then .ok .notFound
  else
    match _h : key.drop node.path.length with
    | [] => .ok (.ofLabel node.toLabel)
    | bit :: rest =>
      match node.child bit with
      | .absent => .ok .notFound
      | .inMemory label left right => walk messages ⟨label, left, right⟩ rest
      | .hashed hash =>
        match resolve messages hash with
        | .error error => .error error
        | .ok none => .error (.missingNode hash)
        | .ok (some next) => walk messages next rest
termination_by key.length
decreasing_by
  all_goals
    have := congrArg List.length ‹key.drop _ = _›
    simp at this
    omega

/-- Where a walk stands: the reference it follows next, and the number of bits of the key before it. -/
structure Position where
  child : Child
  cursor : Nat

/-- What a round of the walk comes to. -/
inductive Progress where
  | ended (result : Except ProofError Lookup)
  | onward (next : Position)

section Round

variable (messages : Hash → Option Bytes) (key : BitPath)

/-- The node behind a reference: the one in memory, or the one decoded from the message under the hash. -/
def follow : Child → Except ProofError (Option Node)
  | .absent => .ok none
  | .inMemory label left right => .ok (some ⟨label, left, right⟩)
  | .hashed hash => do
    match ← resolve messages hash with
    | none => throw (.missingNode hash)
    | some node => return some node

/-- Meets the key from the cursor on with the path of a node. `none` stands for a difference below zero:
a cursor behind the end of the key. -/
def meet? (node : Node) (cursor : Nat) : Option Progress :=
  if key.length < cursor then none
  else if key.length - cursor < node.path.length then
    some (.ended (.error (.keyTooShort (key.length - cursor) node.path.length)))
  else if !node.path.occursAt key cursor then some (.ended (.ok .notFound))
  else
    match key.get (cursor + node.path.length) with
    | .error _ => some (.ended (.ok (.ofLabel node.toLabel)))
    | .ok bit => some (.onward ⟨node.child bit, cursor + node.path.length + 1⟩)

/-- One round, in which at most one node is decoded or entered. -/
def round? (position : Position) : Option Progress :=
  match follow messages position.child with
  | .error error => some (.ended (.error error))
  | .ok none => some (.ended (.ok .notFound))
  | .ok (some node) => meet? key node position.cursor

end Round

/-- Walks `key` from the node whose message has the hash `root`. -/
def Index.lookup (index : Index) (root : Hash) (key : Bytes) : Except ProofError Lookup := do
  if index.isEmpty then throw .emptyProof
  match ← resolve index.get? root with
  | none => throw (.rootNotFound root)
  | some node => walk index.get? node (BitPath.ofBytes key)

/-- What the entries of a proof say about `key` under `root`. -/
def verify (root : Hash) (key : Bytes) (blobs : List Bytes) : Except ProofError Lookup := do
  (← Index.ofBlobs blobs).lookup root key

/-- Whether a proof agrees with an expected value, or with `none` for an absent key. -/
def verifyValue (root : Hash) (key : Bytes) (blobs : List Bytes) (expected : Option Bytes) :
    Except ProofError Bool := do
  return (← verify root key blobs).agrees expected

end BlockAudit.Proof
