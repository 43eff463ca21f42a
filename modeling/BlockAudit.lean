import BlockAudit.AccountState
import BlockAudit.Activation
import BlockAudit.Activation.Document
import BlockAudit.Argument
import BlockAudit.Audit
import BlockAudit.BitPath
import BlockAudit.BlockCheck
import BlockAudit.Bytes
import BlockAudit.Client.Collector
import BlockAudit.Client.Fetch
import BlockAudit.Client.Request
import BlockAudit.Client.Transcript
import BlockAudit.Client.Window
import BlockAudit.Command
import BlockAudit.Duration
import BlockAudit.Field
import BlockAudit.Header
import BlockAudit.Hex
import BlockAudit.IndexedRoot
import BlockAudit.Json.Parser
import BlockAudit.Json.Printer
import BlockAudit.Json.Reader
import BlockAudit.Json.Record
import BlockAudit.Json.Sorted
import BlockAudit.Json.Value
import BlockAudit.Keccak
import BlockAudit.Main
import BlockAudit.Network
import BlockAudit.Proof.Error
import BlockAudit.Proof.Index
import BlockAudit.Proof.Lookup
import BlockAudit.Proof.Verdict
import BlockAudit.Receipt
import BlockAudit.Report
import BlockAudit.ResponseCheck
import BlockAudit.Retry
import BlockAudit.Rlp.Cursor
import BlockAudit.Rlp.Item
import BlockAudit.Rlp.Payload
import BlockAudit.Rpc.Block
import BlockAudit.Rpc.Proof
import BlockAudit.Rpc.Receipt
import BlockAudit.Rpc.Scalar
import BlockAudit.Rpc.Transaction
import BlockAudit.Text.Blank
import BlockAudit.Text.Invisible
import BlockAudit.Text.Numeral
import BlockAudit.Text.Quoted
import BlockAudit.Transaction
import BlockAudit.Trie.Builder
import BlockAudit.Trie.DecodeError
import BlockAudit.Trie.Key
import BlockAudit.Trie.Layout
import BlockAudit.Trie.Node
import BlockAudit.Trie.Orchid
import BlockAudit.Trie.Rskip107.Decode
import BlockAudit.Trie.Rskip107.Flags
import BlockAudit.Trie.Rskip107.Message
import BlockAudit.Trie.SharedPath
import BlockAudit.Trie.Tree
import BlockAudit.Uint24
import BlockAudit.VarInt
import BlockAudit.Proofs.Digits
import BlockAudit.Proofs.Field
import BlockAudit.Proofs.BitPath
import BlockAudit.Proofs.Outcome
import BlockAudit.Proofs.Trie.SharedPath
import BlockAudit.Proofs.Trie.Tree
import BlockAudit.Proofs.Trie.Entries
import BlockAudit.Proofs.Trie.Message
import BlockAudit.Proofs.Trie.ReadBack
import BlockAudit.Proofs.Proof.Index
import BlockAudit.Proofs.Trie.TreeNode
import BlockAudit.Proofs.Proof.Walk
import BlockAudit.Proofs.Proof.TreeWalk
import BlockAudit.Proofs.Proof.Soundness
import BlockAudit.Proofs.Proof.Completeness
import BlockAudit.Proofs.Trie.Stores
import BlockAudit.Proofs.Proof.Agreement
import BlockAudit.Proofs.Trie.Injective
import BlockAudit.Proofs.Trie.Commitment
import BlockAudit.Proofs.Trie.Grammar
import BlockAudit.Proofs.Trie.Parse
import BlockAudit.Proofs.BlockCheck
import BlockAudit.Proofs.Proof.Exclusion
import BlockAudit.Proofs.Trie.RoundTrip
import BlockAudit.Proofs.Trie.Build
import BlockAudit.Proofs.Trie.Cursor
import BlockAudit.Proofs.Trie.Shape
import BlockAudit.Proofs.Proof.Reading
import BlockAudit.Proofs.Trie.OrchidReadBack
import BlockAudit.Proofs.Proof.Orchid
import BlockAudit.Proofs.Hex
import BlockAudit.Proofs.Rlp.Row
import BlockAudit.Proofs.AccountState
import BlockAudit.Proofs.ResponseCheck
import BlockAudit.Proofs.Proof.Verdict
import BlockAudit.Proofs.Trie.OrchidRoundTrip
import BlockAudit.Proofs.Trie.Faithful
import BlockAudit.Proofs.Proof.EntrySet
import BlockAudit.Proofs.Proof.Trail
import BlockAudit.Proofs.Trie.Key
import BlockAudit.Proofs.Trie.NormalForm
import BlockAudit.Proofs.Trie.Trailing
import BlockAudit.Proofs.Transaction
import BlockAudit.Proofs.RawZeros
import BlockAudit.Proofs.Receipt
import BlockAudit.Proofs.Rlp.Spelling
import BlockAudit.Proofs.Proof.Wrapping
import BlockAudit.Proofs.Trie.SubtreeSize
import BlockAudit.Proofs.Rlp.Cursor
import BlockAudit.Proofs.AccountState.Stepwise
import BlockAudit.Proofs.AccountState.Acceptance
import BlockAudit.Proofs.Retry
import BlockAudit.Proofs.BlockCheck.Arrival
import BlockAudit.Proofs.Client.Collector
import BlockAudit.Proofs.Client.Window
import BlockAudit.Proofs.Client.Log
import BlockAudit.Proofs.Client.Step
import BlockAudit.Proofs.Client.Fetch
import BlockAudit.Proofs.Client.Receipts
import BlockAudit.Proofs.Numeral
import BlockAudit.Proofs.Hex.Numeral
import BlockAudit.Proofs.Json.Printer
import BlockAudit.Proofs.Rpc.Quantity
import BlockAudit.Proofs.Rpc.StorageProof
import BlockAudit.Proofs.Network
import BlockAudit.Proofs.Activation
import BlockAudit.Proofs.Report
import BlockAudit.Proofs.Report.Account
import BlockAudit.Proofs.BitPath.Packed
import BlockAudit.Proofs.BitPath.CommonPrefix
import BlockAudit.Proofs.Field.Integer
import BlockAudit.Proofs.Trie.SharedPath.Spelling
import BlockAudit.Proofs.Trie.Refusal
import BlockAudit.Proofs.Trie.Refusal.Nested
