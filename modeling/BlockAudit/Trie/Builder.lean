import BlockAudit.Hex
import BlockAudit.Trie.Layout
import BlockAudit.Trie.Tree

/-! Building tries in memory, one entry after the other. -/
namespace BlockAudit.Trie

inductive BuildError where
  /-- An empty value would mean that the key is absent. -/
  | emptyValue (key : Bytes)
  | valueTooLong (cause : FieldError)
deriving DecidableEq

def BuildError.message : BuildError → String
  | .emptyValue key => "Cannot insert an empty value at key " ++ Hex.encodeMarked key
  | .valueTooLong cause => "Value is too long to store in a trie node: " ++ cause.message

structure Builder where
  tree : Tree := .nil
  /-- The insertions so far, of old keys as well as new ones. -/
  insertions : Nat := 0
deriving DecidableEq

namespace Builder

/-- What a refused call ends with: its error, and the builder as it is then. -/
structure Refusal where
  error : BuildError
  builder : Builder
deriving DecidableEq

/-- Most callers go no further and only tell the error. -/
instance : Coe Refusal BuildError := ⟨Refusal.error⟩

/-- Sets the value at `key`. -/
def insert (builder : Builder) (key value : Bytes) : Except Refusal Builder := do
  if value.isEmpty then throw ⟨.emptyValue key, builder⟩
  let _ ← (Uint24.encode value.length).mapError fun cause => ⟨.valueTooLong cause, builder⟩
  return ⟨builder.tree.insert (BitPath.ofBytes key) value, builder.insertions + 1⟩

/-- The builder after a call, refused or not. -/
def after (builder : Builder) (key value : Bytes) : Builder :=
  match builder.insert key value with
  | .ok next => next
  | .error refusal => refusal.builder

def build (builder : Builder) : Node :=
  builder.tree.toNode

def rootHash (builder : Builder) (layout : Layout) : Hash :=
  builder.build.hashIn layout

end Builder

end BlockAudit.Trie
