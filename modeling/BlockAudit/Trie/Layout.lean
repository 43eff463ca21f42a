import BlockAudit.Trie.Orchid

/-! The two message layouts side by side. -/
namespace BlockAudit.Trie

/-- How nodes are written before they are hashed. -/
inductive Layout where
  | orchid
  | rskip107
deriving DecidableEq

def Layout.name : Layout → String
  | .orchid => "Orchid"
  | .rskip107 => "Rskip107"

namespace Node

def hashIn : Layout → Node → Hash
  | .orchid, node => node.orchidHash
  | .rskip107, node => node.hash

/-- Reads a message in either layout. Only the older one begins with 2. -/
def ofMessage (store : ValueStore) (message : Bytes) : Except DecodeError Node :=
  match message with
  | [] => .error .emptyMessage
  | first :: _ =>
    if first = Orchid.arity then Orchid.decode store message else Rskip107.decode store message

end Node

end BlockAudit.Trie
