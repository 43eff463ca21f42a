import BlockAudit.Rlp.Item
import BlockAudit.Trie.Builder

/-! The root of the trie that holds the items of a block by their position. -/
namespace BlockAudit

open Trie

/-- The key of the item at a position: its number as an RLP item. -/
def indexKey (index : Nat) : Bytes :=
  (Rlp.Item.ofNat index).encode

/-- Adds items at the positions from `index` on. -/
def insertFrom (builder : Builder) (index : Nat) : List Bytes → Except BuildError Builder
  | [] => .ok builder
  | item :: items => do
    let next ← (builder.insert (indexKey index) item).mapError Builder.Refusal.error
    insertFrom next (index + 1) items

def indexedRoot (layout : Layout) (items : List Bytes) : Except BuildError Hash := do
  return (← insertFrom {} 0 items).rootHash layout

end BlockAudit
