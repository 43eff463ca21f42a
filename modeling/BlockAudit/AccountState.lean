import BlockAudit.Rlp.Cursor

/-! What the trie holds for an account: nonce, balance and sometimes flags. -/
namespace BlockAudit

open Rlp (Cursor RlpError)

structure AccountState where
  nonce : Word
  balance : Word
  flags : UInt8
deriving DecidableEq

namespace AccountState

/-- A big-endian number, which may begin with zeros. -/
def amount (digits : Bytes) : Except RlpError Word :=
  if 32 < digits.length then .error .isTooBig else .ok (.ofNat 256 (ofBigEndian digits))

/-- The flags are the first byte of the third item, which has to lie inside the list. -/
def flagsOf (encoded : Bytes) : Except RlpError UInt8 := do
  return (← Rlp.payloadAt (← Rlp.payload encoded) 2).headD 0

/-- Reads a list of two or three items. -/
def decode (encoded : Bytes) : Except RlpError AccountState := do
  match ← Rlp.looseItems encoded with
  | [nonce, balance] => return ⟨← amount nonce, ← amount balance, 0⟩
  | [nonce, balance, _] =>
    let flags ← flagsOf encoded
    return ⟨← amount nonce, ← amount balance, flags⟩
  | _ => throw .incorrectListLen

/-- Nonce and balance, read one after the other. -/
def readAmounts (cursor : Cursor) : Except RlpError (Word × Word) := do
  let first := cursor.read 0
  let nonce ← amount (← first.1)
  let second := first.2.read 1
  let balance ← amount (← second.1)
  return (nonce, balance)

/-- Reads an account through a cursor. The flags come before nonce and balance. -/
def readItems (encoded : Bytes) : Except RlpError AccountState := do
  let counted := Cursor.itemCount ⟨encoded, none⟩
  match ← counted.1 with
  | 2 =>
    let amounts ← readAmounts counted.2
    return ⟨amounts.1, amounts.2, 0⟩
  | 3 =>
    let third := counted.2.read 2
    let flags ← third.1
    let amounts ← readAmounts third.2
    return ⟨amounts.1, amounts.2, flags.headD 0⟩
  | _ => throw .incorrectListLen

end AccountState

end BlockAudit
