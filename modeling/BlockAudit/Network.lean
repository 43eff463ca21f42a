import BlockAudit.Text.Blank
import BlockAudit.Text.Numeral
import BlockAudit.Text.Quoted

/-! The public networks, and the spellings by which users name them. -/
namespace BlockAudit

inductive Network where
  | mainnet
  | testnet
  | regtest
deriving DecidableEq

namespace Network

def all : List Network := [.mainnet, .testnet, .regtest]

def chainId : Network → UInt64
  | .mainnet => 30
  | .testnet => 31
  | .regtest => 33

def name : Network → String
  | .mainnet => "mainnet"
  | .testnet => "testnet"
  | .regtest => "regtest"

def ofChainId? (id : UInt64) : Option Network :=
  all.find? fun network => network.chainId == id

/-- A name in any case, or a chain id in decimal or, after `0x`, in hexadecimal. Blanks around it do not
count. -/
def ofSpelling? (s : String) : Option Network :=
  let lower := String.ofList ((Text.trim s).toList.map Char.toLower)
  match all.find? fun network => network.name == lower with
  | some network => some network
  | none =>
    let id := match lower.toList with
      | '0' :: 'x' :: digits => Text.unsigned? 16 (String.ofList digits)
      | _ => Text.unsigned? 10 lower
    id.bind ofChainId?

end Network

end BlockAudit
