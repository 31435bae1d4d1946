/-!
# Networks

The three networks that the chain runs on.
-/

namespace MergedWork

inductive Network
  | main
  | testnet
  | regtest
  deriving DecidableEq, Repr

namespace Network

def all : List Network := [main, testnet, regtest]

/-- The name of the network. -/
def name : Network → String
  | main => "main"
  | testnet => "testnet"
  | regtest => "regtest"

/-- The network of the given name. -/
def ofName? (text : String) : Option Network := all.find? fun n => n.name = text

end Network

end MergedWork
