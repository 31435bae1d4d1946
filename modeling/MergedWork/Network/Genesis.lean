import MergedWork.Block
import MergedWork.Network
import MergedWork.Transaction.Script

/-!
# First blocks

The first block of each network is built from its coinbase, and has to have the hash that every
node of the network knows.
-/

namespace MergedWork.Network

/-- What the first coinbase says. -/
def genesisText : Network → String
  | main => "13/July/2014, with memory of the past, we look to the future. TDR"
  | testnet => "Testing Testnet"
  | regtest => "Testing Testnet"

/-- The key that the first coinbase pays to. -/
def genesisKey : Bytes :=
  [0x04, 0xf8, 0x8a, 0x76, 0x42, 0x9d, 0xad, 0x34, 0x6a, 0x10, 0xec, 0xb5, 0xd3, 0x6f, 0xcb, 0xf5,
   0x0b, 0xc2, 0xe0, 0x09, 0x87, 0x0e, 0x20, 0xc1, 0xa6, 0xdf, 0x8d, 0xb7, 0x43, 0xe0, 0xb9, 0x94,
   0xaf, 0xc1, 0xf9, 0x1e, 0x07, 0x9b, 0xe8, 0xac, 0xc3, 0x80, 0xb0, 0xee, 0x77, 0x65, 0x51, 0x99,
   0x06, 0xe3, 0xd7, 0x81, 0x51, 0x9e, 0x9d, 0xb4, 0x82, 0x59, 0xf6, 0x41, 0x60, 0x10, 0x49, 0x39,
   0xd8]

/-- The base units in one coin. -/
def coin : Int64 := 100000000

/-- The only transaction of the first block. It pays twenty coins. -/
def genesisCoinbase (n : Network) : Transaction :=
  .coinbase
    (Script.pushInteger 486604799 ++ Script.pushInteger 4 ++
      Script.pushBytes (Hex.utf8 n.genesisText))
    [⟨20 * coin, Script.pushBytes genesisKey ++ [Script.checkSignature]⟩]

/-- The time, the target and the nonce of the first block. -/
def genesisWork : Network → UInt32 × Compact × UInt32
  | main => (1405274442, ⟨0x1d00ffff⟩, 14385103)
  | testnet => (1534873293, ⟨0x1e0ffff0⟩, 181283)
  | regtest => (1405274400, ⟨0x207fffff⟩, 713058)

/-- The first block. -/
def genesis (n : Network) : Block :=
  let coinbase := n.genesisCoinbase
  let (time, bits, nonce) := n.genesisWork
  .ofHeader
    { version := ⟨1⟩
      previous := .zero
      merkleRoot := Merkle.root [coinbase.hash]
      time, bits
      nonce := .compact nonce }
    [coinbase]

/-- The hash that every node knows for the first block. -/
def genesisHash : Network → Digest
  | main => .ofNat 0xc1fb746e87e89ae75bdec2ef0639a1f6786744639ce3d0ece1dcf979b79137cb
  | testnet => .ofNat 0x45ccef675b070c6eae865e1fcd3978253ec52a960af9abbb91bd1d935513e5be
  | regtest => .ofNat 0x168329a349fc93768bfb02e536bbe1e1847d77a65764564552122fa9268d8841

/-- Whether a block is the one that the network starts with. -/
def startsWith (n : Network) (b : Block) : Bool := b.hash = n.genesisHash

end MergedWork.Network
