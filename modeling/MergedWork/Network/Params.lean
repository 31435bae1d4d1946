import MergedWork.Checkpoint
import MergedWork.Network.Genesis

/-!
# Parameters

What the rules take from the network: its first block, the easiest targets, the identity of the
chain among merge-mined chains, the checkpoints, and the rule by which the fork becomes active.
-/

namespace MergedWork

/-- A block is past the fork if it has at least the given height, and if of the `window` blocks
before it at least `required` have the given base version or a later one. -/
structure ForkRule where
  height : Nat
  minVersion : Nat
  required : Nat
  window : Nat
  deriving DecidableEq, Repr

/-- The rule of all three networks. -/
def ForkRule.standard : ForkRule := ⟨200, 4, 75, 100⟩

structure Params where
  network : Network
  /-- The header of the first block. -/
  genesis : Header
  /-- The easiest target that each algorithm accepts. -/
  powLimit : Algorithm → Nat
  /-- Whether a merge-mined block must name our chain, and its parent another. -/
  strictChainId : Bool
  /-- The id of our chain among merge-mined chains. -/
  chainId : UInt32
  equihashN : UInt32
  equihashK : UInt32
  checkpoints : CheckpointTable
  forkRule : ForkRule

namespace Network

/-- The table of a network. -/
def checkpoints : Network → CheckpointTable
  | main =>
    .ofList
      [⟨0, .ofNat 0xc1fb746e87e89ae75bdec2ef0639a1f6786744639ce3d0ece1dcf979b79137cb⟩,
       ⟨4918, .ofNat 0x79aa44255b446aedb3cd9d765c4c7fc51b9c4a82e7d8639bf97ba42a73e61aec⟩,
       ⟨11571, .ofNat 0xec7fa58c5659476f5bafc1ff70d41188a73cdaa6deffb0fc42b7054815225f21⟩,
       ⟨17500, .ofNat 0x812f6ba1879ef23d3210c831b2572b411ee272f16317a541461fddfda5d2ebbf⟩,
       ⟨27050, .ofNat 0x2ef099e35b775661d748296da1a43cdd62b7bf34f1f347cb7e14855841064560⟩,
       ⟨33298, .ofNat 0xce5bc23644c83868038f6b08a9e6db3120613404036d2da371524ad168ad2413⟩,
       ⟨38290, .ofNat 0x984b6bd2c102bbeda7cef322f4b76109f6b42b64b2ae4beadc12d70614ffeeda⟩,
       ⟨42020, .ofNat 0xc795bf104a235632bd768d82c8d5097358247d59aed3cc7dccb04df651a08fa9⟩,
       ⟨44750, .ofNat 0xd33f726c5771bcae22580cdbf40cee2e2414c7196dacbffd34a09cb852f31ca3⟩,
       ⟨46190, .ofNat 0x926dfff0792133f87c497327c1bfdc1245af8c4ea41f9795edab042b0676b52c⟩,
       ⟨46519, .ofNat 0x5f0daab303063ec6bf2ee63bc666ac37f36647cbd2018280df845ab87169744a⟩,
       ⟨363838, .ofNat 0x43ecdc8de768235547f834ffa670304aca28c46b83385adbe59477f2409f68c6⟩]
      1512634233 992137 2500
  | testnet => .ofList [⟨0, testnet.genesisHash⟩] 1405274408 0 300
  | regtest => .ofList [⟨0, regtest.genesisHash⟩] 0 0 0

/-- The number of zero bits that the easiest target starts with. -/
def limitShift : Network → Nat
  | main => 32
  | testnet => 8
  | regtest => 1

/-- The parameters of a network. -/
def params (n : Network) : Params where
  network := n
  genesis := n.genesis.header
  powLimit _ := maxWord >>> n.limitShift
  strictChainId := true
  chainId := 0x5b
  equihashN := 200
  equihashK := 9
  checkpoints := n.checkpoints
  forkRule := .standard

end Network

namespace Params

/-- The hash of the first block. -/
def genesisHash (p : Params) : Digest := p.genesis.hash

/-- Sets the easiest target of one algorithm. -/
def setPowLimit (p : Params) (algorithm : Algorithm) (limit : Nat) : Params :=
  { p with powLimit := fun a => if a = algorithm then limit else p.powLimit a }

end Params

end MergedWork
