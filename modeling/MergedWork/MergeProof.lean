import MergedWork.Header
import MergedWork.Merkle

/-!
# Merge-mining proofs

A block of this chain can be mined as part of a block of a parent chain, whose coinbase names the
root of a tree over the merge-mined blocks. A proof holds the coinbase, its branch in the parent
block, the branch of our block in the tree, and the parent's header, which carries the work. The
coinbase and the header of a parent of another kind come as bytes.
-/

namespace MergedWork

/-! ## Coinbases -/

/-- How a coinbase that comes as bytes is hashed. -/
inductive RawHashing
  | sha256d
  | cryptonight
  deriving DecidableEq, Repr

/-- The parent's coinbase. -/
inductive Coinbase
  | structured (tx : Transaction)
  | raw (bytes : Bytes) (hashing : RawHashing)
  deriving DecidableEq

namespace Coinbase

/-- The second of the three digests that a CryptoNight coinbase is hashed from. -/
def cryptonightBase : Bytes :=
  [0xbc, 0x36, 0x78, 0x9e, 0x7a, 0x1e, 0x28, 0x14, 0x36, 0x46, 0x42, 0x29, 0x82, 0x8f, 0x81, 0x7d,
   0x66, 0x12, 0xf7, 0xb4, 0x77, 0xd6, 0x65, 0x91, 0xff, 0x96, 0xa9, 0xe0, 0x64, 0xbc, 0xc9, 0x8a]

/-- The hash of a CryptoNight coinbase, of whose three parts the last is empty. -/
def cryptonightHash (raw : Bytes) : Digest :=
  keccak256 ((keccak256 raw).bytes ++ cryptonightBase ++ Digest.zero.bytes)

/-- The hash of the coinbase, a leaf in the parent's tree of transactions. -/
def hash : Coinbase → Digest
  | structured tx => tx.hash
  | raw bytes .sha256d => MergedWork.sha256d bytes
  | raw bytes .cryptonight => cryptonightHash bytes

/-- Where the root of the chain tree is looked for: the script of the first input, or all of a
coinbase that comes as bytes. -/
def script : Coinbase → Bytes
  | structured tx => (tx.inputs.head?.map TxIn.script).getD []
  | raw bytes _ => bytes

/-- Whether the coinbase comes as bytes. -/
def isRaw : Coinbase → Bool
  | structured _ => false
  | raw .. => true

/-- The byte form of a coinbase. -/
def bytes : Coinbase → Bytes
  | structured tx => tx.bytes
  | raw bytes _ => Wire.varBytes bytes

end Coinbase

/-! ## Parents -/

/-- The header of the parent block. -/
inductive Parent
  | structured (header : Header)
  | opaqueBytes (bytes : Bytes)
  deriving DecidableEq

namespace Parent

/-- The header, if its fields are known. -/
def header? : Parent → Option Header
  | structured header => some header
  | opaqueBytes _ => none

/-- The bytes of a header whose fields are not known. -/
def opaqueBytes? : Parent → Option Bytes
  | structured _ => none
  | opaqueBytes bytes => some bytes

/-- The chain that the parent belongs to, if its fields are known. -/
def chainId? (p : Parent) : Option UInt32 := p.header?.map fun h => h.version.chainId

/-- The bytes that are hashed. -/
def hashed : Parent → Bytes
  | structured header => header.bytes
  | opaqueBytes bytes => bytes

/-- The hash that names the parent. -/
def hash (p : Parent) : Digest := sha256d p.hashed

/-- The byte form of a parent. -/
def bytes : Parent → Bytes
  | structured header => header.wire
  | opaqueBytes bytes => Wire.varBytes bytes

end Parent

/-! ## Proofs -/

/-- The proof that a block was mined as part of a parent block. -/
structure MergeProof where
  /-- The coinbase of the parent block. -/
  coinbase : Coinbase
  /-- The parent's hash as the miner gave it. No rule looks at it. -/
  parentHash : Digest
  /-- From the coinbase to the root of the parent's transactions. -/
  merkleBranch : List Digest
  /-- The place of the coinbase in the parent block. -/
  index : Int32
  /-- From our block to the root of the chain tree. -/
  chainBranch : List Digest
  /-- The place of our block in the chain tree. -/
  chainIndex : Int32
  /-- The header that carries the work. -/
  parent : Parent
  deriving DecidableEq

namespace MergeProof

/-- The byte form of a proof. -/
def bytes (p : MergeProof) : Bytes :=
  p.coinbase.bytes ++ p.parentHash.bytes ++ Wire.digests p.merkleBranch ++ Wire.int32 p.index ++
    Wire.digests p.chainBranch ++ Wire.int32 p.chainIndex ++ p.parent.bytes

/-- The root of the chain tree that the proof leads to from a block. -/
def chainRoot (p : MergeProof) (block : Digest) : Digest :=
  Merkle.foldBranch .sha256d block p.chainBranch p.chainIndex.toInt

end MergeProof

end MergedWork
