import MergedWork.Target
import MergedWork.Transaction

/-!
# Block headers

A header has a version word into which several fields are packed, and a nonce of 32 bits or, for
Equihash, one of 256 bits with a solution. There are two byte forms: `Header.bytes` is hashed,
`Header.wire` is sent. They differ only for a solution of unusual length.
-/

namespace MergedWork

/-! ## Version words -/

/-- A version word. Bits 0 to 7 hold the base version, bit 8 says that a merge-mining proof
follows, bits 9 to 11 hold the tag of the algorithm, bit 12 says that the subsidy scaling factor
is updated, and the bits from 16 on hold the chain id. -/
structure Version where
  word : UInt32
  deriving DecidableEq, Repr

namespace Version

/-- The version number proper. -/
def base (v : Version) : UInt32 := v.word &&& 0xff

/-- Whether a merge-mining proof follows the header. -/
def hasProof (v : Version) : Bool := v.word &&& 0x100 ≠ 0

/-- Says whether a merge-mining proof follows the header. -/
def setProof (v : Version) (present : Bool) : Version :=
  ⟨if present then v.word ||| 0x100 else v.word &&& ~~~(0x100 : UInt32)⟩

/-- The algorithm that the block was mined with. -/
def algorithm (v : Version) : Algorithm := .ofTag ((v.word &&& 0xe00) >>> 9).toNat

/-- Names the algorithm that the block was mined with. -/
def setAlgorithm (v : Version) (algorithm : Algorithm) : Version :=
  ⟨(v.word &&& ~~~(0xe00 : UInt32)) ||| (UInt32.ofNat algorithm.tag <<< 9)⟩

/-- Whether the block updates the subsidy scaling factor. -/
def updatesScale (v : Version) : Bool := v.word &&& 0x1000 ≠ 0

/-- Says that the block updates the subsidy scaling factor. -/
def setUpdatesScale (v : Version) : Version := ⟨v.word ||| 0x1000⟩

/-- The chain that the block belongs to. -/
def chainId (v : Version) : UInt32 := v.word >>> 16

/-- Names the chain that the block belongs to, of whose id the low 16 bits count. -/
def setChainId (v : Version) (id : UInt32) : Version := ⟨v.word % 0x10000 ||| (id <<< 16)⟩

end Version

/-! ## Headers -/

/-- What the miner varied. -/
inductive Nonce
  /-- The nonce of every algorithm but Equihash. -/
  | compact (nonce : UInt32)
  /-- The nonce of an Equihash header, and the solution that it leads to. -/
  | equihash (reserved nonce : Digest) (solution : Bytes)
  deriving DecidableEq

namespace Nonce

/-- The nonce of 32 bits, if there is one. -/
def compact? : Nonce → Option UInt32
  | compact nonce => some nonce
  | equihash .. => none

/-- The Equihash solution, if there is one. -/
def solution? : Nonce → Option Bytes
  | compact _ => none
  | equihash _ _ solution => some solution

end Nonce

/-- A header but for its link to the previous block. -/
structure HeaderFields where
  version : Version
  merkleRoot : Digest
  time : UInt32
  bits : Compact
  nonce : Nonce
  deriving DecidableEq

/-- A header. -/
structure Header extends HeaderFields where
  previous : Digest
  deriving DecidableEq

namespace HeaderFields

/-- The algorithm that the block was mined with. -/
def algorithm (h : HeaderFields) : Algorithm := h.version.algorithm

/-- The weighted work of the block. -/
def work (h : HeaderFields) : Nat := h.bits.work h.algorithm.weight

end HeaderFields

namespace Header

/-- The length of a solution that counts as one. -/
def solutionLength : Nat := 1344

/-- The fields before the nonce. The reserved digest stands between the root and the time. -/
def start (h : Header) (reserved : Bytes) : Bytes :=
  Wire.word32 h.version.word ++ h.previous.bytes ++ h.merkleRoot.bytes ++ reserved ++
    Wire.word32 h.time ++ Wire.word32 h.bits.word

/-- What an Equihash solution is a solution of: the header up to the solution. -/
def equihashInput? (h : Header) : Option Bytes :=
  match h.nonce with
  | .compact _ => none
  | .equihash reserved nonce _ => some (h.start reserved.bytes ++ nonce.bytes)

/-- The byte form that is hashed. A solution of unusual length is replaced by one zero byte. -/
def bytes (h : Header) : Bytes :=
  match h.nonce with
  | .compact nonce => h.start [] ++ Wire.word32 nonce
  | .equihash reserved nonce solution =>
    h.start reserved.bytes ++ nonce.bytes ++
      if solution.length = solutionLength then Wire.varBytes solution else [0]

/-- The byte form that is sent. -/
def wire (h : Header) : Bytes :=
  match h.nonce with
  | .compact nonce => h.start [] ++ Wire.word32 nonce
  | .equihash reserved nonce solution =>
    h.start reserved.bytes ++ nonce.bytes ++ Wire.varBytes solution

/-- The hash that names the block. -/
def hash (h : Header) : Digest := sha256d h.bytes

end Header

/-! ## Reading -/

namespace Reader

def version : Reader Version := do return ⟨← word32⟩

def compact : Reader Compact := do return ⟨← word32⟩

/-- A header with a nonce of 32 bits. -/
def header : Reader Header := do
  let version ← version
  let previous ← digest
  let merkleRoot ← digest
  let time ← word32
  let bits ← compact
  let nonce ← word32
  return { version, previous, merkleRoot, time, bits, nonce := .compact nonce }

/-- A header with an Equihash solution. -/
def equihashHeader : Reader Header := do
  let version ← version
  let previous ← digest
  let merkleRoot ← digest
  let reserved ← digest
  let time ← word32
  let bits ← compact
  let nonce ← digest
  let solution ← varBytes
  return { version, previous, merkleRoot, time, bits, nonce := .equihash reserved nonce solution }

end Reader

end MergedWork
