import MergedWork.MergeProof
import MergedWork.MergeProof.Slot
import MergedWork.Rejection

/-!
# The commitment of a proof

`MergeProof.check` says whether a proof commits the parent block to a block of our chain: the
coinbase is the first transaction of the parent, it names the root of the chain tree in the right
place of its script, and our block stands in its slot of that tree. The rules are tried in a fixed
order, and the first that fails gives the rejection. The work of the parent is not looked at.
-/

namespace MergedWork

namespace MergeProof

/-- The largest number of levels of the chain tree. -/
def maxLevels : Nat := 30

/-- The largest length of a coinbase or a parent header that comes as bytes. -/
def maxOpaque : Nat := 1000

/-- What stands before the root of the chain tree in a script. -/
def marker : Bytes := [0xfa, 0xbe, 0x6d, 0x6d]

/-- The largest offset of the root in a script without a marker. -/
def maxUnmarkedOffset : Nat := 20

/-- The coinbase is the first transaction of the parent block. The header of a parent whose fields
are not known has to hold the root anywhere in its bytes. -/
def checkInclusion (p : MergeProof) : Except Rejection Unit :=
  match p.parent with
  | .opaqueBytes bytes => do
    require (bytes.length ≤ maxOpaque) (.parentHeaderTooLarge bytes.length)
    let root := Merkle.foldBranch .keccak p.coinbase.hash p.merkleBranch p.index.toInt
    require (Bytes.find? root.bytes bytes).isSome .merkleRootMismatch
  | .structured header =>
    let root := Merkle.foldBranch .sha256d p.coinbase.hash p.merkleBranch p.index.toInt
    require (root = header.merkleRoot) .merkleRootMismatch

/-- The root at the given offset of a script stands right behind the only marker; where there is
none, it stands near the start. -/
def checkMarker (script : Bytes) (offset : Nat) : Except Rejection Unit :=
  match Bytes.find? marker script with
  | some start => do
    require (Bytes.find? marker (script.drop (start + 1))).isNone .duplicateMarker
    require (start + marker.length = offset) .markerNotAdjacent
  | none => require (offset ≤ maxUnmarkedOffset) (.rootNotEarlyEnough offset)

/-- What follows the root in the script gives the size of the chain tree and a nonce. The size is
that of a tree with the branch's levels, and our block stands in the slot of its chain. -/
def checkSlot (p : MergeProof) (chainId : UInt32) (tail : Bytes) : Except Rejection Unit := do
  let levels := p.chainBranch.length
  require (8 ≤ tail.length) .missingSizeAndNonce
  let size := (UInt32.ofNat (Bytes.toNat (tail.take 4))).toInt32
  let slots := 1 <<< levels
  require (size.toInt = slots) (.sizeMismatch size slots)
  let nonce := UInt32.ofNat (Bytes.toNat ((tail.drop 4).take 4))
  let slot := Slot.expected nonce chainId levels
  require (p.chainIndex.toInt = slot.toNat) (.wrongSlotIndex p.chainIndex slot)

/-- Checks that the proof commits to a block of the given chain. Under the strict rule, the parent
must not belong to that chain itself. -/
def check (p : MergeProof) (strict : Bool) (block : Digest) (chainId : UInt32) :
    Except Rejection Unit := do
  require (p.index = 0) (.invalidProofIndex p.index)
  require (!(strict && p.parent.chainId? == some chainId)) (.chainIdCollision chainId)
  require (p.chainBranch.length ≤ maxLevels) (.branchTooLong p.chainBranch.length)
  p.checkInclusion
  let script := p.coinbase.script
  require (!(p.coinbase.isRaw && maxOpaque < script.length)) (.scriptTooLarge script.length)
  match Bytes.find? (p.chainRoot block).displayed script with
  | none => .error .rootNotInCoinbase
  | some offset =>
    checkMarker script offset
    p.checkSlot chainId (script.drop (offset + 32))

end MergeProof

end MergedWork
