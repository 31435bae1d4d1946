import MergedWork.Digest
import MergedWork.Target

/-!
# Rejections

Why a header or its merge-mining proof is not accepted. Each rule that can fail has its own
constructor, with what the message names.
-/

namespace MergedWork

inductive Rejection
  /-- The proof's coinbase is not the first transaction of its block. -/
  | invalidProofIndex (index : Int32)
  /-- The parent block belongs to the chain that it is to prove a block of. -/
  | chainIdCollision (id : UInt32)
  /-- The chain branch has too many levels. -/
  | branchTooLong (levels : Nat)
  /-- The coinbase is not in the parent block. -/
  | merkleRootMismatch
  /-- The coinbase does not name the root of the chain tree. -/
  | rootNotInCoinbase
  /-- The coinbase holds the marker more than once. -/
  | duplicateMarker
  /-- The root does not follow the marker at once. -/
  | markerNotAdjacent
  /-- Without a marker, the root starts too far into the script. -/
  | rootNotEarlyEnough (offset : Nat)
  /-- Too few bytes follow the root. -/
  | missingSizeAndNonce
  /-- The size of the chain tree is not the one that the branch gives. -/
  | sizeMismatch (declared : Int32) (expected : Nat)
  /-- The block is not in the slot that its chain has in the tree. -/
  | wrongSlotIndex (got : Int32) (expected : UInt32)
  /-- An opaque parent header is too long. -/
  | parentHeaderTooLarge (length : Nat)
  /-- A raw coinbase is too long. -/
  | scriptTooLarge (length : Nat)
  /-- The header states no target, or one that is too easy. -/
  | targetOutOfRange (bits : Compact)
  /-- The hash is beyond the target. -/
  | hashExceedsTarget (hash : Digest) (bits : Compact)
  /-- The parent has no Equihash solution that the verifier accepts. -/
  | equihashSolutionInvalid
  /-- Another block is known to stand at this height. -/
  | checkpointMismatch (height : Nat)
  /-- The version promises a proof, but there is none. -/
  | missingProof
  /-- There is a proof that the version does not promise. -/
  | unexpectedProof
  /-- The block belongs to another chain. -/
  | wrongChainId (got expected : UInt32)
  /-- The previous block is not known. -/
  | unknownParent (hash : Digest)
  /-- The previous block has failed. -/
  | failedParent (hash : Digest)
  deriving DecidableEq

namespace Rejection

/-- A short name for the rule that failed. -/
def name : Rejection → String
  | invalidProofIndex _ => "InvalidProofIndex"
  | chainIdCollision _ => "ChainIdCollision"
  | branchTooLong _ => "BranchTooLong"
  | merkleRootMismatch => "MerkleRootMismatch"
  | rootNotInCoinbase => "RootNotInCoinbase"
  | duplicateMarker => "DuplicateMarker"
  | markerNotAdjacent => "MarkerNotAdjacent"
  | rootNotEarlyEnough _ => "RootNotEarlyEnough"
  | missingSizeAndNonce => "MissingSizeAndNonce"
  | sizeMismatch .. => "SizeMismatch"
  | wrongSlotIndex .. => "WrongSlotIndex"
  | parentHeaderTooLarge _ => "ParentHeaderTooLarge"
  | scriptTooLarge _ => "ScriptTooLarge"
  | targetOutOfRange _ => "TargetOutOfRange"
  | hashExceedsTarget .. => "HashExceedsTarget"
  | equihashSolutionInvalid => "EquihashSolutionInvalid"
  | checkpointMismatch _ => "CheckpointMismatch"
  | missingProof => "MissingProof"
  | unexpectedProof => "UnexpectedProof"
  | wrongChainId .. => "WrongChainId"
  | unknownParent _ => "UnknownParent"
  | failedParent _ => "FailedParent"

/-- A compact word in eight digits. -/
def bitsText (bits : Compact) : String :=
  "0x" ++ Hex.encode (Bytes.ofNat 4 bits.word.toNat).reverse

/-- The text of the rejection. -/
def message : Rejection → String
  | invalidProofIndex index =>
    "auxpow coinbase index " ++ toString index ++ " is not a generate transaction"
  | chainIdCollision id => "auxpow parent has our chain id " ++ toString id
  | branchTooLong levels =>
    "auxpow chain merkle branch too long (" ++ toString levels ++ " levels)"
  | merkleRootMismatch => "auxpow merkle root incorrect"
  | rootNotInCoinbase => "auxpow missing chain merkle root in parent coinbase"
  | duplicateMarker => "multiple merged mining headers in coinbase"
  | markerNotAdjacent => "merged mining header is not just before chain merkle root"
  | rootNotEarlyEnough offset =>
    "auxpow chain merkle root starts at byte " ++ toString offset ++
      ", must be within the first 20"
  | missingSizeAndNonce => "auxpow missing chain merkle tree size and nonce in parent coinbase"
  | sizeMismatch declared expected =>
    "auxpow merkle tree size " ++ toString declared ++ " does not match branch (" ++
      toString expected ++ ")"
  | wrongSlotIndex got expected =>
    "auxpow wrong index: got " ++ toString got ++ ", expected " ++ toString expected
  | parentHeaderTooLarge length => "auxpow parent header too big (" ++ toString length ++ " bytes)"
  | scriptTooLarge length => "auxpow coinbase script too big (" ++ toString length ++ " bytes)"
  | targetOutOfRange bits => "target of bits " ++ bitsText bits ++ " out of range"
  | hashExceedsTarget hash bits =>
    "hash " ++ hash.toHex ++ " does not meet target of bits " ++ bitsText bits
  | equihashSolutionInvalid => "equihash solution invalid"
  | checkpointMismatch height => "checkpoint mismatch at height " ++ toString height
  | missingProof => "no auxpow on block with auxpow version"
  | unexpectedProof => "auxpow on block with non-auxpow version"
  | wrongChainId got expected =>
    "block does not have our chain id (got " ++ toString got ++ ", expected " ++
      toString expected ++ ")"
  | unknownParent hash => "previous block " ++ hash.toHex ++ " not found"
  | failedParent hash => "previous block " ++ hash.toHex ++ " is marked invalid"

end Rejection

/-- Refuses what does not meet a rule. -/
def require (rule : Bool) (rejection : Rejection) : Except Rejection Unit :=
  if rule then .ok () else .error rejection

@[simp] theorem require_eq_ok_iff {rule : Bool} {rejection : Rejection} {u : Unit} :
    require rule rejection = .ok u ↔ rule = true := by
  cases rule <;> simp [require]

end MergedWork
