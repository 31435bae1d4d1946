import MergedWork.MergeProof
import MergedWork.Text.Blank

/-!
# Layouts of a proof

The algorithm of the block says of which kind the coinbase and the parent in its proof are, and
so how the proof is read.
-/

namespace MergedWork

/-- The kinds of parent chain. -/
inductive Layout
  /-- A transaction, and a header with a nonce of 32 bits. -/
  | bitcoin
  /-- A coinbase as bytes, and a header with an Equihash solution. -/
  | equihash
  /-- A coinbase and a header as bytes. -/
  | cryptonight
  deriving DecidableEq, Repr

/-- The layout of the proofs of blocks mined with the algorithm. -/
def Layout.ofAlgorithm : Algorithm → Layout
  | .equihash => equihash
  | .cryptonight => cryptonight
  | _ => bitcoin

namespace Reader

/-- A coinbase of the kind that the layout has. -/
def coinbase : Layout → Reader Coinbase
  | .bitcoin => do return .structured (← transaction)
  | .equihash => do return .raw (← varBytes) .sha256d
  | .cryptonight => do return .raw (← varBytes) .cryptonight

/-- A parent of the kind that the layout has. -/
def parent : Layout → Reader Parent
  | .bitcoin => do return .structured (← header)
  | .equihash => do return .structured (← equihashHeader)
  | .cryptonight => do return .opaqueBytes (← varBytes)

/-- The proof of a block mined with the algorithm. -/
def mergeProof (algorithm : Algorithm) : Reader MergeProof := do
  let layout := Layout.ofAlgorithm algorithm
  return {
    coinbase := ← coinbase layout
    parentHash := ← digest
    merkleBranch := ← digests
    index := ← int32
    chainBranch := ← digests
    chainIndex := ← int32
    parent := ← parent layout }

/-- A header, and the proof that follows if its version says so. -/
def headerAndProof : Reader (Header × Option MergeProof) := do
  let h ← header
  if h.version.hasProof then return (h, some (← mergeProof h.algorithm)) else return (h, none)

end Reader

/-- Reads a proof from hexadecimal text, as miners submit it. Blanks around the text are ignored. -/
def MergeProof.ofHex (text : String) (algorithm : Algorithm) : Except DecodeError MergeProof :=
  match Hex.decode (Hex.utf8 (String.ofList (Text.trim text.toList))) with
  | .error cause => .error (.hex cause)
  | .ok bytes => (Reader.mergeProof algorithm).all bytes

namespace Header

/-- The byte form of a header and its proof. -/
def wireWithProof (h : Header) (proof : Option MergeProof) : Bytes :=
  match proof with
  | none => h.wire
  | some p => h.wire ++ p.bytes

/-- Reads a header, and the proof that follows if its version says so. -/
def decodeWithProof (input : Bytes) : Except DecodeError (Header × Option MergeProof) :=
  Reader.headerAndProof.all input

end Header

end MergedWork
