import MergedWork.MergeProof

/-!
# Blocks

A header, the merge-mining proof that its version may promise, and the transactions.
-/

namespace MergedWork

structure Block where
  header : Header
  /-- The proof that the block was mined as part of another. -/
  proof : Option MergeProof
  transactions : List Transaction
  deriving DecidableEq

namespace Block

/-- The block without a proof. -/
def ofHeader (header : Header) (transactions : List Transaction) : Block :=
  ⟨header, none, transactions⟩

/-- Adds or removes the proof, and says so in the version. -/
def setProof (b : Block) (proof : Option MergeProof) : Block :=
  { b with
    header := { b.header with version := b.header.version.setProof proof.isSome }
    proof }

/-- The hash that names the block. -/
def hash (b : Block) : Digest := b.header.hash

/-- The root of the tree of transactions. -/
def merkleRoot (b : Block) : Digest := Merkle.root (b.transactions.map Transaction.hash)

/-- Whether the block has no predecessor. -/
def isGenesis (b : Block) : Bool := b.header.previous = .zero

end Block

end MergedWork
