import MergedWork.BlockIndex.Status
import MergedWork.Header

/-!
# Nodes of the index

What is kept of each known block: the fields of its header, its place in the tree of blocks, sums
over its chain, and where its data are stored. In place of the hash of the block before it, a node
has that block's place in the index.
-/

namespace MergedWork

/-- A place in the files of stored blocks. -/
structure DiskPos where
  file : Int
  offset : Nat
  deriving DecidableEq, Repr

structure Node extends HeaderFields where
  hash : Digest
  /-- The place of this node in the index. -/
  id : Nat
  /-- The place of the block before it. -/
  prev : Option Nat
  /-- The number of blocks before it. -/
  height : Nat
  /-- The weighted work of the block and all before it. -/
  chainWork : Nat
  status : Status
  /-- The number of transactions, zero as long as they are not known. -/
  txCount : Nat
  /-- The number of transactions in the block and all before it, zero if not known. -/
  chainTx : Nat
  /-- All coins issued up to this block. -/
  moneySupply : Int
  /-- The state of the factor that scales the subsidy of each algorithm. -/
  subsidyScale : Int
  /-- The file that holds the block and the data that undo it. -/
  file : Int
  dataOffset : Nat
  undoOffset : Nat
  deriving DecidableEq

namespace Node

/-- A node that has no place in an index yet. -/
def ofHeader (h : Header) : Node where
  toHeaderFields := h.toHeaderFields
  hash := h.hash
  id := 0
  prev := none
  height := 0
  chainWork := 0
  status := .unknown
  txCount := 0
  chainTx := 0
  moneySupply := 0
  subsidyScale := 0
  file := 0
  dataOffset := 0
  undoOffset := 0

/-- Where the block is stored, if it is. -/
def blockPos? (n : Node) : Option DiskPos :=
  if n.status.has Status.haveData then some ⟨n.file, n.dataOffset⟩ else none

/-- Where the data that undo the block are stored, if they are. -/
def undoPos? (n : Node) : Option DiskPos :=
  if n.status.has Status.haveUndo then some ⟨n.file, n.undoOffset⟩ else none

/-- The node at a place of the index, behind its parent. Height and work follow from the parent.
The number of transactions of the chain does too if it is known of the parent and the block, and
stays as it was otherwise. -/
def linked (n : Node) (id : Nat) (prev : Option Nat) (parent : Option Node) : Node :=
  match parent with
  | none =>
    { n with id, prev, height := 0, chainWork := n.work, chainTx := n.txCount }
  | some p =>
    { n with
      id, prev
      height := p.height + 1
      chainWork := addWork p.chainWork n.work
      chainTx := if p.chainTx ≠ 0 ∧ n.txCount ≠ 0 then p.chainTx + n.txCount else n.chainTx }

end Node

end MergedWork
