import MergedWork.BlockIndex

/-!
# What becomes known of a block

Changes to the nodes of an index: how far they are validated, whether they have failed, and where
their data are stored. None of them touches the tree of blocks.
-/

namespace MergedWork.BlockIndex

/-- Changes the node at a place. -/
def modify (ix : BlockIndex) (id : Nat) (f : Node → Node) : BlockIndex :=
  { ix with nodes := ix.nodes.modify id f }

/-- Sets bits in the status of a node. -/
def setStatus (ix : BlockIndex) (id : Nat) (flags : UInt32) : BlockIndex :=
  ix.modify id fun n => { n with status := n.status.set flags }

/-- Raises the level of a node, and says whether that was possible. -/
def raiseValidity (ix : BlockIndex) (id : Nat) (level : UInt32) : BlockIndex × Bool :=
  (ix.modify id fun n => { n with status := n.status.raise level },
    (ix.get? id).any fun n => n.status.canRaise level)

/-- Whether the parent of the node at a place has failed. -/
def parentFailed (ix : BlockIndex) (id : Nat) : Bool :=
  ((ix.get? id).bind fun n => n.prev.bind ix.get?).any fun p => p.status.isFailed

/-- Marks the node at a place if its parent has failed. -/
def spreadFailure (ix : BlockIndex) (id : Nat) : BlockIndex :=
  if ix.parentFailed id then ix.setStatus id Status.failedChild else ix

/-- Marks a node as failed, and all nodes that descend from it. They stand behind it, each behind
its parent, so that one pass over the places behind `id` finds them. -/
def markFailed (ix : BlockIndex) (id : Nat) : BlockIndex :=
  (List.range' (id + 1) (ix.size - (id + 1))).foldl spreadFailure
    (ix.setStatus id Status.failedValid)

/-- The number of transactions up to the block before a node. -/
def chainTxBefore (ix : BlockIndex) (n : Node) : Nat :=
  ((n.prev.bind ix.get?).map Node.chainTx).getD 0

/-- Records how many transactions a block has, and where it is stored. -/
def setBlockData (ix : BlockIndex) (id txCount : Nat) (pos : DiskPos) : BlockIndex :=
  ix.modify id fun n =>
    let before := ix.chainTxBefore n
    { n with
      txCount
      chainTx := if n.prev = none ∨ before ≠ 0 then before + txCount else n.chainTx
      file := pos.file
      dataOffset := pos.offset
      status := (n.status.set Status.haveData).raise Status.validTransactions }

/-- Records where the data that undo a block are stored. -/
def setUndoData (ix : BlockIndex) (id : Nat) (pos : DiskPos) : BlockIndex :=
  ix.modify id fun n =>
    { n with
      file := pos.file
      undoOffset := pos.offset
      status := n.status.set Status.haveUndo }

/-- Records the coins issued up to a block. -/
def setMoneySupply (ix : BlockIndex) (id : Nat) (supply : Int) : BlockIndex :=
  ix.modify id fun n => { n with moneySupply := supply }

end MergedWork.BlockIndex
