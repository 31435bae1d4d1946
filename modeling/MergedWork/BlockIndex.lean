import MergedWork.BlockIndex.Node
import MergedWork.Network.Params

/-!
# The index of blocks

All known headers, as a tree. A node is named by its place in the index, which never changes, and
stands behind its parent. Nodes are added at the end, one for each hash, and are never removed.
-/

namespace MergedWork

structure BlockIndex where
  /-- The rule by which blocks are past the fork. -/
  rule : ForkRule
  nodes : Array Node
  deriving DecidableEq

namespace BlockIndex

/-- The index without blocks. -/
def empty (rule : ForkRule) : BlockIndex := ⟨rule, #[]⟩

/-- The number of blocks. -/
def size (ix : BlockIndex) : Nat := ix.nodes.size

/-! ## Looking up nodes -/

/-- The node at a place. -/
def get? (ix : BlockIndex) (id : Nat) : Option Node := ix.nodes[id]?

/-- The place of the block with the given hash. -/
def lookup? (ix : BlockIndex) (hash : Digest) : Option Nat :=
  ix.nodes.findIdx? fun n => n.hash = hash

/-- Whether the block with the given hash is known. -/
def contains (ix : BlockIndex) (hash : Digest) : Bool := (ix.lookup? hash).isSome

/-- The node of the block with the given hash. -/
def node? (ix : BlockIndex) (hash : Digest) : Option Node := (ix.lookup? hash).bind ix.get?

/-- The hash of the block before a node, or the zero digest. -/
def previousHash (ix : BlockIndex) (n : Node) : Digest :=
  ((n.prev.bind ix.get?).map Node.hash).getD .zero

/-- The header of a node. -/
def header (ix : BlockIndex) (n : Node) : Header :=
  { n.toHeaderFields with previous := ix.previousHash n }

/-! ## Adding nodes -/

/-- Adds a node behind its parent, and gives its place. -/
def push (ix : BlockIndex) (n : Node) (prev : Option Nat) : BlockIndex × Nat :=
  ({ ix with nodes := ix.nodes.push (n.linked ix.size prev (prev.bind ix.get?)) }, ix.size)

/-- Adds a header. A known header stays where it is. A header without a predecessor starts a tree,
and any other has to follow a known block. -/
def insert (ix : BlockIndex) (h : Header) : Except Rejection (BlockIndex × Nat) :=
  let hash := h.hash
  match ix.lookup? hash with
  | some id => .ok (ix, id)
  | none =>
    let n := Node.ofHeader h
    let n := { n with status := n.status.raise Status.validTree }
    if h.previous = .zero then .ok (ix.push n none)
    else
      match ix.lookup? h.previous with
      | none => .error (.unknownParent h.previous)
      | some prev => .ok (ix.push n (some prev))

/-- A node names a predecessor that is not known. -/
structure MissingPredecessor where
  predecessor : Digest
  hash : Digest
  deriving DecidableEq

/-- The text of the error. -/
def MissingPredecessor.message (e : MissingPredecessor) : String :=
  "block index: predecessor " ++ e.predecessor.toHex ++ " of " ++ e.hash.toHex ++ " missing"

/-- Adds a node that was stored, behind the block with the given hash. A known node stays as it
is. -/
def insertLoaded (ix : BlockIndex) (n : Node) (previous : Option Digest) :
    Except MissingPredecessor (BlockIndex × Nat) :=
  match ix.lookup? n.hash with
  | some id => .ok (ix, id)
  | none =>
    match previous with
    | none => .ok (ix.push n none)
    | some hash =>
      match ix.lookup? hash with
      | none => .error ⟨hash, n.hash⟩
      | some prev => .ok (ix.push n (some prev))

end BlockIndex

end MergedWork
