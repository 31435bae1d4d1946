import MergedWork.ChainState
import MergedWork.BlockIndex.Progress

/-!
# Stored chains

An archive holds the nodes of an index by hash, each with the hash of its parent, and the hash of
the tip. Places in the index are not kept over a load: nodes are read in ascending order of their
hashes, put in order of their heights, and placed anew behind their parents.
-/

namespace MergedWork

/-- A stored node. -/
structure Record where
  node : Node
  /-- The hash of the block before it. -/
  previous : Option Digest
  deriving DecidableEq

/-- The records stand in ascending order of the bytes of their hashes, one for each hash. -/
structure Archive where
  records : List Record
  bestTip : Option Digest
  deriving DecidableEq

/-- Why an archive cannot be loaded. -/
inductive ArchiveError
  /-- The parent of a stored node is not stored. -/
  | notStored (predecessor hash : Digest)
  /-- A node found no place in the index. -/
  | unplaced (cause : BlockIndex.MissingPredecessor)
  deriving DecidableEq

/-- The text of the error. -/
def ArchiveError.message : ArchiveError → String
  | notStored predecessor hash =>
    "corrupt index: predecessor " ++ predecessor.toHex ++ " of " ++ hash.toHex ++ " not stored"
  | unplaced cause => cause.message

namespace Archive

/-- The archive without records. -/
def empty : Archive := ⟨[], none⟩

/-! ## Saving -/

/-- Puts a record in its place, instead of one with the same hash. -/
def put (r : Record) : List Record → List Record
  | [] => [r]
  | first :: rest =>
    if first.node.hash = r.node.hash then r :: rest
    else if r.node.hash.bytes < first.node.hash.bytes then r :: first :: rest
    else first :: put r rest

/-- The record of a node. -/
def record (ix : BlockIndex) (n : Node) : Record := ⟨n, (n.prev.bind ix.get?).map Node.hash⟩

/-- Stores one node. -/
def saveNode (a : Archive) (ix : BlockIndex) (n : Node) : Archive :=
  { a with records := put (record ix n) a.records }

/-- Stores all nodes. -/
def saveIndex (a : Archive) (ix : BlockIndex) : Archive :=
  ix.nodes.foldl (fun a n => a.saveNode ix n) a

/-- Stores the hash of the tip. -/
def setBestTip (a : Archive) (hash : Digest) : Archive := { a with bestTip := some hash }

/-- Stores a state: all nodes, and the tip if there is one. -/
def saveState (a : Archive) (s : ChainState) : Archive :=
  let a := a.saveIndex s.index
  match s.tipNode? with
  | none => a
  | some tip => a.setBestTip tip.hash

/-! ## Loading -/

/-- The record of the block with the given hash. -/
def get? (a : Archive) (hash : Digest) : Option Record :=
  a.records.find? fun r => r.node.hash = hash

/-- Places one record in an index. -/
def place (ix : BlockIndex) (r : Record) : Except ArchiveError BlockIndex := do
  match r.previous with
  | none => pure ()
  | some p => if ix.contains p then pure () else throw (.notStored p r.node.hash)
  match ix.insertLoaded r.node r.previous with
  | .ok (ix, _) => return ix
  | .error cause => throw (.unplaced cause)

/-- Builds the index of all stored nodes, parents first. -/
def loadIndex (a : Archive) (rule : ForkRule) : Except ArchiveError BlockIndex :=
  (a.records.mergeSort fun r q => r.node.height ≤ q.node.height).foldlM place (.empty rule)

/-- Builds the stored state; if nothing is stored, the state that knows the first block only. -/
def loadState (a : Archive) (params : Params) : Except ArchiveError ChainState := do
  let index ← a.loadIndex params.forkRule
  return if index.size = 0 then .start params else .restore params index a.bestTip

end Archive

end MergedWork
