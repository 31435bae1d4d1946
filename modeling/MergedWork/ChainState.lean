import MergedWork.ActiveChain
import MergedWork.HeaderCheck

/-!
# The state of a chain

The index of all known headers, the active chain in it, and the parameters of the network.
`ChainState.accept` adds a header that meets all rules, and moves the tip to it if its chain has
more work than the active one: of chains with equal work, the one seen first stays active.
-/

namespace MergedWork

structure ChainState where
  index : BlockIndex
  chain : ActiveChain
  params : Params

namespace ChainState

/-! ## Starting -/

/-- The state that knows the first block only. -/
def start (params : Params) : ChainState :=
  let index := BlockIndex.empty params.forkRule
  match index.insert params.genesis with
  | .ok (index, id) => ⟨index, (ActiveChain.empty.setTip index (some id)).1, params⟩
  | .error _ => ⟨index, .empty, params⟩

/-- The node with the most work of those that have not failed. Of several, the last. -/
def heaviest? (index : BlockIndex) : Option Node :=
  index.nodes.foldl
    (fun best n =>
      if n.status.isFailed || best.any (fun b => n.chainWork < b.chainWork) then best else some n)
    none

/-- The state of an index and the hash of its tip. If that block is not known or has failed, the
tip is the node with the most work. -/
def restore (params : Params) (index : BlockIndex) (best : Option Digest) : ChainState :=
  let stored := ((best.bind index.node?).filter fun n => !n.status.isFailed)
  let tip := (stored.or (heaviest? index)).map Node.id
  ⟨index, (ActiveChain.empty.setTip index tip).1, params⟩

/-! ## The tip -/

/-- The place of the tip. -/
def tip? (s : ChainState) : Option Nat := s.chain.tip?

/-- The node of the tip. -/
def tipNode? (s : ChainState) : Option Node := s.tip?.bind s.index.get?

/-- Moves the tip, and gives the node at which the new chain leaves the old one. -/
def setTip (s : ChainState) (id : Nat) : ChainState × Option Nat :=
  let (chain, fork) := s.chain.setTip s.index (some id)
  ({ s with chain }, fork)

/-- Whether the tip should move to a node: the node has not failed, and has more work than the
tip. -/
def improves (s : ChainState) (n : Node) : Bool :=
  !n.status.isFailed && s.tipNode?.all fun tip => tip.chainWork < n.chainWork

/-- Moves the tip to a node if that has more work. -/
def updateTip (s : ChainState) (id : Nat) : ChainState × Option Nat :=
  if (s.index.get? id).any s.improves then s.setTip id else (s, none)

/-! ## Accepting headers -/

/-- Adds a header whose work has been checked. Its parent is known and has not failed, and no
other block is known to stand at its height. -/
def connect (s : ChainState) (h : Header) : Except Rejection (ChainState × Nat) :=
  match s.index.node? h.previous with
  | none => .error (.unknownParent h.previous)
  | some parent => do
    require (!parent.status.isFailed) (.failedParent h.previous)
    s.params.checkpoints.check (parent.height + 1) h.hash
    let (index, id) ← s.index.insert h
    return (({ s with index }.updateTip id).1, id)

/-- Accepts a header with the proof that comes with it, and gives its place. A known header is
accepted without further checks. -/
def accept (s : ChainState) (e : Engine) (h : Header) (proof : Option MergeProof) :
    Asked (Except Rejection (ChainState × Nat)) :=
  match s.index.lookup? h.hash with
  | some id => pure (.ok (s, id))
  | none => do
    let work ← s.params.checkHeader e h proof
    return do
      work
      s.connect h

/-! ## Queries -/

/-- The number of blocks of the active chain after which the median is centred on a block. -/
def medianLead : Nat := BlockIndex.medianSpan / 2

/-- The block of the active chain `n` places behind a block. -/
def after? (s : ChainState) : (n id : Nat) → Option Nat
  | 0, id => some id
  | n + 1, id => (s.chain.next? s.index id).bind (after? s n)

/-- The median time around a block; its own time if too few blocks of the active chain follow. -/
def medianTime (s : ChainState) (id : Nat) : Nat :=
  match s.after? medianLead id with
  | some last => s.index.medianTimePast last
  | none => ((s.index.get? id).map fun n => n.time.toNat).getD 0

/-- The locator from the tip. -/
def locator (s : ChainState) : List Digest := s.chain.locator s.index none

/-- The newest block in common with the sender of a locator. -/
def findFork (s : ChainState) (locator : List Digest) : Option Nat :=
  s.chain.findFork s.index locator

/-- The highest checkpoint that is known. -/
def lastCheckpoint? (s : ChainState) : Option Nat :=
  s.params.checkpoints.last? s.index.lookup?

/-- The fraction of the work of verification that is done at the tip, at a time. -/
def progress (s : ChainState) (now : Int) : Float :=
  match s.tipNode? with
  | none => 0
  | some tip =>
    s.params.checkpoints.progress tip.chainTx tip.time.toNat CheckpointTable.signatureFactor now

end ChainState

end MergedWork
