import MergedWork.BlockIndex.Ancestry

/-!
# The active chain

One path through the index, from a root to the chosen tip, as the places of its nodes in the order
of their heights. A locator lists hashes along a path at growing distances, so that a peer can find
the newest block that both know.
-/

namespace MergedWork

/-- The places of the nodes; the one of height `h` comes after `h` others. -/
structure ActiveChain where
  ids : Array Nat
  deriving DecidableEq

namespace ActiveChain

/-- The chain without blocks. -/
def empty : ActiveChain := ⟨#[]⟩

/-- The number of blocks. -/
def size (c : ActiveChain) : Nat := c.ids.size

/-- The node of the given height. -/
def at? (c : ActiveChain) (height : Nat) : Option Nat := c.ids[height]?

/-- The first node. -/
def genesis? (c : ActiveChain) : Option Nat := c.ids[0]?

/-- The last node. -/
def tip? (c : ActiveChain) : Option Nat := c.ids.back?

/-- The height of the last node. -/
def height? (c : ActiveChain) : Option Nat := if c.size = 0 then none else some (c.size - 1)

/-- Whether a node stands in the chain at its height. -/
def holds (c : ActiveChain) (n : Node) : Bool := c.at? n.height = some n.id

/-- Whether the node at a place of the index is in the chain. -/
def contains (c : ActiveChain) (ix : BlockIndex) (id : Nat) : Bool := (ix.get? id).any c.holds

/-- The node behind a node of the chain. -/
def next? (c : ActiveChain) (ix : BlockIndex) (id : Nat) : Option Nat :=
  match ix.get? id with
  | none => none
  | some n => if c.holds n then c.at? (n.height + 1) else none

/-! ## Moving the tip -/

/-- Moves the tip, and gives the node at which the new chain leaves the old one. The walk back
from the new tip stops at the first node that already stands in the chain. -/
def setTip (c : ActiveChain) (ix : BlockIndex) (tip : Option Nat) : ActiveChain × Option Nat :=
  match tip with
  | none => (empty, none)
  | some id =>
    let (fresh, fork) := ix.walkUntil c.holds (id + 1) (some id)
    let kept := (fork.map fun n => n.height + 1).getD 0
    (⟨c.ids.take kept ++ (fresh.reverse.map Node.id).toArray⟩, fork.map Node.id)

/-! ## Locators -/

/-- The place of the node of the given height on the walk from `n`, for which nodes of the chain
need no walk. -/
def ancestorOf? (c : ActiveChain) (ix : BlockIndex) (n : Node) (height : Nat) : Option Nat :=
  if c.holds n then c.at? height else (ix.ancestor? n.id height).map Node.id

/-- The entries of a locator from `start` on, of which there are at most `limit`. Behind `count`
entries, the next one is `step` heights below; from the eleventh entry on, the step doubles. -/
def locate (c : ActiveChain) (ix : BlockIndex) :
    (limit count step : Nat) → (start : Option Nat) → List Digest
  | limit + 1, count, step, some id =>
    match ix.get? id with
    | none => []
    | some n =>
      if n.height = 0 then [n.hash]
      else
        n.hash :: locate c ix limit (count + 1) (if 10 < count + 1 then 2 * step else step)
          (c.ancestorOf? ix n (n.height - step))
  | _, _, _, _ => []

/-- The locator from a node, or from the tip. Heights fall from entry to entry, so that there are
no more of them than places up to the node. -/
def locator (c : ActiveChain) (ix : BlockIndex) (start : Option Nat) : List Digest :=
  let start := start.or c.tip?
  c.locate ix ((start.map (· + 1)).getD 0) 0 1 start

/-- The node of the chain that comes first in a locator; the first node of the chain if none
does. -/
def findFork (c : ActiveChain) (ix : BlockIndex) (locator : List Digest) : Option Nat :=
  (locator.findSome? fun hash => (ix.lookup? hash).filter (c.contains ix)).or c.genesis?

end ActiveChain

end MergedWork
