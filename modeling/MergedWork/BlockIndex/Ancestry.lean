import MergedWork.BlockIndex

/-!
# Walks back through the index

A walk goes from a node to its parent, and so on to a root. The fork rule, the median time and the
average work look at the last nodes of such a walk.
-/

namespace MergedWork.BlockIndex

/-! ## Walks -/

/-- The nodes of a walk, newest first, before the first that meets `stop`, and that node. A walk
has at most `limit` nodes. -/
def walkUntil (ix : BlockIndex) (stop : Node → Bool) :
    (limit : Nat) → (start : Option Nat) → List Node × Option Node
  | limit + 1, some id =>
    match ix.get? id with
    | none => ([], none)
    | some n =>
      if stop n then ([], some n)
      else
        let (passed, stopped) := walkUntil ix stop limit n.prev
        (n :: passed, stopped)
  | _, _ => ([], none)

/-- At most `limit` nodes of the walk from `start`, newest first. -/
def recent (ix : BlockIndex) (limit : Nat) (start : Option Nat) : List Node :=
  (ix.walkUntil (fun _ => false) limit start).1

/-- A node and all before it, newest first. A parent stands before its children in the index, so
that there are no more of them than places up to `id`. -/
def ancestors (ix : BlockIndex) (id : Nat) : List Node := ix.recent (id + 1) (some id)

/-- The node of the given height on the walk from `id`. -/
def ancestor? (ix : BlockIndex) (id height : Nat) : Option Node :=
  (ix.walkUntil (fun n => n.height = height) (id + 1) (some id)).2

/-- The first node that two walks have in common, going back in step of height. -/
def meet? : List Node → List Node → Option Node
  | [], _ => none
  | _, [] => none
  | x :: xs, y :: ys =>
    if x.id = y.id then some x
    else if x.height < y.height then meet? (x :: xs) ys
    else if y.height < x.height then meet? xs (y :: ys)
    else meet? xs ys
termination_by xs ys => xs.length + ys.length

/-- The newest block that two blocks both descend from. -/
def lastCommon? (ix : BlockIndex) (a b : Nat) : Option Node :=
  meet? (ix.ancestors a) (ix.ancestors b)

/-! ## The fork -/

/-- Whether at least `required` of the first `window` members have a property. Counting ends as
soon as there are enough of them. -/
def hasAtLeast (property : Node → Bool) : (required window : Nat) → List Node → Bool
  | 0, _, _ => true
  | _ + 1, 0, _ => false
  | _ + 1, _ + 1, [] => false
  | required + 1, window + 1, n :: rest =>
    if property n then hasAtLeast property required window rest
    else hasAtLeast property (required + 1) window rest

/-- Whether at least `required` of the last `window` blocks up to `start` have a base version of
`minVersion` or later. -/
def superMajority (ix : BlockIndex) (minVersion : Nat) (start : Option Nat)
    (required window : Nat) : Bool :=
  hasAtLeast (fun n => minVersion ≤ n.version.base.toNat) required window (ix.recent window start)

/-- Whether a block is past the fork. -/
def onFork (ix : BlockIndex) (n : Node) : Bool :=
  let rule := ix.rule
  rule.height ≤ n.height && ix.superMajority rule.minVersion n.prev rule.required rule.window

/-! ## Median time -/

/-- The number of blocks of which the median is taken. -/
def medianSpan : Nat := 11

/-- The nodes that the median looks at. Behind a node past the fork, the first node before the
fork is the last. -/
def regime (ix : BlockIndex) (seen : Bool) : List Node → List Node
  | [] => []
  | n :: rest =>
    let past := ix.onFork n
    if seen && !past then [n] else n :: regime ix (seen || past) rest

/-- The upper median of a list of times. -/
def upperMedian (times : List Nat) : Nat :=
  (times.mergeSort fun a b => a ≤ b).getD (times.length / 2) 0

/-- The median time of the last blocks up to `id`. -/
def medianTimePast (ix : BlockIndex) (id : Nat) : Nat :=
  upperMedian ((ix.regime false (ix.recent medianSpan (some id))).map fun n => n.time.toNat)

/-! ## Average work -/

/-- The number of blocks of which the average is taken. -/
def averageSpan : Nat := 50

/-- The average work of the last blocks up to `id`. -/
def averageWork (ix : BlockIndex) (id : Nat) : Nat :=
  let works := (ix.recent averageSpan (some id)).map fun n => n.work
  works.foldl addWork 0 / works.length

end MergedWork.BlockIndex
