import MergedWork.Rejection

/-!
# Checkpoints

A table of blocks that are known to stand at their heights, and what is known of the number of
transactions up to the last of them, from which the progress of verification is estimated.
-/

namespace MergedWork

/-- A block that is known to stand at its height. -/
structure Checkpoint where
  height : Nat
  hash : Digest
  deriving DecidableEq

/-- The table, in ascending order of height, with one entry for each height. -/
structure CheckpointTable where
  entries : List Checkpoint
  /-- The time of the last checkpoint, in seconds. -/
  time : Int
  /-- The number of transactions up to the last checkpoint. -/
  transactions : Nat
  /-- The number of transactions expected on each day after it. -/
  perDay : Float
  /-- Whether the table is in use. -/
  enabled : Bool

namespace CheckpointTable

/-! ## Building a table -/

/-- Of neighbours of one height, keeps the last. -/
def keepLast : List Checkpoint → List Checkpoint
  | a :: b :: rest => if a.height = b.height then keepLast (b :: rest) else a :: keepLast (b :: rest)
  | entries => entries

/-- The table of the given entries in any order. Of entries of one height, the last counts. -/
def ofList (entries : List Checkpoint) (time : Int) (transactions : Nat) (perDay : Float) :
    CheckpointTable where
  entries := keepLast (entries.mergeSort fun a b => a.height ≤ b.height)
  time := time
  transactions := transactions
  perDay := perDay
  enabled := true

/-! ## Looking up blocks -/

/-- The block that is known to stand at a height. -/
def get? (t : CheckpointTable) (height : Nat) : Option Digest :=
  (t.entries.find? fun c => c.height = height).map Checkpoint.hash

/-- Whether a block may stand at a height. -/
def allows (t : CheckpointTable) (height : Nat) (hash : Digest) : Bool :=
  !t.enabled ||
    match t.get? height with
    | none => true
    | some known => known = hash

/-- Refuses a block where another is known to stand. -/
def check (t : CheckpointTable) (height : Nat) (hash : Digest) : Except Rejection Unit :=
  require (t.allows height hash) (.checkpointMismatch height)

/-- The height of the last checkpoint. -/
def lastHeight (t : CheckpointTable) : Nat :=
  if t.enabled then (t.entries.getLast?.map Checkpoint.height).getD 0 else 0

/-- What `lookup` finds for the highest checkpoint that it knows. -/
def last? {α : Type} (t : CheckpointTable) (lookup : Digest → Option α) : Option α :=
  if t.enabled then t.entries.reverse.findSome? fun c => lookup c.hash else none

/-! ## Progress -/

/-- How much more work a transaction is after the last checkpoint than before it. -/
def signatureFactor : Float := 5

/-- The fraction of the work of verification that is done at a block with the given number of
transactions up to it and the given time. Each transaction after the last checkpoint counts
`factor`, and those to come are extrapolated up to the time `now`. -/
def progress (t : CheckpointTable) (chainTx : Nat) (time : Int) (factor : Float) (now : Int) :
    Float :=
  let done := Float.ofNat chainTx
  let known := Float.ofNat t.transactions
  let expected (since : Int) : Float := Float.ofInt (now - since) / 86400 * t.perDay
  let (before, after) :=
    if chainTx ≤ t.transactions then (done, known - done + expected t.time * factor)
    else (known + (done - known) * factor, expected time * factor)
  let total := before + after
  if total ≤ 0 then 1 else before / total

end CheckpointTable

end MergedWork
