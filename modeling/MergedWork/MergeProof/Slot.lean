/-!
# Slots in the chain tree

Each chain has one slot in the tree of merge-mined blocks, fixed by the nonce in the coinbase and
the height of the tree, so that the same work cannot prove two blocks of one chain.
-/

namespace MergedWork.Slot

/-- One step of the generator, modulo `2 ^ 32`. -/
def step (r : UInt32) : UInt32 := r * 1103515245 + 12345

/-- The slot of a chain in a tree of the given height. -/
def expected (nonce chainId : UInt32) (height : Nat) : UInt32 :=
  let r := step (step nonce + chainId)
  if 32 ≤ height then r else r % UInt32.ofNat (1 <<< height)

end MergedWork.Slot
