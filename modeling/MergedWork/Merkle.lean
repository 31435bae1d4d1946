import MergedWork.Digest.Sha256
import MergedWork.Digest.Keccak

/-!
# Merkle trees

A tree is built level by level, and the last node of an odd level is paired with itself. A branch
holds the siblings on the way from a leaf to the root, and `climb` follows it upwards: the bits of
the leaf's index, lowest first, say on which side the running hash stands.
-/

namespace MergedWork

/-- How two nodes are hashed into their parent. -/
inductive PairHash
  | sha256d
  | keccak
  deriving DecidableEq, Repr

/-- The parent of two nodes. -/
def PairHash.combine (left right : Digest) : PairHash → Digest
  | sha256d => MergedWork.sha256d (left.bytes ++ right.bytes)
  | keccak => keccak256 (left.bytes ++ right.bytes)

/-- The parent of two nodes under SHA-256d. -/
def hashPair (left right : Digest) : Digest := PairHash.sha256d.combine left right

namespace Merkle

/-! ## Trees -/

/-- The level above. -/
def parents : List Digest → List Digest
  | [] => []
  | [last] => [hashPair last last]
  | left :: right :: rest => hashPair left right :: parents rest

@[simp] theorem length_parents (level : List Digest) :
    (parents level).length = (level.length + 1) / 2 := by
  fun_induction parents level with
  | case1 => rfl
  | case2 => simp
  | case3 left right rest ih => simp only [List.length_cons, ih]; omega

/-- All levels of the tree one after the other, from the given one to the root. -/
def tree (level : List Digest) : List Digest :=
  if 1 < level.length then level ++ tree (parents level) else level
termination_by level.length
decreasing_by rw [length_parents]; omega

/-- The root of a tree; the zero digest if it has no leaves. -/
def root : List Digest → Digest
  | [] => .zero
  | [top] => top
  | left :: right :: rest => root (parents (left :: right :: rest))
termination_by level => level.length
decreasing_by simp only [length_parents, List.length_cons]; omega

/-! ## Branches -/

/-- The place beside `index` in a level of `size` nodes. The last node of an odd level stands
beside itself. -/
def siblingIndex (size index : Nat) : Nat :=
  min (if index % 2 = 0 then index + 1 else index - 1) (size - 1)

/-- The siblings on the way from a place in the given level to the root. -/
def siblings (level : List Digest) (index : Nat) : List Digest :=
  if _h : 1 < level.length then
    have _bound : siblingIndex level.length index < level.length := by
      unfold siblingIndex; omega
    level[siblingIndex level.length index] :: siblings (parents level) (index / 2)
  else []
termination_by level.length
decreasing_by rw [length_parents]; omega

/-- The branch of a leaf; empty if there is no such leaf. -/
def branch (leaves : List Digest) (index : Nat) : List Digest :=
  if index < leaves.length then siblings leaves index else []

/-- The top of the way from a node along its siblings. -/
def climb (pair : PairHash) : (siblings : List Digest) → (index : Int) → (node : Digest) → Digest
  | [], _, node => node
  | sibling :: rest, index, node =>
    climb pair rest (index / 2)
      (if index % 2 = 1 then pair.combine sibling node else pair.combine node sibling)

/-- The root that a leaf and its branch lead to. The index `-1` marks a branch that was never
filled in, and leads to the zero digest. -/
def foldBranch (pair : PairHash) (leaf : Digest) (branch : List Digest) (index : Int) : Digest :=
  if index = -1 then .zero else climb pair branch index leaf

end Merkle

end MergedWork
