import MergedWork.Proofs.Merkle.Membership
import Mathlib.Data.Nat.Bitwise

/-!
# The tree as one list

A tree can be kept as one list, to which each level pushes the parents of its nodes. Where a level
starts is the sum of the sizes of the levels below it, and a branch is read off the list at these
offsets. No read is out of range, and the list and the branch come out as `tree` and `branch` say
(`flatTree?_eq`, `flatBranch?_eq`). `IsRoot` says what the root is, level by level, and each leaf
climbs there along its branch (`branch_reaches_root`).
-/

namespace MergedWork.Merkle

variable {leaves level above before : List Digest} {index start size i : Nat} {r : Digest}

/-! ## Offsets -/

/-- Pushes the parents of the next `todo` pairs of a level, which has `size` nodes from `start` on.
The next pair starts with node `i` of the level. -/
def pushParents? (start size : Nat) :
    (todo i : Nat) → (nodes : List Digest) → Option (List Digest)
  | 0, _, nodes => some nodes
  | todo + 1, i, nodes =>
    match nodes[start + i]?, nodes[start + min (i + 1) (size - 1)]? with
    | some left, some right =>
      pushParents? start size todo (i + 2) (nodes ++ [hashPair left right])
    | _, _ => none

/-- Pushes all levels above the one of `size` nodes from `start` on. -/
def pushLevels? (start size : Nat) (nodes : List Digest) : Option (List Digest) :=
  if 1 < size then
    (pushParents? start size ((size + 1) / 2) 0 nodes).bind
      (pushLevels? (start + size) ((size + 1) / 2))
  else some nodes
termination_by size
decreasing_by omega

/-- The nodes of a tree, leaves first and root last. There is no result if a read is out of
range. -/
def flatTree? (leaves : List Digest) : Option (List Digest) := pushLevels? 0 leaves.length leaves

/-- Reads the siblings on the way up from node `index` of the level of `size` nodes from `start`
on. -/
def readSiblings? (nodes : List Digest) (start size index : Nat) : Option (List Digest) :=
  if 1 < size then
    match nodes[start + min (index ^^^ 1) (size - 1)]? with
    | some sibling =>
      (readSiblings? nodes (start + size) ((size + 1) / 2) (index >>> 1)).map (sibling :: ·)
    | none => none
  else some []
termination_by size
decreasing_by omega

/-- The branch of a leaf, read off the nodes of the tree; empty if there is no such leaf. -/
def flatBranch? (leaves : List Digest) (index : Nat) : Option (List Digest) :=
  if index < leaves.length then
    (flatTree? leaves).bind fun nodes => readSiblings? nodes 0 leaves.length index
  else some []

/-! ## Pushing levels -/

/-- The nodes that are left of a level are read in pairs, and their parents are pushed in order. -/
theorem pushParents?_eq {nodes rest : List Digest}
    (hread : ∀ k < rest.length, nodes[start + (i + k)]? = rest[k]?) (hsize : i + rest.length = size) :
    pushParents? start size ((rest.length + 1) / 2) i nodes = some (nodes ++ parents rest) := by
  fun_induction parents rest generalizing i nodes with
  | case1 => simp [pushParents?]
  | case2 last =>
    have hlast : nodes[start + i]? = some last := hread 0 Nat.one_pos
    have hbeside : min (i + 1) (size - 1) = i := by simp at hsize; omega
    simp [pushParents?, hbeside, hlast]
  | case3 left right rest ih =>
    have hleft : nodes[start + i]? = some left := hread 0 (by simp)
    have hright : nodes[start + (i + 1)]? = some right := hread 1 (by simp)
    simp only [List.length_cons] at hread hsize
    have hbeside : min (i + 1) (size - 1) = i + 1 := by omega
    have htodo : (rest.length + 1 + 1 + 1) / 2 = (rest.length + 1) / 2 + 1 := by omega
    have hlater : ∀ k < rest.length,
        (nodes ++ [hashPair left right])[start + (i + 2 + k)]? = rest[k]? := by
      intro k hk
      have hold := hread (k + 2) (by omega)
      have hlt : start + (i + (k + 2)) < nodes.length := by
        rw [List.getElem?_cons_succ, List.getElem?_cons_succ, List.getElem?_eq_getElem hk] at hold
        exact (List.getElem?_eq_some_iff.1 hold).1
      rw [show i + 2 + k = i + (k + 2) by omega, List.getElem?_append_left hlt, hold]
      rfl
    rw [List.length_cons, List.length_cons, htodo, pushParents?, hbeside, hleft, hright]
    simp only [ih hlater (by omega), List.append_assoc, List.singleton_append]

theorem pushLevels?_eq (before level : List Digest) :
    pushLevels? before.length level.length (before ++ level) = some (before ++ tree level) := by
  fun_induction tree level generalizing before with
  | case1 level h ih =>
    have hread : ∀ k < level.length, (before ++ level)[before.length + (0 + k)]? = level[k]? := by
      intro k _
      rw [Nat.zero_add, List.getElem?_append_right (Nat.le_add_right _ _), Nat.add_sub_cancel_left]
    have hlength := length_parents level
    rw [pushLevels?, if_pos h, pushParents?_eq hread (Nat.zero_add _), Option.bind_some, ← hlength,
      ← List.length_append, ih, List.append_assoc]
  | case2 level h => rw [pushLevels?, if_neg h]

/-- No read is out of range while the levels are pushed, and what comes out is the tree. -/
theorem flatTree?_eq (leaves : List Digest) : flatTree? leaves = some (tree leaves) :=
  pushLevels?_eq [] leaves

/-! ## Reading branches -/

theorem siblingIndex_eq_xor (size index : Nat) :
    siblingIndex size index = min (index ^^^ 1) (size - 1) := by
  rw [siblingIndex]
  congr 1
  split_ifs with h
  · exact (Nat.xor_one_of_even (Nat.even_iff.2 h)).symm
  · exact (Nat.xor_one_of_odd (Nat.odd_iff.2 (Nat.mod_two_ne_zero.1 h))).symm

/-- The siblings of a node are found at the offsets of their levels. -/
theorem readSiblings?_eq (before : List Digest) (h : index < level.length) :
    readSiblings? (before ++ tree level) before.length level.length index =
      some (siblings level index) := by
  fun_induction tree level generalizing before index with
  | case1 level hlt ih =>
    have hsibling := siblingIndex_lt h
    have hread : (before ++ (level ++ tree (parents level)))[before.length +
        siblingIndex level.length index]? = some level[siblingIndex level.length index] := by
      rw [List.getElem?_append_right (Nat.le_add_right _ _), Nat.add_sub_cancel_left,
        List.getElem?_append_left hsibling, List.getElem?_eq_getElem hsibling]
    have hparent : index / 2 < (parents level).length := by
      rw [length_parents]
      omega
    have hlater := ih (before ++ level) hparent
    rw [List.append_assoc, List.length_append, length_parents] at hlater
    rw [readSiblings?, if_pos hlt, ← siblingIndex_eq_xor, hread, Nat.shiftRight_one, siblings,
      dif_pos hlt]
    simp only [hlater, Option.map_some]
  | case2 level hlt => rw [readSiblings?, if_neg hlt, siblings, dif_neg hlt]

/-- No read is out of range, and what comes out is the branch. -/
theorem flatBranch?_eq (leaves : List Digest) (index : Nat) :
    flatBranch? leaves index = some (branch leaves index) := by
  rw [flatBranch?, branch, flatTree?_eq, Option.bind_some]
  split_ifs with h
  · exact readSiblings?_eq [] h
  · rfl

/-! ## The root, level by level -/

/-- The nodes of the one level are paired from left to right, and the last one with itself if it is
left over. The other level has the parents of the pairs. -/
def PairedInto (level above : List Digest) : Prop :=
  above.length = (level.length + 1) / 2 ∧
    ∀ j left, level[2 * j]? = some left →
      above[j]? = some (hashPair left (level[2 * j + 1]?.getD left))

/-- Level by level, all nodes of the lowest one come together in the root. -/
inductive IsRoot : List Digest → Digest → Prop
  | single (top : Digest) : IsRoot [top] top
  | above {level above : List Digest} {r : Digest} (h : 1 < level.length)
      (hpairs : PairedInto level above) (hroot : IsRoot above r) : IsRoot level r

theorem pairedInto_parents (level : List Digest) : PairedInto level (parents level) := by
  refine ⟨length_parents level, fun j left hleft => ?_⟩
  have hlt := (List.getElem?_eq_some_iff.1 hleft).1
  have hright : level[siblingIndex level.length (2 * j)]? = some (level[2 * j + 1]?.getD left) := by
    rw [siblingIndex, if_pos (Nat.mul_mod_right 2 j)]
    by_cases hnext : 2 * j + 1 < level.length
    · rw [Nat.min_eq_left (by omega), List.getElem?_eq_getElem hnext, Option.getD_some]
    · have hnone : level[2 * j + 1]? = none := List.getElem?_eq_none (by omega)
      rw [Nat.min_eq_right (by omega), show level.length - 1 = 2 * j by omega, hleft, hnone,
        Option.getD_none]
  have hpair := getElem?_pairs hleft hright
  have heven : ((2 * j : Nat) : Int) % 2 ≠ 1 := by omega
  rw [Nat.mul_div_cancel_left j Nat.two_pos, pairAt, if_neg heven] at hpair
  rw [parents_eq, List.getElem?_map, hpair, Option.map_some]

theorem PairedInto.eq_parents (h : PairedInto level above) : above = parents level := by
  obtain ⟨hlength, hpairs⟩ := h
  obtain ⟨hlength', hpairs'⟩ := pairedInto_parents level
  refine List.ext_getElem? fun j => ?_
  by_cases hj : 2 * j < level.length
  · have hleft := List.getElem?_eq_getElem hj
    rw [hpairs j _ hleft, hpairs' j _ hleft]
  · rw [List.getElem?_eq_none (by omega), List.getElem?_eq_none (by omega)]

theorem isRoot_root (hne : level ≠ []) : IsRoot level (root level) := by
  fun_induction root level with
  | case1 => exact absurd rfl hne
  | case2 top => exact .single top
  | case3 left right rest ih =>
    exact .above (by simp) (pairedInto_parents _) (ih (by simp [parents]))

theorem IsRoot.eq_root (h : IsRoot level r) : r = root level := by
  induction h with
  | single top => rw [root]
  | above hlt hpairs _ ih => rw [ih, hpairs.eq_parents, root_eq_root_parents hlt]

theorem isRoot_iff (hne : level ≠ []) : IsRoot level r ↔ r = root level :=
  ⟨IsRoot.eq_root, fun h => h ▸ isRoot_root hne⟩

/-! ## Reaching the root -/

/-- Each leaf climbs along its branch to the root, which its tree comes to level by level. The tree
is the list to which the levels are pushed, and the branch is read off it at the offsets of the
levels, without a read out of range. -/
theorem branch_reaches_root (leaves : List Digest) {i : Nat} (hi : i < leaves.length) :
    foldBranch .sha256d leaves[i] (branch leaves i) i = root leaves ∧
      (∀ r, IsRoot leaves r ↔ r = root leaves) ∧
      flatTree? leaves = some (tree leaves) ∧ (tree leaves).getLast? = some (root leaves) ∧
      flatBranch? leaves i = some (branch leaves i) := by
  have hne : leaves ≠ [] := List.length_pos_iff.1 (Nat.zero_lt_of_lt hi)
  have hclimb : foldBranch .sha256d leaves[i] (branch leaves i) i = root leaves := by
    rw [foldBranch_eq_climb (by omega), branch, if_pos hi]
    exact climb_siblings (List.getElem?_eq_getElem hi)
  exact ⟨hclimb, fun _ => isRoot_iff hne, flatTree?_eq leaves, getLast?_tree hne,
    flatBranch?_eq leaves i⟩

/-- The last of five leaves stands beside itself, and so does its parent. -/
theorem branch_reaches_root_five :
    let leaves : List Digest := [.ofNat 1, .ofNat 2, .ofNat 3, .ofNat 4, .ofNat 5]
    let beside := hashPair (.ofNat 5) (.ofNat 5)
    4 < leaves.length ∧ (tree leaves).length = 11 ∧
      branch leaves 4 = [.ofNat 5, beside, root (leaves.take 4)] ∧
      foldBranch .sha256d (.ofNat 5) (branch leaves 4) 4 = root leaves := by
  intro leaves beside
  obtain ⟨hclimb, -⟩ := branch_reaches_root leaves (show 4 < leaves.length by decide)
  exact ⟨by decide, by decide +kernel, by decide +kernel, hclimb⟩

end MergedWork.Merkle
