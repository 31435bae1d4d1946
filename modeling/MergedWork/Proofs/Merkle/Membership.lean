import MergedWork.Proofs.Merkle.Climb

/-!
# Membership in a tree

Each leaf of a tree climbs along its branch to the root (`climb_siblings`), and all pairs on this
way are pairs of the tree. So whatever climbs from the place of a leaf to the root, along a branch
of the same length, is that leaf with its branch, or the way up and the tree have two different
pairs with one parent (`membership_sound`).
-/

namespace MergedWork.Merkle

variable {level : List Digest} {index : Nat} {a x : Digest}

/-! ## The pairs of a tree -/

/-- The pairs of a level. The last node of an odd level is paired with itself. -/
def pairs : List Digest → List (Digest × Digest)
  | [] => []
  | [last] => [(last, last)]
  | left :: right :: rest => (left, right) :: pairs rest

/-- The pairs of all levels of a tree, lowest level first. -/
def treePairs (level : List Digest) : List (Digest × Digest) :=
  if 1 < level.length then pairs level ++ treePairs (parents level) else []
termination_by level.length
decreasing_by rw [length_parents]; omega

theorem parents_eq (level : List Digest) :
    parents level = (pairs level).map fun p => hashPair p.1 p.2 := by
  fun_induction pairs level with
  | case1 => rfl
  | case2 last => rfl
  | case3 left right rest ih => rw [parents, ih, List.map_cons]

/-- The nodes of a tree are its leaves and the parents of its pairs. -/
theorem tree_eq (level : List Digest) :
    tree level = level ++ (treePairs level).map fun p => hashPair p.1 p.2 := by
  fun_induction treePairs level with
  | case1 level h ih =>
    rw [tree, if_pos h, ih, List.map_append, ← parents_eq]
  | case2 level h => rw [tree, if_neg h, List.map_nil, List.append_nil]

theorem mem_of_mem_pairs {p : Digest × Digest} (h : p ∈ pairs level) :
    p.1 ∈ level ∧ p.2 ∈ level := by
  fun_induction pairs level with
  | case1 => cases h
  | case2 last =>
    obtain rfl := List.mem_singleton.1 h
    exact ⟨List.mem_singleton_self last, List.mem_singleton_self last⟩
  | case3 left right rest ih =>
    rcases List.mem_cons.1 h with rfl | hrest
    · exact ⟨List.mem_cons_self, List.mem_cons_of_mem left List.mem_cons_self⟩
    · have hsub : rest ⊆ left :: right :: rest := by simp
      exact (ih hrest).imp (hsub ·) (hsub ·)

/-- The pairs of a tree are pairs of its nodes. -/
theorem mem_tree_of_mem_treePairs {p : Digest × Digest} (h : p ∈ treePairs level) :
    p.1 ∈ tree level ∧ p.2 ∈ tree level := by
  fun_induction treePairs level with
  | case1 level hlt ih =>
    rw [tree, if_pos hlt]
    rcases List.mem_append.1 h with hlow | hhigh
    · exact (mem_of_mem_pairs hlow).imp (List.mem_append_left _) (List.mem_append_left _)
    · exact (ih hhigh).imp (List.mem_append_right _) (List.mem_append_right _)
  | case2 level hlt => cases h

theorem siblingIndex_lt (h : index < level.length) :
    siblingIndex level.length index < level.length := by
  unfold siblingIndex
  omega

theorem siblingIndex_add_two {size : Nat} (h : index < size) :
    siblingIndex (size + 2) (index + 2) = siblingIndex size index + 2 := by
  rw [siblingIndex, siblingIndex, Nat.add_mod_right]
  split_ifs <;> omega

theorem pairAt_add_two (index : Int) (a x : Digest) :
    pairAt (index + 2) a x = pairAt index a x := by
  rw [pairAt, pairAt, Int.add_emod_right]

/-- A node and its sibling are a pair of their level. -/
theorem getElem?_pairs (ha : level[index]? = some a)
    (hx : level[siblingIndex level.length index]? = some x) :
    (pairs level)[index / 2]? = some (pairAt index a x) := by
  fun_induction pairs level generalizing index with
  | case1 => cases ha
  | case2 last =>
    match index with
    | 0 =>
      cases ha
      cases hx
      rfl
  | case3 left right rest ih =>
    match index with
    | 0 | 1 =>
      cases ha
      cases hx
      rfl
    | index + 2 =>
      rw [List.getElem?_cons_succ, List.getElem?_cons_succ] at ha
      have hlt : index < rest.length := (List.getElem?_eq_some_iff.1 ha).1
      rw [List.length_cons, List.length_cons, siblingIndex_add_two hlt] at hx
      rw [Nat.add_div_right index Nat.two_pos, List.getElem?_cons_succ, Int.natCast_add,
        Int.cast_ofNat_Int, pairAt_add_two]
      exact ih ha hx

/-! ## The way of a leaf -/

theorem root_eq_root_parents (h : 1 < level.length) : root level = root (parents level) := by
  match level, h with
  | left :: right :: rest, _ => rw [root]

/-- The root is the last node of the tree. -/
theorem getLast?_tree (hne : level ≠ []) : (tree level).getLast? = some (root level) := by
  fun_induction tree level with
  | case1 level h ih =>
    have hparents : parents level ≠ [] := by
      rw [← List.length_pos_iff, length_parents]
      omega
    rw [List.getLast?_append, ih hparents, Option.some_or, root_eq_root_parents h]
  | case2 level h =>
    have hpos := List.length_pos_iff.2 hne
    obtain ⟨top, rfl⟩ := List.length_eq_one_iff.1 (show level.length = 1 by omega)
    rw [List.getLast?_singleton, root]

/-- The lowest pair on the way from a node to the root is a pair of its level, and its parent is a
node of the level above. -/
theorem siblings_eq_cons (h : 1 < level.length) (ha : level[index]? = some a) :
    ∃ x, siblings level index = x :: siblings (parents level) (index / 2) ∧
      pairAt index a x ∈ pairs level ∧
      (parents level)[index / 2]? =
        some (hashPair (pairAt index a x).1 (pairAt index a x).2) := by
  have hsibling : siblingIndex level.length index < level.length :=
    siblingIndex_lt (List.getElem?_eq_some_iff.1 ha).1
  have hpair := getElem?_pairs ha (List.getElem?_eq_getElem hsibling)
  refine ⟨_, by rw [siblings, dif_pos h], List.mem_of_getElem? hpair, ?_⟩
  rw [parents_eq, List.getElem?_map, hpair, Option.map_some]

/-- A node of a level climbs along its siblings to the root. -/
theorem climb_siblings (ha : level[index]? = some a) :
    climb .sha256d (siblings level index) index a = root level := by
  fun_induction treePairs level generalizing index a with
  | case1 level h ih =>
    obtain ⟨x, hsiblings, -, hparent⟩ := siblings_eq_cons h ha
    rw [hsiblings, climb_cons, root_eq_root_parents h]
    exact ih hparent
  | case2 level h =>
    have hlt := (List.getElem?_eq_some_iff.1 ha).1
    obtain ⟨top, rfl⟩ := List.length_eq_one_iff.1 (show level.length = 1 by omega)
    obtain rfl : index = 0 := by simpa using hlt
    cases ha
    rw [siblings, dif_neg h, climb, root]

/-- On this way, only pairs of the tree are hashed. -/
theorem steps_siblings_subset (ha : level[index]? = some a) :
    steps .sha256d (siblings level index) index a ⊆ treePairs level := by
  fun_induction treePairs level generalizing index a with
  | case1 level h ih =>
    obtain ⟨x, hsiblings, hpair, hparent⟩ := siblings_eq_cons h ha
    rw [hsiblings, steps_cons]
    exact List.cons_subset.2 ⟨List.mem_append_left _ hpair,
      fun p hp => List.mem_append_right _ (ih hparent hp)⟩
  | case2 level h =>
    rw [siblings, dif_neg h, steps]
    exact List.nil_subset _

/-! ## Membership -/

/-- Whatever climbs to the root from the place of a leaf, along a branch as long as that of the
leaf, is the leaf, and the branch is its own; or some pair that is hashed on the way and some other
pair of the tree have the same parent. The pairs of the tree are pairs of its nodes, and their
parents are the nodes above the leaves. -/
theorem membership_sound (leaves : List Digest) {i : Nat} (hi : i < leaves.length) (x : Digest)
    {xs : List Digest} (hlen : xs.length = (branch leaves i).length)
    (hroot : foldBranch .sha256d x xs i = root leaves) :
    ((leaves[i]? = some x ∧ xs = branch leaves i) ∨
        Collision .sha256d (steps .sha256d xs i x) (treePairs leaves)) ∧
      (∀ p ∈ treePairs leaves, p.1 ∈ tree leaves ∧ p.2 ∈ tree leaves) ∧
      tree leaves = leaves ++ (treePairs leaves).map fun p => hashPair p.1 p.2 := by
  have ha : leaves[i]? = some leaves[i] := List.getElem?_eq_getElem hi
  refine ⟨?_, fun _ => mem_tree_of_mem_treePairs, tree_eq leaves⟩
  rw [branch, if_pos hi] at hlen ⊢
  rw [foldBranch_eq_climb (by omega), ← climb_siblings ha] at hroot
  rcases climb_eq_cases hlen hroot with ⟨rfl, rfl⟩ | hcollision
  · exact Or.inl ⟨ha, rfl⟩
  · exact Or.inr (hcollision.mono (steps_siblings_subset ha))

/-- The last of three leaves stands beside itself, and the tree has three pairs. -/
theorem membership_sound_three :
    let leaves : List Digest := [.ofNat 1, .ofNat 2, .ofNat 3]
    let xs : List Digest := [.ofNat 3, hashPair (.ofNat 1) (.ofNat 2)]
    2 < leaves.length ∧ xs.length = (branch leaves 2).length ∧
      foldBranch .sha256d (.ofNat 3) xs 2 = root leaves ∧ (treePairs leaves).length = 3 ∧
      ((leaves[2]? = some (.ofNat 3) ∧ xs = branch leaves 2) ∨
        Collision .sha256d (steps .sha256d xs 2 (.ofNat 3)) (treePairs leaves)) ∧
      (∀ p ∈ treePairs leaves, p.1 ∈ tree leaves ∧ p.2 ∈ tree leaves) ∧
      tree leaves = leaves ++ (treePairs leaves).map fun p => hashPair p.1 p.2 := by
  intro leaves xs
  have hlen : xs.length = (branch leaves 2).length := by decide +kernel
  have hroot : foldBranch .sha256d (.ofNat 3) xs 2 = root leaves := by decide +kernel
  have hpairs : (treePairs leaves).length = 3 := by decide +kernel
  exact ⟨by decide, hlen, hroot, hpairs,
    membership_sound leaves (by decide) (.ofNat 3) hlen hroot⟩

end MergedWork.Merkle
