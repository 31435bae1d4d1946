import MergedWork.Merkle
import Mathlib.Tactic.Common

/-!
# Two ways to one root

`steps` lists the pairs of nodes that are hashed on the way up a branch. Two branches of one
length that lead to the same root from the same place are the same branch from the same node, or
two different pairs on the two ways have the same parent (`climb_eq_cases`). No assumption on the
hash function is made: in the second case the two pairs are at hand.
-/

namespace MergedWork.Merkle

variable {pair : PairHash} {index : Int} {a b x y : Digest} {xs ys : List Digest}

/-- A node and its sibling, from left to right. -/
def pairAt (index : Int) (node sibling : Digest) : Digest × Digest :=
  if index % 2 = 1 then (sibling, node) else (node, sibling)

/-- The pairs that are hashed on the way from a node along its siblings. -/
def steps (pair : PairHash) :
    (siblings : List Digest) → (index : Int) → (node : Digest) → List (Digest × Digest)
  | [], _, _ => []
  | sibling :: rest, index, node =>
    let nodes := pairAt index node sibling
    nodes :: steps pair rest (index / 2) (pair.combine nodes.1 nodes.2)

/-- Some pair of the one list and some other pair of the other list have the same parent. -/
def Collision (pair : PairHash) (xs ys : List (Digest × Digest)) : Prop :=
  ∃ x ∈ xs, ∃ y ∈ ys, x ≠ y ∧ pair.combine x.1 x.2 = pair.combine y.1 y.2

theorem Collision.cons {xs ys : List (Digest × Digest)} (h : Collision pair xs ys)
    (x y : Digest × Digest) : Collision pair (x :: xs) (y :: ys) := by
  obtain ⟨x', hx, y', hy, hne, heq⟩ := h
  exact ⟨x', List.mem_cons_of_mem x hx, y', List.mem_cons_of_mem y hy, hne, heq⟩

theorem Collision.mono {xs ys ys' : List (Digest × Digest)} (h : Collision pair xs ys)
    (hsub : ys ⊆ ys') : Collision pair xs ys' := by
  obtain ⟨x, hx, y, hy, hne, heq⟩ := h
  exact ⟨x, hx, y, hsub hy, hne, heq⟩

theorem pairAt_inj (h : pairAt index a x = pairAt index b y) : a = b ∧ x = y := by
  unfold pairAt at h
  split_ifs at h
  · exact ⟨congrArg Prod.snd h, congrArg Prod.fst h⟩
  · exact ⟨congrArg Prod.fst h, congrArg Prod.snd h⟩

theorem climb_cons :
    climb pair (x :: xs) index a =
      climb pair xs (index / 2)
        (pair.combine (pairAt index a x).1 (pairAt index a x).2) := by
  rw [climb, pairAt]
  split_ifs <;> rfl

theorem steps_cons :
    steps pair (x :: xs) index a =
      pairAt index a x ::
        steps pair xs (index / 2)
          (pair.combine (pairAt index a x).1 (pairAt index a x).2) := rfl

/-- Branches of one length that lead from one place to one root are equal, and so are the nodes
that they start from, or the two ways have a collision. -/
theorem climb_eq_cases (hlen : xs.length = ys.length)
    (hroot : climb pair xs index a = climb pair ys index b) :
    (a = b ∧ xs = ys) ∨ Collision pair (steps pair xs index a) (steps pair ys index b) := by
  induction xs generalizing ys index a b with
  | nil =>
    obtain rfl := List.length_eq_zero_iff.1 hlen.symm
    exact Or.inl ⟨hroot, rfl⟩
  | cons x xs ih =>
    obtain ⟨y, ys, rfl⟩ := List.exists_cons_of_length_eq_add_one hlen.symm
    rw [climb_cons, climb_cons] at hroot
    rw [steps_cons, steps_cons]
    rcases ih (Nat.succ.inj hlen) hroot with ⟨hparent, rfl⟩ | hcollision
    · by_cases hpair : pairAt index a x = pairAt index b y
      · obtain ⟨rfl, rfl⟩ := pairAt_inj hpair
        exact Or.inl ⟨rfl, rfl⟩
      · exact Or.inr ⟨_, List.mem_cons_self, _, List.mem_cons_self, hpair, hparent⟩
    · exact Or.inr (hcollision.cons _ _)

theorem foldBranch_eq_climb (h : index ≠ -1) :
    foldBranch pair a xs index = climb pair xs index a :=
  if_neg h

end MergedWork.Merkle
