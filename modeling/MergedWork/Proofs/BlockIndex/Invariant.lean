import MergedWork.Proofs.BlockIndex.Table
import Mathlib.Algebra.GroupWithZero.Nat

/-!
# What every index keeps

Whatever operations an index has seen, and whatever the nodes carried that were loaded into it, its
nodes form a tree in which all that a node says of its place is true: there is one node for each
hash, the walk back from it ends at a root after as many steps as its height, and the work of its
chain is the sum of the work on that walk, as far as 256 bits hold it (`tree_of_run`).
-/

namespace MergedWork

/-! ## Work -/

theorem Compact.work_le (c : Compact) (weight : Nat) : c.work weight ≤ maxWord := by
  unfold Compact.work
  cases c.target? with
  | none => exact Nat.zero_le maxWord
  | some target =>
    dsimp only
    split_ifs
    · exact Nat.zero_le maxWord
    · exact Nat.min_le_left _ _

theorem HeaderFields.work_le (h : HeaderFields) : h.work ≤ maxWord :=
  h.bits.work_le h.algorithm.weight

/-- Adding to a sum that was cut off at the largest word loses nothing more. -/
theorem addWork_min (a b : Nat) : addWork (min maxWord a) b = min maxWord (b + a) := by
  unfold addWork
  omega

namespace BlockIndex

variable {ix : BlockIndex} {id : Nat} {n : Node}

/-- The work of all nodes from a place back to its root. -/
def totalWork (ix : BlockIndex) (id : Nat) : Nat :=
  ((ix.ancestors id).map fun n => n.work).sum

theorem WellFormed.chainWork_eq (wf : ix.WellFormed) (hn : ix.get? id = some n) :
    n.chainWork = min maxWord (ix.totalWork id) := by
  induction id using Nat.strongRecOn generalizing n with
  | _ id ih =>
    rw [totalWork, wf.ancestors_eq_cons hn, List.map_cons, List.sum_cons]
    cases hprev : n.prev with
    | none =>
      rw [((wf.placed id n hn).root hprev).2, pathFrom_none, List.map_nil, List.sum_nil,
        Nat.add_zero]
      exact (Nat.min_eq_right n.work_le).symm
    | some p =>
      obtain ⟨hlt, q, hq, -, hchain⟩ := (wf.placed id n hn).child p hprev
      rw [hchain, ih p hlt hq, addWork_min]
      rfl

/-! ## The invariant -/

/-- After every history, the table and the search find a place exactly for the hash of its node.
Each node carries its own place, its parent stands before it, and its height counts its ancestors;
the walk from it ends at a root, and the work of its chain is that of the nodes on this walk. -/
theorem tree_of_run (rule : ForkRule) (history : List Change) :
    let ix := (empty rule).run history
    let t := (TabledIndex.empty rule).run history
    t.index = ix ∧ (∀ hash, t.table[hash]? = ix.lookup? hash) ∧
      (∀ hash id, ix.lookup? hash = some id ↔ ∃ n, ix.get? id = some n ∧ n.hash = hash) ∧
      ∀ id n, ix.get? id = some n →
        n.id = id ∧ (n.prev = none → n.height = 0) ∧
        (∀ p, n.prev = some p → p < id ∧ ∃ q, ix.get? p = some q ∧ n.height = q.height + 1) ∧
        ix.ancestors id = n :: ix.pathFrom n.prev ∧ (ix.ancestors id).length = n.height + 1 ∧
        (∃ r, (ix.ancestors id).getLast? = some r ∧ r.prev = none) ∧
        n.chainWork = min (2 ^ 256 - 1) (ix.totalWork id) := by
  intro ix t
  obtain ⟨heq, hagrees⟩ := (TabledIndex.agrees_empty rule).run history
  have hindex : t.index = ix := heq
  have wf : ix.WellFormed := wellFormed_run rule history
  refine ⟨hindex, fun hash => hindex ▸ hagrees.getElem?_table hash,
    fun hash id => wf.lookup?_eq_some_iff, fun id n hn => ?_⟩
  have hplaced := wf.placed id n hn
  obtain ⟨front, r, hpath, -, hroot⟩ := wf.exists_root hn
  refine ⟨hplaced.id_eq, fun h => (hplaced.root h).1, fun p hp => ?_, wf.ancestors_eq_cons hn,
    wf.length_ancestors hn, ⟨r, by rw [hpath, List.getLast?_concat], hroot⟩, wf.chainWork_eq hn⟩
  obtain ⟨hlt, q, hq, hheight, -⟩ := hplaced.child p hp
  exact ⟨hlt, q, hq, hheight⟩

end BlockIndex

end MergedWork
