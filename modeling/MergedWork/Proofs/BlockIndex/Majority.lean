import MergedWork.Proofs.BlockIndex.MedianTime
import MergedWork.Proofs.BlockIndex.Queries

/-!
# Majorities

Whether enough of the last blocks have a version is counted along a path. The count stops early,
when there are enough of them, or after as many blocks as are asked for, or where the path ends.
What it says is whether the full count over this part of the path is large enough
(`WellFormed.majorityWithin?_eq`).
-/

namespace MergedWork.BlockIndex

variable {ix : BlockIndex} {minVersion required window rounds found checked : Nat}
  {start cursor : Option Nat} {path path' : List Node} {n : Node}

/-! ## The path of a start -/

theorem IsPath.unique (h : ix.IsPath start path) (h' : ix.IsPath start path') : path' = path := by
  induction h generalizing path' with
  | done =>
    cases h'
    rfl
  | step hn _ ih =>
    cases h' with
    | step hn' h' =>
      cases hn.symm.trans hn'
      rw [ih h']

theorem WellFormed.isPath_pathFrom (wf : ix.WellFormed) (hstart : ∀ id ∈ start, id < ix.size) :
    ix.IsPath start (ix.pathFrom start) := by
  cases start with
  | none => exact .done
  | some id =>
    obtain ⟨n, hn⟩ := get?_of_lt_size (hstart id rfl)
    exact wf.isPath_ancestors hn

/-! ## Counting with a cursor -/

/-- What a count says within a number of rounds, or nothing if it has not ended by then or reads a
place that is not in the index. It looks at the node of the cursor and goes on with its parent. It
ends behind a root, after `window` nodes, or as soon as `required` are found. -/
def majorityWithin? (ix : BlockIndex) (minVersion required window : Nat) :
    (rounds : Nat) → (cursor : Option Nat) → (found checked : Nat) → Option Bool
  | 0, _, _, _ => none
  | _ + 1, none, found, _ => some (required ≤ found)
  | rounds + 1, some id, found, checked =>
    if window ≤ checked ∨ required ≤ found then some (required ≤ found)
    else
      match ix.get? id with
      | none => none
      | some n =>
        majorityWithin? ix minVersion required window rounds n.prev
          (if minVersion ≤ n.version.base.toNat then found + 1 else found) (checked + 1)

/-- A count says whether there are enough in what was found so far and what is left of the window on
the path from the cursor. -/
theorem WellFormed.majorityWithin?_eq (wf : ix.WellFormed) (hcursor : ∀ id ∈ cursor, id < ix.size)
    (hrounds : min (window - checked) (ix.pathFrom cursor).length < rounds) :
    ix.majorityWithin? minVersion required window rounds cursor found checked =
      some (decide (required ≤ found + ((ix.pathFrom cursor).take (window - checked)).countP
        fun m => minVersion ≤ m.version.base.toNat)) := by
  induction rounds generalizing cursor found checked with
  | zero => exact absurd hrounds (Nat.not_lt_zero _)
  | succ rounds ih =>
    cases cursor with
    | none => rw [majorityWithin?, pathFrom_none, List.take_nil, List.countP_nil, Nat.add_zero]
    | some id =>
      rw [majorityWithin?]
      by_cases hdone : window ≤ checked ∨ required ≤ found
      · rw [if_pos hdone]
        rcases hdone with hwindow | hfound
        · rw [Nat.sub_eq_zero_of_le hwindow, List.take_zero, List.countP_nil, Nat.add_zero]
        · rw [decide_eq_true hfound, decide_eq_true (Nat.le_add_right_of_le hfound)]
      · rw [if_neg hdone]
        obtain ⟨n, hn⟩ := get?_of_lt_size (hcursor id rfl)
        have hleft : window - checked = window - (checked + 1) + 1 := by omega
        rw [pathFrom_some, wf.ancestors_eq_cons hn] at hrounds ⊢
        rw [List.length_cons, hleft] at hrounds
        rw [hn, hleft, List.take_succ_cons, List.countP_cons]
        dsimp only
        rw [ih (wf.lt_size_of_prev hn) (by omega)]
        simp only [decide_eq_true_eq]
        split_ifs
        · rw [Nat.add_assoc, Nat.add_comm 1]
        · rfl

/-- After every history, a start has one path: that of its node, or none at all. A majority is found
exactly if, among the first `window` nodes of this path, or all of it if it is shorter, there are as
many of the version as required. A count that ends as soon as it can says the same, after no more
rounds than it passes nodes and one. -/
theorem majority_of_run (rule : ForkRule) (history : List Change) {start : Option Nat}
    (hstart : ∀ id ∈ start, id < ((empty rule).run history).size)
    (minVersion required window : Nat) :
    let ix := (empty rule).run history
    ∃ path, (∀ p, ix.IsPath start p ↔ p = path) ∧
      (ix.superMajority minVersion start required window = true ↔
        required ≤ (path.take window).countP fun n => minVersion ≤ n.version.base.toNat) ∧
      ∀ rounds, min window path.length < rounds →
        ix.majorityWithin? minVersion required window rounds start 0 0 =
          some (ix.superMajority minVersion start required window) := by
  intro ix
  have wf : ix.WellFormed := wellFormed_run rule history
  have hpath := wf.isPath_pathFrom hstart
  have hmajority := wf.superMajority_iff minVersion start required window
  refine ⟨ix.pathFrom start, fun p => ⟨hpath.unique, fun heq => heq ▸ hpath⟩, hmajority,
    fun rounds hrounds => ?_⟩
  rw [wf.majorityWithin?_eq hstart hrounds, Nat.zero_add, Nat.sub_zero, Option.some_inj,
    Bool.eq_iff_iff, decide_eq_true_iff, hmajority]

/-- Four of these five blocks are of the new version. A window of ten blocks reaches beyond the root,
and the count comes to its end there if five are required. -/
theorem majority_of_run_relapse :
    let ix := (empty behindNew).run relapse
    (∀ id ∈ some 4, id < ix.size) ∧ ∃ path, ix.IsPath (some 4) path ∧ path.length = 5 ∧
      4 ≤ ((path.take 10).countP fun n => 4 ≤ n.version.base.toNat) ∧
      ¬ 5 ≤ ((path.take 10).countP fun n => 4 ≤ n.version.base.toNat) ∧
      ix.majorityWithin? 4 4 10 6 (some 4) 0 0 = some true ∧
      ix.majorityWithin? 4 5 10 6 (some 4) 0 0 = some false := by
  intro ix
  have hsize : ix.size = 5 := by decide +kernel
  have hlength : (ix.ancestors 4).length = 5 := by decide +kernel
  have henough : ix.superMajority 4 (some 4) 4 10 = true := by decide +kernel
  have hfew : ix.superMajority 4 (some 4) 5 10 = false := by decide +kernel
  have hstart : ∀ id ∈ some 4, id < ix.size := by
    rintro _ ⟨⟩
    omega
  have hpath := (wellFormed_run behindNew relapse).isPath_pathFrom hstart
  obtain ⟨path, hunique, hcount, hrounds⟩ := majority_of_run behindNew relapse hstart 4 4 10
  obtain ⟨path', hunique', hcount', hrounds'⟩ := majority_of_run behindNew relapse hstart 4 5 10
  obtain rfl := (hunique _).1 hpath
  obtain rfl := (hunique' _).1 hpath
  have hended : min 10 (ix.pathFrom (some 4)).length < 6 := by rw [pathFrom_some, hlength]; decide
  refine ⟨hstart, _, hpath, hlength, hcount.1 henough, fun h => ?_, ?_, ?_⟩
  · cases hfew.symm.trans (hcount'.2 h)
  · rw [hrounds 6 hended, henough]
  · rw [hrounds' 6 hended, hfew]

end MergedWork.BlockIndex
