import MergedWork.Proofs.BlockIndex.Lasting

/-!
# Questions about ancestors

A walk is cut off after as many nodes as there are places up to its start, and still it is the whole
path to a root (`WellFormed.isPath_ancestors`). A walk to a height finds the one node of the
path that stands there, if the path has that height. The last common ancestor of two nodes is the
node of both paths that all others are ancestors of (`WellFormed.lastCommon?_eq_some_iff`), which
says the same of both nodes. Two cursors that go back find it, each along its own path: in every
round the path in front of one of them gets shorter, so that they come to an end
(`WellFormed.commonWithin?_eq`).
-/

namespace MergedWork.BlockIndex

variable {ix : BlockIndex} {a b id rounds : Nat} {n m x : Node}

/-! ## Whole paths -/

/-- The nodes from a place back to a root, each behind its parent. -/
inductive IsPath (ix : BlockIndex) : (start : Option Nat) → (path : List Node) → Prop
  | done : IsPath ix none []
  | step {id : Nat} {n : Node} {path : List Node} (hn : ix.get? id = some n)
      (h : IsPath ix n.prev path) : IsPath ix (some id) (n :: path)

theorem WellFormed.isPath_ancestors (wf : ix.WellFormed) (hn : ix.get? id = some n) :
    ix.IsPath (some id) (ix.ancestors id) := by
  induction id using Nat.strongRecOn generalizing n with
  | _ id ih =>
    rw [wf.ancestors_eq_cons hn]
    refine .step hn ?_
    cases hprev : n.prev with
    | none => exact .done
    | some p =>
      obtain ⟨hlt, q, hq, -⟩ := (wf.placed id n hn).child p hprev
      exact ih p hlt hq

/-! ## Heights -/

theorem WellFormed.isSome_ancestor?_iff (wf : ix.WellFormed) (hn : ix.get? id = some n)
    (height : Nat) : (ix.ancestor? id height).isSome = true ↔ height ≤ n.height := by
  rw [Option.isSome_iff_exists]
  constructor
  · rintro ⟨m, hm⟩
    obtain ⟨hmem, rfl⟩ := wf.ancestor?_eq_some_iff.1 hm
    exact wf.height_le_of_mem hn hmem
  · intro hle
    obtain ⟨m, hmem, hheight⟩ := wf.exists_height_eq hn hle
    exact ⟨m, wf.ancestor?_eq_some_iff.2 ⟨hmem, hheight⟩⟩

/-! ## The last common ancestor -/

/-- Of two nodes that are on the paths of each other, both are the same. -/
theorem WellFormed.eq_of_mem_ancestors (wf : ix.WellFormed) (hn : n ∈ ix.ancestors m.id)
    (hm : m ∈ ix.ancestors n.id) : n = m := by
  have hmget := (wf.split_ancestors hm).1
  have hle := wf.height_le_of_mem hmget hn
  have hge := wf.height_le_of_mem (wf.split_ancestors hn).1 hm
  exact wf.eq_of_height_eq hn (wf.mem_ancestors_self hmget) (Nat.le_antisymm hle hge)

theorem WellFormed.lastCommon?_eq_none_iff_forall (wf : ix.WellFormed) :
    ix.lastCommon? a b = none ↔ ∀ x ∈ ix.ancestors a, x ∉ ix.ancestors b := by
  rw [wf.lastCommon?_eq_find?, List.find?_eq_none]
  constructor
  · intro hnone x hxa hxb
    exact hnone x hxb (by simpa using hxa)
  · intro hno x hxb hxa
    exact hno x (by simpa using hxa) hxb

/-- The last common ancestor is the common ancestor that descends from all others. -/
theorem WellFormed.lastCommon?_eq_some_iff (wf : ix.WellFormed) :
    ix.lastCommon? a b = some x ↔ x ∈ ix.ancestors a ∧ x ∈ ix.ancestors b ∧
      ∀ y ∈ ix.ancestors a, y ∈ ix.ancestors b → y ∈ ix.ancestors x.id := by
  constructor
  · exact wf.mem_of_lastCommon?
  · rintro ⟨hxa, hxb, hlast⟩
    cases hcommon : ix.lastCommon? a b with
    | none => exact absurd hxb (wf.lastCommon?_eq_none_iff_forall.1 hcommon x hxa)
    | some m =>
      obtain ⟨hma, hmb, hlast'⟩ := wf.mem_of_lastCommon? hcommon
      rw [wf.eq_of_mem_ancestors (hlast m hma hmb) (hlast' x hxa hxb)]

theorem WellFormed.lastCommon?_comm (wf : ix.WellFormed) (a b : Nat) :
    ix.lastCommon? a b = ix.lastCommon? b a := by
  ext x
  rw [wf.lastCommon?_eq_some_iff, wf.lastCommon?_eq_some_iff, and_left_comm]
  refine and_congr_right fun _ => and_congr_right fun _ => ?_
  exact ⟨fun h y hb ha => h y ha hb, fun h y ha hb => h y hb ha⟩

/-! ## Two cursors -/

/-- The place that two cursors agree on within a number of rounds, or nothing if they have not come
to an end by then. In each round the cursor at the greater height goes to its parent, and at the
same height both do. -/
def commonWithin? (ix : BlockIndex) :
    (rounds : Nat) → (a b : Option Nat) → Option (Option Nat)
  | 0, _, _ => none
  | _ + 1, none, _ => some none
  | _ + 1, some _, none => some none
  | rounds + 1, some a, some b =>
    if a = b then some (some a)
    else
      match ix.get? a, ix.get? b with
      | some n, some m =>
        commonWithin? ix rounds (if m.height ≤ n.height then n.prev else some a)
          (if n.height ≤ m.height then m.prev else some b)
      | _, _ => some none

/-- The cursors stand where the two paths begin that are left to compare. -/
theorem WellFormed.commonWithin?_eq (wf : ix.WellFormed) {a b : Option Nat}
    (ha : ∀ id ∈ a, id < ix.size) (hb : ∀ id ∈ b, id < ix.size)
    (hpos : 0 < rounds) (hrounds : (ix.pathFrom a).length + (ix.pathFrom b).length ≤ rounds) :
    ix.commonWithin? rounds a b = some ((meet? (ix.pathFrom a) (ix.pathFrom b)).map Node.id) := by
  induction rounds generalizing a b with
  | zero => exact absurd hpos (Nat.lt_irrefl 0)
  | succ rounds ih =>
    cases a with
    | none => rw [commonWithin?, pathFrom_none, meet?, Option.map_none]
    | some a =>
      obtain ⟨n, hn⟩ := get?_of_lt_size (ha a rfl)
      obtain rfl : n.id = a := (wf.placed a n hn).id_eq
      have hpath := wf.ancestors_eq_cons hn
      cases b with
      | none => rw [commonWithin?, pathFrom_none, pathFrom_some, hpath, meet?, Option.map_none]; simp
      | some b =>
        obtain ⟨m, hm⟩ := get?_of_lt_size (hb b rfl)
        obtain rfl : m.id = b := (wf.placed b m hm).id_eq
        have hpath' := wf.ancestors_eq_cons hm
        rw [pathFrom_some, pathFrom_some, hpath, hpath', List.length_cons, List.length_cons] at hrounds
        rw [commonWithin?, pathFrom_some, pathFrom_some, hpath, hpath', meet?, hn, hm]
        dsimp only
        by_cases hsame : n.id = m.id
        · rw [if_pos hsame, if_pos hsame, Option.map_some]
        rw [if_neg hsame, if_neg hsame]
        rcases Nat.lt_trichotomy n.height m.height with hlt | heq | hgt
        · rw [if_neg (Nat.not_le.2 hlt), if_pos (Nat.le_of_lt hlt), if_pos hlt, ← hpath,
            ← pathFrom_some]
          refine ih ha (wf.lt_size_of_prev hm) (by omega) ?_
          rw [pathFrom_some, hpath, List.length_cons]
          omega
        · rw [if_pos (Nat.le_of_eq heq.symm), if_pos (Nat.le_of_eq heq), if_neg (by omega),
            if_neg (by omega)]
          exact ih (wf.lt_size_of_prev hn) (wf.lt_size_of_prev hm) (by omega) (by omega)
        · rw [if_pos (Nat.le_of_lt hgt), if_neg (Nat.not_le.2 hgt), if_neg (by omega), if_pos hgt,
            ← hpath', ← pathFrom_some]
          refine ih (wf.lt_size_of_prev hn) hb (by omega) ?_
          rw [pathFrom_some, hpath', List.length_cons]
          omega

/-! ## The answers -/

/-- After every history, the walk from a place is the whole path back to its root. A search for a
height finds the one node of the path that has it, and fails exactly above the path. Two cursors come
to an end after no more rounds than nodes on both paths. What they find is the common ancestor that
descends from all others; they find nothing exactly if the paths have no node in common; and it is
the same in both orders. -/
theorem ancestry_of_run (rule : ForkRule) (history : List Change) {a b : Nat} {n m : Node}
    (hn : ((empty rule).run history).get? a = some n)
    (hm : ((empty rule).run history).get? b = some m) :
    let ix := (empty rule).run history
    ix.IsPath (some a) (ix.ancestors a) ∧
      (∀ height, (ix.ancestor? a height).isSome = true ↔ height ≤ n.height) ∧
      (∀ height x, ix.ancestor? a height = some x ↔ x ∈ ix.ancestors a ∧ x.height = height) ∧
      (∀ rounds, n.height + m.height + 2 ≤ rounds →
        ix.commonWithin? rounds (some a) (some b) = some ((ix.lastCommon? a b).map Node.id)) ∧
      (∀ x, ix.lastCommon? a b = some x ↔ x ∈ ix.ancestors a ∧ x ∈ ix.ancestors b ∧
        ∀ y ∈ ix.ancestors a, y ∈ ix.ancestors b → y ∈ ix.ancestors x.id) ∧
      (ix.lastCommon? a b = none ↔ ∀ x ∈ ix.ancestors a, x ∉ ix.ancestors b) ∧
      ix.lastCommon? a b = ix.lastCommon? b a := by
  intro ix
  have wf : ix.WellFormed := wellFormed_run rule history
  refine ⟨wf.isPath_ancestors hn, wf.isSome_ancestor?_iff hn, fun _ _ => wf.ancestor?_eq_some_iff,
    fun rounds hrounds => ?_, fun _ => wf.lastCommon?_eq_some_iff,
    wf.lastCommon?_eq_none_iff_forall, wf.lastCommon?_comm a b⟩
  refine wf.commonWithin?_eq (lt_size_of_some_get? hn) (lt_size_of_some_get? hm) (by omega) ?_
  rw [pathFrom_some, pathFrom_some, wf.length_ancestors hn, wf.length_ancestors hm]
  omega

/-- A root with two branches of different length, and another root. -/
def grove : List Change :=
  [.insertLoaded (numbered 1) none, .insertLoaded (numbered 2) (some (.ofNat 1)),
    .insertLoaded (numbered 3) (some (.ofNat 2)), .insertLoaded (numbered 4) (some (.ofNat 1)),
    .insertLoaded (numbered 5) none]

/-- Both branches lead to the first root, and the other root has nothing in common with them. -/
theorem ancestry_of_run_grove :
    let ix := (empty .standard).run grove
    ∃ n m r, ix.get? 2 = some n ∧ ix.get? 3 = some m ∧ ix.get? 4 = some r ∧
      ix.commonWithin? 5 (some 2) (some 3) = some (some 0) ∧
      (ix.lastCommon? 3 2).map Node.id = some 0 ∧
      (∀ x ∈ ix.ancestors 2, x ∉ ix.ancestors 4) := by
  intro ix
  have hsize : ix.size = 5 := by decide +kernel
  have hheight : (ix.get? 2).map Node.height = some 2 := by decide +kernel
  have hheight' : (ix.get? 3).map Node.height = some 1 := by decide +kernel
  have hcommon : (ix.lastCommon? 2 3).map Node.id = some 0 := by decide +kernel
  have hnone : ix.lastCommon? 2 4 = none := by decide +kernel
  obtain ⟨n, hn, hn'⟩ := Option.map_eq_some_iff.1 hheight
  obtain ⟨m, hm, hm'⟩ := Option.map_eq_some_iff.1 hheight'
  obtain ⟨r, hr⟩ := get?_of_lt_size (show 4 < ix.size by omega)
  obtain ⟨-, -, -, hrounds, -, -, hcomm⟩ := ancestry_of_run .standard grove hn hm
  obtain ⟨-, -, -, -, -, hapart, -⟩ := ancestry_of_run .standard grove hn hr
  refine ⟨n, m, r, hn, hm, hr, ?_, ?_, hapart.1 hnone⟩
  · rw [hrounds 5 (by omega), hcommon]
  · rw [← hcomm, hcommon]

end MergedWork.BlockIndex
