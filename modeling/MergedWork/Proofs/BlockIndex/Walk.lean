import MergedWork.BlockIndex.Ancestry
import MergedWork.Proofs.BlockIndex.Tree

/-!
# The path of a node

In a well-formed index, `ancestors` is the path from a node back to a root: the node, and then the
path of its parent (`ancestors_eq_cons`). The path of each node on it is what remains of it from
there on (`ancestors_of_eq_append`), and a node of height `h` is followed by `h` others. A walk
that stops somewhere is a part of this path (`walkUntil_eq`).
-/

namespace MergedWork.BlockIndex

variable {ix ix' : BlockIndex} {limit limit' id : Nat} {start : Option Nat} {n m : Node}
  {front back : List Node}

/-! ## Walks of bounded length -/

theorem recent_none : ix.recent limit none = [] := by cases limit <;> rfl

theorem recent_succ (hn : ix.get? id = some n) :
    ix.recent (limit + 1) (some id) = n :: ix.recent limit n.prev := by
  rw [recent, walkUntil, hn]
  rfl

theorem recent_succ_of_none (hn : ix.get? id = none) : ix.recent (limit + 1) (some id) = [] := by
  rw [recent, walkUntil, hn]

/-- A walk that may stop passes the nodes before the first at which it stops, and finds that. -/
theorem walkUntil_eq (ix : BlockIndex) (stop : Node → Bool) (limit : Nat) (start : Option Nat) :
    ix.walkUntil stop limit start =
      ((ix.recent limit start).takeWhile fun n => !stop n, (ix.recent limit start).find? stop) := by
  induction limit generalizing start with
  | zero => rfl
  | succ limit ih =>
    cases start with
    | none => rfl
    | some id =>
      cases hn : ix.get? id with
      | none => rw [walkUntil, hn, recent_succ_of_none hn, List.takeWhile_nil, List.find?_nil]
      | some n =>
        rw [walkUntil, hn, recent_succ hn]
        cases hstop : stop n with
        | true => simp [hstop]
        | false => simp [hstop, ih n.prev]

/-- Beyond the place at which a walk starts, a larger limit changes nothing. -/
theorem WellFormed.recent_eq (wf : ix.WellFormed) (h : id < limit) (h' : id < limit') :
    ix.recent limit (some id) = ix.recent limit' (some id) := by
  induction limit generalizing id limit' with
  | zero => exact absurd h (Nat.not_lt_zero id)
  | succ limit ih =>
    obtain ⟨limit', rfl⟩ : ∃ k, limit' = k + 1 := ⟨limit' - 1, by omega⟩
    cases hn : ix.get? id with
    | none => rw [recent_succ_of_none hn, recent_succ_of_none hn]
    | some n =>
      rw [recent_succ hn, recent_succ hn]
      cases hprev : n.prev with
      | none => rw [recent_none, recent_none]
      | some p =>
        have hlt := ((wf.placed id n hn).child p hprev).1
        rw [ih (Nat.lt_of_lt_of_le hlt (Nat.le_of_lt_succ h))
          (Nat.lt_of_lt_of_le hlt (Nat.le_of_lt_succ h'))]

/-! ## Paths -/

/-- The path from where a walk starts, newest node first. -/
def pathFrom (ix : BlockIndex) : (start : Option Nat) → List Node
  | none => []
  | some id => ix.ancestors id

@[simp] theorem pathFrom_none : ix.pathFrom none = [] := rfl

@[simp] theorem pathFrom_some : ix.pathFrom (some id) = ix.ancestors id := rfl

theorem WellFormed.ancestors_eq_cons (wf : ix.WellFormed) (hn : ix.get? id = some n) :
    ix.ancestors id = n :: ix.pathFrom n.prev := by
  rw [ancestors, recent_succ hn]
  cases hprev : n.prev with
  | none => rw [recent_none, pathFrom_none]
  | some p =>
    have hlt := ((wf.placed id n hn).child p hprev).1
    rw [pathFrom_some, ancestors, wf.recent_eq hlt (Nat.lt_succ_self p)]

theorem WellFormed.mem_ancestors_self (wf : ix.WellFormed) (hn : ix.get? id = some n) :
    n ∈ ix.ancestors id := by
  rw [wf.ancestors_eq_cons hn]
  exact List.mem_cons_self

theorem ancestors_of_get?_eq_none (hn : ix.get? id = none) : ix.ancestors id = [] :=
  recent_succ_of_none hn

/-- A path starts with the node of its place. -/
theorem WellFormed.get?_of_ancestors_eq_cons (wf : ix.WellFormed)
    (h : ix.ancestors id = n :: back) :
    ix.get? id = some n ∧ n.id = id ∧ back = ix.pathFrom n.prev := by
  cases hm : ix.get? id with
  | none => rw [ancestors_of_get?_eq_none hm] at h; cases h
  | some m =>
    rw [wf.ancestors_eq_cons hm, List.cons.injEq] at h
    obtain ⟨rfl, rfl⟩ := h
    exact ⟨rfl, (wf.placed id m hm).id_eq, rfl⟩

/-- What is left of a path from one of its nodes on is the path of that node. -/
theorem WellFormed.ancestors_of_eq_append (wf : ix.WellFormed)
    (h : ix.ancestors id = front ++ n :: back) :
    ix.get? n.id = some n ∧ ix.ancestors n.id = n :: back := by
  induction front generalizing id with
  | nil =>
    obtain ⟨hget, rfl, -⟩ := wf.get?_of_ancestors_eq_cons h
    exact ⟨hget, h⟩
  | cons m front ih =>
    obtain ⟨-, -, hrest⟩ := wf.get?_of_ancestors_eq_cons h
    cases hprev : m.prev with
    | none =>
      rw [hprev, pathFrom_none] at hrest
      exact absurd hrest (by simp)
    | some p =>
      rw [hprev, pathFrom_some] at hrest
      exact ih hrest.symm

theorem WellFormed.split_pathFrom (wf : ix.WellFormed) (h : n ∈ ix.pathFrom start) :
    ix.get? n.id = some n ∧ ∃ front, ix.pathFrom start = front ++ ix.ancestors n.id := by
  cases start with
  | none => cases h
  | some id =>
    obtain ⟨front, back, hsplit⟩ := List.append_of_mem h
    obtain ⟨hn, hpath⟩ := wf.ancestors_of_eq_append hsplit
    exact ⟨hn, front, by rw [hpath, hsplit]⟩

/-- The path of a node of height `h` has `h` nodes behind it. -/
theorem WellFormed.length_ancestors (wf : ix.WellFormed) (hn : ix.get? id = some n) :
    (ix.ancestors id).length = n.height + 1 := by
  induction id using Nat.strongRecOn generalizing n with
  | _ id ih =>
    rw [wf.ancestors_eq_cons hn, List.length_cons]
    cases hprev : n.prev with
    | none =>
      rw [((wf.placed id n hn).root hprev).1]
      rfl
    | some p =>
      obtain ⟨hlt, q, hq, hheight, -⟩ := (wf.placed id n hn).child p hprev
      rw [pathFrom_some, ih p hlt hq, hheight]

theorem WellFormed.height_eq_length (wf : ix.WellFormed)
    (h : ix.ancestors id = front ++ n :: back) : n.height = back.length := by
  obtain ⟨hn, hpath⟩ := wf.ancestors_of_eq_append h
  have hlen := wf.length_ancestors hn
  rw [hpath, List.length_cons] at hlen
  exact (Nat.succ.inj hlen).symm

/-- Read from its root, a path has each node at its height. -/
theorem WellFormed.getElem?_reverse_ancestors (wf : ix.WellFormed) (h : Nat) :
    (ix.ancestors id).reverse[h]? = some n ↔ n ∈ ix.ancestors id ∧ n.height = h := by
  constructor
  · intro hget
    refine ⟨List.mem_reverse.1 (List.mem_of_getElem? hget), ?_⟩
    obtain ⟨hlt, hget⟩ := List.getElem?_eq_some_iff.1 hget
    rw [List.length_reverse] at hlt
    have hsplit' : ix.ancestors id =
        (ix.ancestors id).take ((ix.ancestors id).length - 1 - h) ++
          n :: (ix.ancestors id).drop ((ix.ancestors id).length - 1 - h + 1) := by
      rw [← hget, List.getElem_reverse, List.getElem_cons_drop, List.take_append_drop]
    rw [wf.height_eq_length hsplit', List.length_drop]
    omega
  · rintro ⟨hmem, rfl⟩
    obtain ⟨front, back, hsplit⟩ := List.append_of_mem hmem
    rw [wf.height_eq_length hsplit, hsplit, List.reverse_append, List.reverse_cons,
      List.append_assoc, List.getElem?_append_right (by simp)]
    simp

/-- A path ends at a root. -/
theorem WellFormed.exists_root (wf : ix.WellFormed) (hn : ix.get? id = some n) :
    ∃ front r, ix.ancestors id = front ++ [r] ∧ ix.get? r.id = some r ∧ r.prev = none := by
  induction id using Nat.strongRecOn generalizing n with
  | _ id ih =>
    rw [wf.ancestors_eq_cons hn]
    cases hprev : n.prev with
    | none =>
      refine ⟨[], n, rfl, ?_, hprev⟩
      rw [(wf.placed id n hn).id_eq]
      exact hn
    | some p =>
      obtain ⟨hlt, q, hq, -⟩ := (wf.placed id n hn).child p hprev
      obtain ⟨front, r, hpath, hr, hroot⟩ := ih p hlt hq
      exact ⟨n :: front, r, by rw [pathFrom_some, hpath]; rfl, hr, hroot⟩

/-- New nodes do not change the paths of old ones. -/
theorem WellFormed.ancestors_of_extends (wf : ix.WellFormed) (wf' : ix'.WellFormed)
    (hext : Extends ix ix') (hn : ix.get? id = some n) : ix'.ancestors id = ix.ancestors id := by
  induction id using Nat.strongRecOn generalizing n with
  | _ id ih =>
    rw [wf.ancestors_eq_cons hn, wf'.ancestors_eq_cons (hext id n hn)]
    cases hprev : n.prev with
    | none => rfl
    | some p =>
      obtain ⟨hlt, q, hq, -⟩ := (wf.placed id n hn).child p hprev
      rw [pathFrom_some, pathFrom_some, ih p hlt hq]

/-! ## Heights along a path -/

/-- A node stands behind as many places as it has ancestors, at least. -/
theorem WellFormed.height_le (wf : ix.WellFormed) (hn : ix.get? id = some n) : n.height ≤ id := by
  induction id using Nat.strongRecOn generalizing n with
  | _ id ih =>
    cases hprev : n.prev with
    | none =>
      rw [((wf.placed id n hn).root hprev).1]
      exact Nat.zero_le id
    | some p =>
      obtain ⟨hlt, q, hq, hheight, -⟩ := (wf.placed id n hn).child p hprev
      have hle := ih p hlt hq
      omega

/-- A path passes each height up to that of its node. -/
theorem WellFormed.exists_height_eq (wf : ix.WellFormed) (hn : ix.get? id = some n) {h : Nat}
    (hle : h ≤ n.height) : ∃ m ∈ ix.ancestors id, m.height = h := by
  have hlt : h < (ix.ancestors id).reverse.length := by
    rw [List.length_reverse, wf.length_ancestors hn]
    exact Nat.lt_succ_of_le hle
  exact ⟨_, (wf.getElem?_reverse_ancestors h).1 (List.getElem?_eq_getElem hlt)⟩

/-- Up to the height of one of its nodes, a path is the path of that node. -/
theorem WellFormed.getElem?_reverse_pathFrom (wf : ix.WellFormed) (hm : m ∈ ix.pathFrom start)
    {h : Nat} (hle : h ≤ m.height) :
    (ix.pathFrom start).reverse[h]? = (ix.ancestors m.id).reverse[h]? := by
  obtain ⟨hget, front, hsplit⟩ := wf.split_pathFrom hm
  rw [hsplit, List.reverse_append, List.getElem?_append_left]
  rw [List.length_reverse, wf.length_ancestors hget]
  exact Nat.lt_succ_of_le hle

theorem ancestor?_eq_find? (ix : BlockIndex) (id height : Nat) :
    ix.ancestor? id height = (ix.ancestors id).find? fun n => n.height = height := by
  rw [ancestor?, walkUntil_eq]
  rfl

/-- The walk to a height finds the node of the path that stands there. -/
theorem WellFormed.ancestor?_eq (wf : ix.WellFormed) (id height : Nat) :
    ix.ancestor? id height = (ix.ancestors id).reverse[height]? := by
  rw [ancestor?_eq_find?]
  cases hfind : (ix.ancestors id).find? fun n => n.height = height with
  | some n =>
    have hheight : n.height = height := by simpa using List.find?_some hfind
    exact ((wf.getElem?_reverse_ancestors height).2
      ⟨List.mem_of_find?_eq_some hfind, hheight⟩).symm
  | none =>
    symm
    refine Option.eq_none_iff_forall_not_mem.2 fun n hn => ?_
    obtain ⟨hmem, hheight⟩ := (wf.getElem?_reverse_ancestors height).1 hn
    exact List.find?_eq_none.1 hfind n hmem (by simpa using hheight)

theorem WellFormed.ancestor?_eq_some_iff (wf : ix.WellFormed) {height : Nat} :
    ix.ancestor? id height = some m ↔ m ∈ ix.ancestors id ∧ m.height = height := by
  rw [wf.ancestor?_eq, wf.getElem?_reverse_ancestors]

/-! ## Counting along a path -/

/-- A walk of bounded length is the first part of a path. -/
theorem WellFormed.recent_eq_take (wf : ix.WellFormed) (limit : Nat) (start : Option Nat) :
    ix.recent limit start = (ix.pathFrom start).take limit := by
  induction limit generalizing start with
  | zero => rfl
  | succ limit ih =>
    cases start with
    | none => rw [recent_none, pathFrom_none, List.take_nil]
    | some id =>
      cases hn : ix.get? id with
      | none => rw [recent_succ_of_none hn, pathFrom_some, ancestors_of_get?_eq_none hn, List.take_nil]
      | some n =>
        rw [recent_succ hn, pathFrom_some, wf.ancestors_eq_cons hn, List.take_succ_cons, ih]

/-- A count that ends early says whether the full count is large enough. -/
theorem hasAtLeast_iff_le_countP (property : Node → Bool) (required window : Nat)
    (path : List Node) :
    hasAtLeast property required window path = true ↔
      required ≤ (path.take window).countP property := by
  fun_induction hasAtLeast property required window path with
  | case1 => simp
  | case2 => simp
  | case3 => simp
  | case4 required window n rest hn ih =>
    rw [ih, List.take_succ_cons, List.countP_cons_of_pos hn, Nat.succ_le_succ_iff]
  | case5 required window n rest hn ih =>
    rw [ih, List.take_succ_cons, List.countP_cons_of_neg hn]

/-- A majority is counted over the first part of the path. -/
theorem WellFormed.superMajority_iff (wf : ix.WellFormed) (minVersion : Nat) (start : Option Nat)
    (required window : Nat) :
    ix.superMajority minVersion start required window = true ↔
      required ≤ ((ix.pathFrom start).take window).countP
        fun n => minVersion ≤ n.version.base.toNat := by
  rw [superMajority, hasAtLeast_iff_le_countP, wf.recent_eq_take, List.take_take, Nat.min_self]

end MergedWork.BlockIndex
