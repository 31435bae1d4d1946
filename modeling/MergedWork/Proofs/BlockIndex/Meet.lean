import MergedWork.Proofs.BlockIndex.Walk
import Mathlib.Data.List.Find

/-!
# The last common ancestor

Heights fall along a path, so that two paths are compared by going back on the higher one until
both stand at one node. `meet?` finds the first node of the one path that is on the other
(`meet?_eq_find?`). Two paths share a node exactly if they end at the same root, and from the first
shared node on they are the same (`lastCommon?_eq_none_iff`).
-/

namespace MergedWork.BlockIndex

variable {ix : BlockIndex} {a b id : Nat} {start : Option Nat} {n m : Node}
  {xs ys : List Node}

/-! ## Falling heights -/

/-- Heights fall from node to node. -/
def Falling (path : List Node) : Prop := path.Pairwise fun n m => m.height < n.height

theorem WellFormed.falling_ancestors (wf : ix.WellFormed) (id : Nat) :
    Falling (ix.ancestors id) := by
  induction id using Nat.strongRecOn with
  | _ id ih =>
    cases hn : ix.get? id with
    | none => rw [ancestors_of_get?_eq_none hn]; exact List.Pairwise.nil
    | some n =>
      rw [wf.ancestors_eq_cons hn]
      cases hprev : n.prev with
      | none => exact List.pairwise_singleton _ n
      | some p =>
        obtain ⟨hlt, q, hq, hheight, -⟩ := (wf.placed id n hn).child p hprev
        refine List.pairwise_cons.2 ⟨fun m hm => ?_, ih p hlt⟩
        obtain ⟨front, back, hsplit⟩ := List.append_of_mem hm
        have hlen := wf.length_ancestors hq
        rw [pathFrom_some] at hsplit
        rw [wf.height_eq_length hsplit]
        rw [hsplit, List.length_append, List.length_cons] at hlen
        omega

/-- A node that is higher than the first node of a path is not on the path. -/
theorem Falling.not_mem (h : Falling (n :: xs)) (hlt : n.height < m.height) : m ∉ n :: xs := by
  intro hm
  rcases List.mem_cons.1 hm with rfl | hm
  · exact absurd hlt (Nat.lt_irrefl _)
  · exact absurd ((List.pairwise_cons.1 h).1 m hm) (Nat.lt_asymm hlt)

theorem WellFormed.split_ancestors (wf : ix.WellFormed) (h : n ∈ ix.ancestors id) :
    ix.get? n.id = some n ∧ ∃ front, ix.ancestors id = front ++ ix.ancestors n.id := by
  have hmem : n ∈ ix.pathFrom (some id) := h
  exact wf.split_pathFrom hmem

/-- A path with a first node is the path of that node, which has its parent's path behind it. -/
theorem WellFormed.of_pathFrom_eq_cons (wf : ix.WellFormed) (h : ix.pathFrom start = n :: xs) :
    ix.get? n.id = some n ∧ ix.ancestors n.id = n :: xs ∧ ix.pathFrom n.prev = xs ∧
      n.height = xs.length ∧ ∀ m ∈ xs, m.height < n.height := by
  cases start with
  | none => cases h
  | some id =>
    rw [pathFrom_some] at h
    obtain ⟨hn, rfl, hprev⟩ := wf.get?_of_ancestors_eq_cons h
    have hlen := wf.length_ancestors hn
    rw [h, List.length_cons] at hlen
    have hfall := wf.falling_ancestors n.id
    rw [h] at hfall
    exact ⟨hn, h, hprev.symm, by omega, (List.pairwise_cons.1 hfall).1⟩

/-- A node that is not on a list does not count in a search for members in it. -/
theorem find?_mem_cons_of_not_mem {x : Node} (h : x ∉ ys) :
    (ys.find? fun y => y ∈ xs) = ys.find? fun y => y ∈ x :: xs := by
  refine List.find?_congr fun y hy => ?_
  have hne : y ≠ x := fun heq => h (heq ▸ hy)
  simp [hne]

/-- The first node of the second path that is on the first. Of two nodes in step, the higher cannot
be on the other path, and of two different nodes of one height, neither can. -/
theorem meet?_eq_find? (hx : Falling xs) (hy : Falling ys)
    (hid : ∀ x ∈ xs, ∀ y ∈ ys, x.id = y.id → x = y) :
    meet? xs ys = ys.find? fun y => y ∈ xs := by
  fun_induction meet? xs ys with
  | case1 ys => exact (List.find?_eq_none.2 fun y _ => by simp).symm
  | case2 => rfl
  | case3 x xs y ys heq =>
    obtain rfl := hid x (by simp) y (by simp) heq
    simp
  | case4 x xs y ys _ hlt ih =>
    have hno : y ∉ x :: xs := hx.not_mem hlt
    rw [ih hx hy.tail fun a ha b hb => hid a ha b (List.mem_cons_of_mem y hb),
      List.find?_cons_of_neg (by simpa using hno)]
  | case5 x xs y ys _ _ hlt ih =>
    have hno : x ∉ y :: ys := hy.not_mem hlt
    rw [ih hx.tail hy fun a ha b hb => hid a (List.mem_cons_of_mem x ha) b hb]
    exact find?_mem_cons_of_not_mem hno
  | case6 x xs y ys hne hge hge' ih =>
    have hheight : x.height = y.height := by omega
    have hne' : y ≠ x := fun h => hne (h ▸ rfl)
    have hno : y ∉ x :: xs := by
      intro hmem
      have := (List.pairwise_cons.1 hx).1 y (List.mem_of_ne_of_mem hne' hmem)
      omega
    have hno' : x ∉ ys := by
      intro hmem
      have := (List.pairwise_cons.1 hy).1 x hmem
      omega
    rw [ih hx.tail hy.tail fun a ha b hb =>
        hid a (List.mem_cons_of_mem x ha) b (List.mem_cons_of_mem y hb),
      List.find?_cons_of_neg (by simpa using hno)]
    exact find?_mem_cons_of_not_mem hno'

/-! ## Paths that meet -/

theorem WellFormed.lastCommon?_eq_find? (wf : ix.WellFormed) (a b : Nat) :
    ix.lastCommon? a b = (ix.ancestors b).find? fun n => n ∈ ix.ancestors a := by
  refine meet?_eq_find? (wf.falling_ancestors a) (wf.falling_ancestors b) fun x hx y hy heq => ?_
  have hx' := (wf.split_ancestors hx).1
  rw [heq, (wf.split_ancestors hy).1, Option.some.injEq] at hx'
  exact hx'.symm

/-- The root that a node descends from. -/
def root? (ix : BlockIndex) (id : Nat) : Option Node := (ix.ancestors id).getLast?

theorem WellFormed.root?_eq_some_iff (wf : ix.WellFormed) :
    ix.root? id = some n ↔ n ∈ ix.ancestors id ∧ n.height = 0 := by
  rw [root?, ← List.head?_reverse, List.head?_eq_getElem?, wf.getElem?_reverse_ancestors]

theorem WellFormed.root?_of_mem (wf : ix.WellFormed) (h : n ∈ ix.ancestors id) :
    ix.root? n.id = ix.root? id := by
  obtain ⟨hn, front, hsplit⟩ := wf.split_ancestors h
  rw [root?, root?, hsplit, wf.ancestors_eq_cons hn, List.getLast?_append, List.getLast?_cons,
    Option.some_or]

/-- Two blocks have no common ancestor exactly if they descend from different roots. -/
theorem WellFormed.lastCommon?_eq_none_iff (wf : ix.WellFormed) (ha : ix.get? a = some n) :
    ix.lastCommon? a b = none ↔ ix.root? a ≠ ix.root? b := by
  rw [wf.lastCommon?_eq_find?, List.find?_eq_none]
  constructor
  · intro hno heq
    obtain ⟨front, r, hpath, -, -⟩ := wf.exists_root ha
    have hr : ix.root? a = some r := by rw [root?, hpath, List.getLast?_concat]
    rw [hr] at heq
    have hrb : r ∈ ix.ancestors b := List.mem_of_getLast? heq.symm
    exact hno r hrb (by simp [hpath])
  · intro hne m hm hmem
    rw [decide_eq_true_iff] at hmem
    exact hne ((wf.root?_of_mem hmem).symm.trans (wf.root?_of_mem hm))

/-! ## Common ancestors -/

theorem WellFormed.ancestors_subset (wf : ix.WellFormed) (h : n ∈ ix.ancestors id) :
    ix.ancestors n.id ⊆ ix.ancestors id := by
  obtain ⟨-, front, hsplit⟩ := wf.split_ancestors h
  rw [hsplit]
  exact List.subset_append_right front _

theorem WellFormed.height_le_of_mem (wf : ix.WellFormed) (hn : ix.get? id = some n)
    (hm : m ∈ ix.ancestors id) : m.height ≤ n.height := by
  have hfall := wf.falling_ancestors id
  rw [wf.ancestors_eq_cons hn] at hfall hm
  exact Nat.le_of_not_lt fun hlt => hfall.not_mem hlt hm

/-- A path has one node of each height. -/
theorem WellFormed.eq_of_height_eq (wf : ix.WellFormed) (hn : n ∈ ix.ancestors id)
    (hm : m ∈ ix.ancestors id) (heq : n.height = m.height) : n = m := by
  have hat := (wf.getElem?_reverse_ancestors n.height).2 ⟨hn, rfl⟩
  rw [(wf.getElem?_reverse_ancestors n.height).2 ⟨hm, heq.symm⟩, Option.some.injEq] at hat
  exact hat.symm

/-- Of two nodes on one path, the lower is on the path of the higher. -/
theorem WellFormed.mem_ancestors_of_height_le (wf : ix.WellFormed) (hn : n ∈ ix.ancestors id)
    (hm : m ∈ ix.ancestors id) (hle : m.height ≤ n.height) : m ∈ ix.ancestors n.id := by
  have hpath : n ∈ ix.pathFrom (some id) := hn
  have hat := (wf.getElem?_reverse_ancestors m.height).2 ⟨hm, rfl⟩
  rw [← pathFrom_some, wf.getElem?_reverse_pathFrom hpath hle] at hat
  exact ((wf.getElem?_reverse_ancestors m.height).1 hat).1

/-- The last common ancestor is on both paths, and all common ancestors are on its own path. -/
theorem WellFormed.mem_of_lastCommon? (wf : ix.WellFormed) (h : ix.lastCommon? a b = some m) :
    m ∈ ix.ancestors a ∧ m ∈ ix.ancestors b ∧
      ∀ x ∈ ix.ancestors a, x ∈ ix.ancestors b → x ∈ ix.ancestors m.id := by
  rw [wf.lastCommon?_eq_find?, List.find?_eq_some_iff_append] at h
  obtain ⟨hmem, front, back, hsplit, hfront⟩ := h
  have hmb : m ∈ ix.ancestors b := by simp [hsplit]
  refine ⟨by simpa using hmem, hmb, fun x hxa hxb => ?_⟩
  rw [hsplit, List.mem_append] at hxb
  rw [(wf.ancestors_of_eq_append hsplit).2]
  exact hxb.resolve_left fun hx => by simpa [hxa] using hfront x hx

/-- The nodes of the one path that are on the other are those up to the last common ancestor. -/
theorem WellFormed.mem_ancestors_iff_of_lastCommon? (wf : ix.WellFormed)
    (h : ix.lastCommon? a b = some m) (hn : n ∈ ix.ancestors a) :
    n ∈ ix.ancestors b ↔ n.height ≤ m.height := by
  obtain ⟨hma, hmb, hcommon⟩ := wf.mem_of_lastCommon? h
  constructor
  · intro hnb
    exact wf.height_le_of_mem (wf.split_ancestors hma).1 (hcommon n hn hnb)
  · intro hle
    exact wf.ancestors_subset hmb (wf.mem_ancestors_of_height_le hma hn hle)

end MergedWork.BlockIndex
