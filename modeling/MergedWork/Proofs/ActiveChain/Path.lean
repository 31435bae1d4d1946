import MergedWork.ActiveChain
import MergedWork.Proofs.BlockIndex.Walk
import Mathlib.Data.List.TakeWhile

/-!
# The active chain is a path

`ActiveChain.Follows` says that the chain lists the path to a tip, root first. Then it has exactly
the nodes of that path, each at its height (`Follows.at?_eq_some_iff`). Where a node of the chain
stands, the chain up to there is the path to that node (`Follows.take`): this is why `setTip` may
keep that part, and lists the path to the new tip again (`Follows.setTip`).
-/

namespace MergedWork.ActiveChain

open BlockIndex

variable {c : ActiveChain} {ix ix' : BlockIndex} {tip : Option Nat} {id : Nat} {n : Node}

/-- The chain lists the nodes of the path to the tip, root first. -/
def Follows (c : ActiveChain) (ix : BlockIndex) (tip : Option Nat) : Prop :=
  c.ids.toList = ((ix.pathFrom tip).map Node.id).reverse

theorem follows_empty (ix : BlockIndex) : empty.Follows ix none := rfl

/-- To each tip there is one chain. -/
theorem Follows.unique {c' : ActiveChain} (h : c.Follows ix tip) (h' : c'.Follows ix tip) :
    c = c' := by
  obtain ⟨ids⟩ := c
  obtain ⟨ids'⟩ := c'
  exact congrArg mk (Array.toList_inj.1 (h.trans h'.symm))

/-! ## The nodes of the chain -/

theorem Follows.at?_eq (h : c.Follows ix tip) (height : Nat) :
    c.at? height = (ix.pathFrom tip).reverse[height]?.map Node.id := by
  rw [at?, ← Array.getElem?_toList, h, ← List.map_reverse, List.getElem?_map]

/-- The chain has the nodes of the path, each at its height. -/
theorem Follows.at?_eq_some_iff (h : c.Follows ix tip) (wf : ix.WellFormed) {height : Nat} :
    c.at? height = some id ↔ ∃ n ∈ ix.pathFrom tip, n.height = height ∧ n.id = id := by
  rw [h.at?_eq, Option.map_eq_some_iff]
  cases tip with
  | none => simp
  | some t =>
    simp only [pathFrom_some, wf.getElem?_reverse_ancestors, and_assoc]

theorem Follows.holds_iff (h : c.Follows ix tip) (wf : ix.WellFormed)
    (hn : ix.get? n.id = some n) : c.holds n = true ↔ n ∈ ix.pathFrom tip := by
  rw [holds, decide_eq_true_iff, h.at?_eq_some_iff wf]
  constructor
  · rintro ⟨m, hm, -, hid⟩
    have hget := (wf.split_pathFrom hm).1
    rw [hid, hn, Option.some.injEq] at hget
    rw [hget]
    exact hm
  · intro hmem
    exact ⟨n, hmem, rfl, rfl⟩

/-- Each node of the chain stands at its height, and in front of it stands its parent. -/
theorem Follows.linked (h : c.Follows ix tip) (wf : ix.WellFormed) {height : Nat}
    (hat : c.at? height = some id) :
    ∃ n, ix.get? id = some n ∧ n.height = height ∧
      n.prev = if height = 0 then none else c.at? (height - 1) := by
  obtain ⟨n, hmem, rfl, rfl⟩ := (h.at?_eq_some_iff wf).1 hat
  obtain ⟨hn, front, hsplit⟩ := wf.split_pathFrom hmem
  refine ⟨n, hn, rfl, ?_⟩
  cases hprev : n.prev with
  | none => rw [if_pos ((wf.placed n.id n hn).root hprev).1]
  | some p =>
    obtain ⟨-, q, hq, hheight, -⟩ := (wf.placed n.id n hn).child p hprev
    have hqmem : q ∈ ix.pathFrom tip := by
      rw [hsplit, wf.ancestors_eq_cons hn, hprev, pathFrom_some, wf.ancestors_eq_cons hq]
      simp
    have hqid : q.id = p := (wf.placed p q hq).id_eq
    rw [if_neg (by omega), hheight, Nat.add_sub_cancel]
    exact ((h.at?_eq_some_iff wf).2 ⟨q, hqmem, rfl, hqid⟩).symm

theorem Follows.tip?_eq (h : c.Follows ix (some id)) (wf : ix.WellFormed)
    (hn : ix.get? id = some n) : c.tip? = some id := by
  rw [tip?, ← Array.getLast?_toList, h, pathFrom_some, wf.ancestors_eq_cons hn, List.map_cons,
    List.reverse_cons, List.getLast?_append, List.getLast?_singleton, (wf.placed id n hn).id_eq]
  rfl

/-- The chain starts with a root. -/
theorem Follows.exists_genesis (h : c.Follows ix (some id)) (wf : ix.WellFormed)
    (hn : ix.get? id = some n) :
    ∃ r, c.genesis? = some r.id ∧ ix.get? r.id = some r ∧ r.prev = none := by
  obtain ⟨front, r, hpath, hr, hroot⟩ := wf.exists_root hn
  refine ⟨r, ?_, hr, hroot⟩
  rw [genesis?, ← Array.getElem?_toList, h, pathFrom_some, hpath, ← List.head?_eq_getElem?,
    List.head?_reverse, List.map_append, List.map_singleton, List.getLast?_append,
    List.getLast?_singleton]
  rfl

/-- New nodes do not change what the chain follows. -/
theorem Follows.of_extends (h : c.Follows ix (some id)) (wf : ix.WellFormed)
    (wf' : ix'.WellFormed) (hext : Extends ix ix') (hn : ix.get? id = some n) :
    c.Follows ix' (some id) := by
  rw [Follows, pathFrom_some, wf.ancestors_of_extends wf' hext hn]
  exact h

/-- A chain goes on with a node behind its tip. -/
theorem Follows.push {p : Nat} (h : c.Follows ix (some p)) (wf : ix.WellFormed)
    (hn : ix.get? id = some n) (hprev : n.prev = some p) :
    Follows ⟨c.ids.push id⟩ ix (some id) := by
  have hpath : ix.pathFrom (some id) = n :: ix.pathFrom (some p) := by
    rw [pathFrom_some, wf.ancestors_eq_cons hn, hprev]
  rw [Follows, Array.toList_push, h, hpath, List.map_cons, List.reverse_cons,
    (wf.placed id n hn).id_eq]

/-! ## Moving the tip -/

/-- Up to a node that stands in it, the chain is the path to that node. -/
theorem Follows.take (h : c.Follows ix tip) (wf : ix.WellFormed) (hn : ix.get? n.id = some n)
    (hholds : c.holds n = true) :
    c.ids.toList.take (n.height + 1) = ((ix.ancestors n.id).map Node.id).reverse := by
  obtain ⟨-, front, hsplit⟩ := wf.split_pathFrom ((h.holds_iff wf hn).1 hholds)
  have hlen : n.height + 1 = (((ix.ancestors n.id).map Node.id).reverse).length := by
    rw [List.length_reverse, List.length_map, wf.length_ancestors hn]
  rw [h, hsplit, List.map_append, List.reverse_append, hlen, List.take_left]

/-- Moving the tip gives the path to the new tip. -/
theorem Follows.setTip (h : c.Follows ix tip) (wf : ix.WellFormed) (new : Option Nat) :
    (c.setTip ix new).1.Follows ix new := by
  cases new with
  | none => exact follows_empty ix
  | some id =>
    have hwalk : ix.walkUntil c.holds (id + 1) (some id) =
        ((ix.ancestors id).takeWhile fun n => !c.holds n, (ix.ancestors id).find? c.holds) :=
      walkUntil_eq ix c.holds (id + 1) (some id)
    rw [Follows, ActiveChain.setTip, hwalk, pathFrom_some]
    cases hfork : (ix.ancestors id).find? c.holds with
    | none =>
      -- No node of the path stands in the chain, so that nothing of the chain is kept.
      have hfresh : (ix.ancestors id).takeWhile (fun n => !c.holds n) = ix.ancestors id := by
        rw [List.takeWhile_eq_self_iff]
        intro n hn
        simpa using List.find?_eq_none.1 hfork n hn
      simp [hfresh]
    | some fork =>
      obtain ⟨hholds, front, back, hsplit, hfront⟩ := List.find?_eq_some_iff_append.1 hfork
      obtain ⟨hn, hpath⟩ := wf.ancestors_of_eq_append hsplit
      have hfresh : (ix.ancestors id).takeWhile (fun n => !c.holds n) = front := by
        rw [hsplit, List.takeWhile_append_of_pos hfront, List.takeWhile_cons_of_neg (by simp [hholds]),
          List.append_nil]
      have hkept := h.take wf hn hholds
      rw [hpath] at hkept
      rw [hfresh, hsplit]
      simp [hkept]

end MergedWork.ActiveChain
