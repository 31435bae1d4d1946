import MergedWork.Proofs.ActiveChain.Path
import MergedWork.Proofs.BlockIndex.Meet

/-!
# Moving the tip in place

The slots of a chain can be kept while the tip moves: the slots above the new tip are dropped, and
on the way back from it each node is written into its slot, up to the first that stands there
already. Slots in between hold other nodes of the old path for a while, or the new tip where the
chain grows by more than one. In the end the chain has as many slots as the new tip's height asks
for, and it is the one that `setTip` gives (`Follows.setTipInPlace?_eq`).
-/

namespace MergedWork.ActiveChain

open BlockIndex

variable {c : ActiveChain} {ix : BlockIndex} {tip start : Option Nat} {id height i x : Nat}
  {n m : Node} {path : List Node} {slots : List Nat}

/-- Writes into the slot of a height. Slots up to there that are missing are filled alike. -/
def fill (slots : List Nat) (height id : Nat) : List Nat :=
  if height < slots.length then slots.set height id
  else slots ++ List.replicate (height + 1 - slots.length) id

/-- Whether a node stands in its slot. -/
def Stands (slots : List Nat) (n : Node) : Prop := slots[n.height]? = some n.id

instance (slots : List Nat) (n : Node) : Decidable (Stands slots n) :=
  inferInstanceAs (Decidable (_ = _))

/-- Writes the nodes of a path into their slots, up to the first that stands there. Gives that
node. -/
def write : List Node → List Nat → List Nat × Option Nat
  | [], slots => (slots, none)
  | n :: path, slots =>
    if Stands slots n then (slots, some n.id) else write path (fill slots n.height n.id)

/-- Moves the tip in place. There is no result if the slots do not reach from the new tip to its
root. -/
def setTipInPlace? (c : ActiveChain) (ix : BlockIndex) (id : Nat) :
    Option (ActiveChain × Option Nat) :=
  match ix.get? id with
  | none => none
  | some n =>
    let (slots, fork) := write (ix.ancestors id) (c.ids.toList.take (n.height + 1))
    if slots.length = n.height + 1 then some (⟨slots.toArray⟩, fork) else none

/-! ## Slots -/

theorem fill_of_lt (h : height < slots.length) : fill slots height id = slots.set height id :=
  if_pos h

theorem getElem?_fill_of_lt (h : i < height) :
    (fill slots height id)[i]? = if i < slots.length then slots[i]? else some id := by
  unfold fill
  split_ifs with hlt hi hi
  · rw [List.getElem?_set_ne (Nat.ne_of_gt h)]
  · omega
  · rw [List.getElem?_append_left hi]
  · rw [List.getElem?_append_right (Nat.le_of_not_lt hi), List.getElem?_replicate,
      if_pos (by omega)]

theorem take_fill (h : i ≤ height) (hi : i ≤ slots.length) :
    (fill slots height id).take i = slots.take i := by
  unfold fill
  split_ifs
  · exact List.take_set_of_le h
  · exact List.take_append_of_le_length hi

theorem drop_fill (h : slots.length ≤ height + 1) : (fill slots height id).drop height = [id] := by
  unfold fill
  split_ifs with hlt
  · rw [List.drop_set, if_neg (Nat.lt_irrefl _), List.drop_eq_getElem_cons hlt,
      List.drop_eq_nil_of_le h, Nat.sub_self, List.set_cons_zero]
  · rw [List.drop_append, List.drop_eq_nil_of_le (Nat.le_of_not_lt hlt), List.nil_append,
      List.drop_replicate, show height + 1 - slots.length - (height - slots.length) = 1 by omega]
    rfl

theorem le_length_fill : height ≤ (fill slots height id).length := by
  unfold fill
  split_ifs with h
  · rw [List.length_set]
    exact Nat.le_of_lt h
  · rw [List.length_append, List.length_replicate]
    omega

theorem stands_iff_holds : Stands c.ids.toList n ↔ c.holds n = true := by
  rw [Stands, holds, at?, Array.getElem?_toList, decide_eq_true_iff]

theorem stands_set_iff (h : m.height < height) : Stands (slots.set height id) m ↔ Stands slots m := by
  rw [Stands, Stands, List.getElem?_set_ne (Nat.ne_of_gt h)]

/-! ## Writing a path -/

/-- Into slots that reach high enough, and in which each node of the path that stands there ends
its own path, the whole path is written. What stands above it stays. -/
theorem write_pathFrom (wf : ix.WellFormed) (hlen : (ix.pathFrom start).length ≤ slots.length)
    (hstands : ∀ m ∈ ix.pathFrom start, Stands slots m →
      slots.take (m.height + 1) = ((ix.ancestors m.id).map Node.id).reverse) :
    write (ix.pathFrom start) slots =
      (((ix.pathFrom start).map Node.id).reverse ++ slots.drop (ix.pathFrom start).length,
        ((ix.pathFrom start).find? fun m => Stands slots m).map Node.id) := by
  generalize hpath : ix.pathFrom start = path at hlen hstands ⊢
  induction path generalizing start slots with
  | nil => rfl
  | cons n path ih =>
    obtain ⟨-, hanc, hprev, hheight, hlow⟩ := wf.of_pathFrom_eq_cons hpath
    rw [List.length_cons] at hlen
    by_cases hhere : Stands slots n
    · have htake := hstands n List.mem_cons_self hhere
      rw [hanc, hheight] at htake
      rw [write, if_pos hhere, List.find?_cons_of_pos (by simpa using hhere), ← htake,
        List.length_cons, List.take_append_drop]
      rfl
    · -- Nodes further down the path stand as they did, since the slot that is written is above them.
      have hlt : path.length < slots.length := hlen
      have hsame : ∀ m ∈ path, Stands (slots.set path.length n.id) m ↔ Stands slots m :=
        fun m hm => stands_set_iff (hheight ▸ hlow m hm)
      have hlen' : path.length ≤ (slots.set path.length n.id).length := by
        rw [List.length_set]
        omega
      have hwrite := ih hprev hlen' fun m hm hm' => by
        have := hlow m hm
        rw [List.take_set_of_le (by omega)]
        exact hstands m (List.mem_cons_of_mem n hm) ((hsame m hm).1 hm')
      rw [write, if_neg hhere, hheight, fill_of_lt hlt, hwrite,
        List.find?_cons_of_neg (by simpa using hhere),
        List.find?_congr fun m hm => decide_eq_decide.2 (hsame m hm), List.drop_set,
        if_neg (Nat.lt_irrefl _), Nat.sub_self, List.drop_eq_getElem_cons hlt, List.set_cons_zero,
        List.map_cons, List.reverse_cons, List.append_assoc]
      rfl

/-! ## Moving the tip -/

theorem setTip_snd (c : ActiveChain) (ix : BlockIndex) (id : Nat) :
    (c.setTip ix (some id)).2 = ((ix.ancestors id).find? c.holds).map Node.id := by
  rw [setTip, walkUntil_eq]
  rfl

/-- After the new tip is written, the nodes below it that stand in their slots are those that stand
in the chain. Missing slots hold the new tip, which is none of them. -/
theorem stands_fill_iff (hn : ix.get? n.id = some n)
    (hm : ix.get? m.id = some m) (hlt : m.height < n.height) :
    Stands (fill (c.ids.toList.take (n.height + 1)) n.height n.id) m ↔ c.holds m = true := by
  rw [Stands, getElem?_fill_of_lt hlt, List.length_take, ← stands_iff_holds, Stands]
  split_ifs with hlen
  · rw [List.getElem?_take_of_lt (by omega)]
  · have hnone : c.ids.toList[m.height]? = none := List.getElem?_eq_none (by omega)
    rw [hnone, Option.some.injEq]
    refine iff_of_false (fun hid => ?_) nofun
    rw [← hid, hn, Option.some.injEq] at hm
    exact absurd hlt (hm ▸ Nat.lt_irrefl _)

/-- Into the slots of a chain, cut off above the new tip, the whole path of the tip is written. -/
theorem Follows.write_ancestors (h : c.Follows ix tip) (wf : ix.WellFormed)
    (hn : ix.get? id = some n) :
    write (ix.ancestors id) (c.ids.toList.take (n.height + 1)) =
      (((ix.ancestors id).map Node.id).reverse,
        ((ix.ancestors id).find? c.holds).map Node.id) := by
  obtain rfl : n.id = id := (wf.placed id n hn).id_eq
  have hpath : ix.pathFrom (some n.id) = n :: ix.pathFrom n.prev := wf.ancestors_eq_cons hn
  obtain ⟨-, -, -, hheight, hlow⟩ := wf.of_pathFrom_eq_cons hpath
  rw [pathFrom_some] at hpath
  by_cases hholds : c.holds n = true
  · have hhere : Stands (c.ids.toList.take (n.height + 1)) n := by
      rw [Stands, List.getElem?_take_of_lt (Nat.lt_succ_self _)]
      exact stands_iff_holds.2 hholds
    have htake := h.take wf hn hholds
    rw [hpath] at htake ⊢
    rw [write, if_pos hhere, htake, List.find?_cons_of_pos hholds]
    rfl
  · have hhere : ¬ Stands (c.ids.toList.take (n.height + 1)) n := by
      rw [Stands, List.getElem?_take_of_lt (Nat.lt_succ_self _)]
      exact mt stands_iff_holds.1 hholds
    have hsame : ∀ m ∈ ix.pathFrom n.prev,
        Stands (fill (c.ids.toList.take (n.height + 1)) n.height n.id) m ↔ c.holds m = true :=
      fun m hm => stands_fill_iff hn (wf.split_pathFrom hm).1 (hlow m hm)
    have hlen : (c.ids.toList.take (n.height + 1)).length ≤ n.height + 1 := List.length_take_le _ _
    have hlow' : (ix.pathFrom n.prev).length ≤
        (fill (c.ids.toList.take (n.height + 1)) n.height n.id).length := by
      rw [← hheight]
      exact le_length_fill
    have hwrite := write_pathFrom wf hlow' fun m hm hm' => by
      have hholds' := (hsame m hm).1 hm'
      have hlt := hlow m hm
      -- The slot of `m` is one of the old chain, so that the tip is not written below it.
      have hslot : m.height < c.ids.toList.length :=
        (List.getElem?_eq_some_iff.1 (stands_iff_holds.2 hholds')).1
      rw [take_fill (by omega) (by rw [List.length_take]; omega), List.take_take,
        Nat.min_eq_left (by omega)]
      exact h.take wf (wf.split_pathFrom hm).1 hholds'
    have hfind : ((ix.pathFrom n.prev).find? fun m =>
          Stands (fill (c.ids.toList.take (n.height + 1)) n.height n.id) m) =
        (ix.pathFrom n.prev).find? c.holds :=
      List.find?_congr fun m hm => by
        rw [Bool.eq_iff_iff, decide_eq_true_iff]
        exact hsame m hm
    rw [hpath, write, if_neg hhere, hwrite, hfind, ← hheight, drop_fill hlen,
      List.find?_cons_of_neg (by simpa using hholds), List.map_cons, List.reverse_cons]

/-- Moving the tip in place always has a result, and gives what `setTip` does. -/
theorem Follows.setTipInPlace?_eq (h : c.Follows ix tip) (wf : ix.WellFormed)
    (hn : ix.get? id = some n) :
    c.setTipInPlace? ix id = some (c.setTip ix (some id)) := by
  have hnew : (c.setTip ix (some id)).1.Follows ix (some id) := h.setTip wf (some id)
  have hlen : ((ix.ancestors id).map Node.id).reverse.length = n.height + 1 := by
    rw [List.length_reverse, List.length_map, wf.length_ancestors hn]
  rw [setTipInPlace?, hn]
  simp only [h.write_ancestors wf hn, hlen, if_true]
  rw [← setTip_snd, ← pathFrom_some, ← hnew]

end MergedWork.ActiveChain
