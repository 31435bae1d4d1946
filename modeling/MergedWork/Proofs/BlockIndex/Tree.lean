import MergedWork.BlockIndex
import Mathlib.Tactic.Common

/-!
# The tree of nodes

`BlockIndex.WellFormed` says that the nodes of an index form a tree that is read off their places:
each node carries its own place, its parent stands before it, height and work follow from the
parent, and no two nodes have the same hash. Adding a node behind a known parent keeps all this
(`WellFormed.push`), and `insert` adds a node in no other way (`insert_eq_ok_cases`).
-/

namespace MergedWork.BlockIndex

variable {ix ix' : BlockIndex} {i j : Nat} {n m : Node} {hash : Digest}

/-- What a node at a place has to be, given the nodes of the index. -/
structure Placed (ix : BlockIndex) (i : Nat) (n : Node) : Prop where
  id_eq : n.id = i
  root : n.prev = none → n.height = 0 ∧ n.chainWork = n.work
  child : ∀ p, n.prev = some p → p < i ∧ ∃ q, ix.get? p = some q ∧ n.height = q.height + 1 ∧
    n.chainWork = addWork q.chainWork n.work

/-- The nodes form a tree, with one node for each hash. -/
structure WellFormed (ix : BlockIndex) : Prop where
  placed : ∀ i n, ix.get? i = some n → Placed ix i n
  hash_inj : ∀ i j n m, ix.get? i = some n → ix.get? j = some m → n.hash = m.hash → i = j

/-- All nodes of the one index stand in the other, in the same places. -/
def Extends (ix ix' : BlockIndex) : Prop := ∀ i n, ix.get? i = some n → ix'.get? i = some n

/-! ## Looking up -/

theorem lt_size_of_get? (h : ix.get? i = some n) : i < ix.size :=
  (Array.getElem?_eq_some_iff.1 h).1

theorem lt_size_of_some_get? (h : ix.get? i = some n) : ∀ j ∈ some i, j < ix.size := by
  intro j hj
  cases hj
  exact lt_size_of_get? h

theorem get?_of_lt_size (h : i < ix.size) : ∃ n, ix.get? i = some n :=
  ⟨_, Array.getElem?_eq_getElem h⟩

theorem mem_nodes_iff : n ∈ ix.nodes.toList ↔ ∃ i, ix.get? i = some n := by
  rw [Array.mem_toList_iff, Array.mem_iff_getElem?]
  rfl

theorem lookup?_eq_none_iff :
    ix.lookup? hash = none ↔ ∀ i n, ix.get? i = some n → n.hash ≠ hash := by
  rw [lookup?, Array.findIdx?_eq_none_iff]
  constructor
  · intro h i n hn
    exact of_decide_eq_false (h n (Array.mem_of_getElem? hn))
  · intro h n hn
    obtain ⟨i, hi⟩ := Array.getElem?_of_mem hn
    exact decide_eq_false (h i n hi)

theorem hash_of_lookup? (h : ix.lookup? hash = some i) : ∃ n, ix.get? i = some n ∧ n.hash = hash := by
  obtain ⟨hi, hhash, -⟩ := Array.findIdx?_eq_some_iff_getElem.1 h
  exact ⟨ix.nodes[i], Array.getElem?_eq_getElem hi, of_decide_eq_true hhash⟩

theorem WellFormed.lookup?_eq_some_iff (wf : ix.WellFormed) :
    ix.lookup? hash = some i ↔ ∃ n, ix.get? i = some n ∧ n.hash = hash := by
  refine ⟨hash_of_lookup?, fun ⟨n, hn, hhash⟩ => ?_⟩
  cases hfind : ix.lookup? hash with
  | none => exact absurd hhash (lookup?_eq_none_iff.1 hfind i n hn)
  | some j =>
    obtain ⟨m, hm, hhash'⟩ := hash_of_lookup? hfind
    rw [wf.hash_inj j i m n hm hn (hhash'.trans hhash.symm)]

/-- A parent is in the index. -/
theorem WellFormed.lt_size_of_prev (wf : ix.WellFormed) (hn : ix.get? i = some n) :
    ∀ p ∈ n.prev, p < ix.size := fun p hp =>
  Nat.lt_trans ((wf.placed i n hn).child p hp).1 (lt_size_of_get? hn)

theorem WellFormed.eq_of_hash_eq (wf : ix.WellFormed) (hn : ix.get? n.id = some n)
    (hm : ix.get? m.id = some m) (hhash : n.hash = m.hash) : n = m := by
  have hid := wf.hash_inj n.id m.id n m hn hm hhash
  rw [hid, hm, Option.some.injEq] at hn
  exact hn.symm

theorem contains_iff : ix.contains hash = true ↔ ∃ i n, ix.get? i = some n ∧ n.hash = hash := by
  rw [contains, Option.isSome_iff_ne_none, ne_eq, lookup?_eq_none_iff]
  simp only [not_forall, not_not, exists_prop]

theorem contains_of_extends (hext : Extends ix ix') (h : ix.contains hash = true) :
    ix'.contains hash = true := by
  rw [contains_iff] at h ⊢
  obtain ⟨i, n, hn, hhash⟩ := h
  exact ⟨i, n, hext i n hn, hhash⟩

theorem node?_eq_some_iff {n : Node} :
    ix.node? hash = some n ↔ ∃ i, ix.lookup? hash = some i ∧ ix.get? i = some n := by
  rw [node?, Option.bind_eq_some_iff]

/-! ## Adding a node -/

@[simp] theorem size_push (ix : BlockIndex) (n : Node) (prev : Option Nat) :
    (ix.push n prev).1.size = ix.size + 1 :=
  Array.size_push _

theorem get?_push (ix : BlockIndex) (n : Node) (prev : Option Nat) (i : Nat) :
    (ix.push n prev).1.get? i =
      if i = ix.size then some (n.linked ix.size prev (prev.bind ix.get?)) else ix.get? i :=
  Array.getElem?_push

theorem get?_push_size (ix : BlockIndex) (n : Node) (prev : Option Nat) :
    (ix.push n prev).1.get? ix.size = some (n.linked ix.size prev (prev.bind ix.get?)) := by
  rw [get?_push, if_pos rfl]

theorem get?_push_cases {prev : Option Nat} (hm : (ix.push n prev).1.get? i = some m) :
    i = ix.size ∧ m = n.linked ix.size prev (prev.bind ix.get?) ∨ ix.get? i = some m := by
  rw [get?_push] at hm
  split_ifs at hm with hi
  · exact Or.inl ⟨hi, (Option.some.inj hm).symm⟩
  · exact Or.inr hm

theorem extends_push (ix : BlockIndex) (n : Node) (prev : Option Nat) :
    Extends ix (ix.push n prev).1 := by
  intro i m hm
  rw [get?_push, if_neg (Nat.ne_of_lt (lt_size_of_get? hm))]
  exact hm

theorem Placed.of_extends (h : Placed ix i n) (hext : Extends ix ix') : Placed ix' i n where
  id_eq := h.id_eq
  root := h.root
  child p hp := by
    obtain ⟨hlt, q, hq, hheight, hwork⟩ := h.child p hp
    exact ⟨hlt, q, hext p q hq, hheight, hwork⟩

end MergedWork.BlockIndex

namespace MergedWork.Node

variable (n : Node) (id : Nat) (prev : Option Nat) (parent : Option Node)

@[simp] theorem hash_linked : (n.linked id prev parent).hash = n.hash := by cases parent <;> rfl

@[simp] theorem id_linked : (n.linked id prev parent).id = id := by cases parent <;> rfl

@[simp] theorem prev_linked : (n.linked id prev parent).prev = prev := by cases parent <;> rfl

@[simp] theorem status_linked : (n.linked id prev parent).status = n.status := by
  cases parent <;> rfl

end MergedWork.Node

namespace MergedWork.BlockIndex

variable {ix ix' : BlockIndex} {i j : Nat} {n m : Node} {hash : Digest} {prev : Option Nat}

theorem lookup?_push (ix : BlockIndex) (n : Node) (prev : Option Nat) (hash : Digest) :
    (ix.push n prev).1.lookup? hash =
      (ix.lookup? hash).or (if n.hash = hash then some ix.size else none) := by
  rw [push, lookup?, Array.findIdx?_push, Node.hash_linked]
  simp only [decide_eq_true_eq]
  rfl

theorem placed_linked (hprev : ∀ p, prev = some p → p < ix.size) (hext : Extends ix ix') :
    Placed ix' ix.size (n.linked ix.size prev (prev.bind ix.get?)) where
  id_eq := Node.id_linked ..
  root h := by
    rw [Node.prev_linked] at h
    subst h
    exact ⟨rfl, rfl⟩
  child p h := by
    rw [Node.prev_linked] at h
    subst h
    obtain ⟨q, hq⟩ := get?_of_lt_size (hprev p rfl)
    rw [Option.bind_some, hq]
    exact ⟨hprev p rfl, q, hext p q hq, rfl, rfl⟩

theorem get?_empty (rule : ForkRule) (i : Nat) : (empty rule).get? i = none := rfl

theorem lookup?_empty (rule : ForkRule) (hash : Digest) : (empty rule).lookup? hash = none :=
  lookup?_eq_none_iff.2 fun i _ h => nomatch (get?_empty rule i).symm.trans h

theorem wellFormed_empty (rule : ForkRule) : (empty rule).WellFormed where
  placed i _ h := nomatch (get?_empty rule i).symm.trans h
  hash_inj i _ _ _ h _ _ := nomatch (get?_empty rule i).symm.trans h

/-- Adding a node with a new hash behind a node of the tree gives a tree. -/
theorem WellFormed.push (wf : ix.WellFormed) (hnew : ix.lookup? n.hash = none)
    (hprev : ∀ p, prev = some p → p < ix.size) : (ix.push n prev).1.WellFormed where
  placed i m hm := by
    rw [get?_push] at hm
    split_ifs at hm with hi
    · cases hm
      subst hi
      exact placed_linked hprev (extends_push ix n prev)
    · exact (wf.placed i m hm).of_extends (extends_push ix n prev)
  hash_inj i j m m' hm hm' hhash := by
    have hno := lookup?_eq_none_iff.1 hnew
    rw [get?_push] at hm hm'
    split_ifs at hm hm' with hi hj hj
    · rw [hi, hj]
    · cases hm
      rw [Node.hash_linked] at hhash
      exact absurd hhash.symm (hno j m' hm')
    · cases hm'
      rw [Node.hash_linked] at hhash
      exact absurd hhash (hno i m hm)
    · exact wf.hash_inj i j m m' hm hm' hhash

/-! ## Adding a header -/

/-- The node of a header before it is placed. -/
def freshNode (h : Header) : Node :=
  { Node.ofHeader h with status := (Node.ofHeader h).status.raise Status.validTree }

@[simp] theorem isFailed_freshNode (h : Header) : (freshNode h).status.isFailed = false := by
  change (Status.unknown.raise Status.validTree).isFailed = false
  decide

/-- What adding a header does: nothing if it is known, and otherwise one node is added, without a
parent if the header has no predecessor, and else behind the node of the predecessor. -/
theorem insert_eq_ok_cases {h : Header} (hok : ix.insert h = .ok (ix', i)) :
    (ix.lookup? h.hash = some i ∧ ix' = ix) ∨
      ix.lookup? h.hash = none ∧ i = ix.size ∧
        (h.previous = .zero ∧ ix' = (ix.push (freshNode h) none).1 ∨
          ∃ p, h.previous ≠ .zero ∧ ix.lookup? h.previous = some p ∧
            ix' = (ix.push (freshNode h) (some p)).1) := by
  dsimp only [insert] at hok
  cases hfind : ix.lookup? h.hash with
  | some id =>
    rw [hfind] at hok
    cases hok
    exact Or.inl ⟨rfl, rfl⟩
  | none =>
    simp only [hfind] at hok
    split_ifs at hok with hzero
    · cases hok
      exact Or.inr ⟨rfl, rfl, Or.inl ⟨hzero, rfl⟩⟩
    · cases hprev : ix.lookup? h.previous with
      | none =>
        rw [hprev] at hok
        cases hok
      | some p =>
        rw [hprev] at hok
        cases hok
        exact Or.inr ⟨rfl, rfl, Or.inr ⟨p, hzero, rfl, rfl⟩⟩

theorem lt_size_of_lookup? (h : ix.lookup? hash = some i) : i < ix.size := by
  obtain ⟨n, hn, -⟩ := hash_of_lookup? h
  exact lt_size_of_get? hn

/-- A place that was found may be the parent of a new node. -/
theorem lt_size_of_some_lookup? (h : ix.lookup? hash = some i) :
    ∀ p, some i = some p → p < ix.size := by
  intro p hp
  cases hp
  exact lt_size_of_lookup? h

theorem WellFormed.insert (wf : ix.WellFormed) {h : Header} (hok : ix.insert h = .ok (ix', i)) :
    ix'.WellFormed := by
  rcases insert_eq_ok_cases hok with ⟨-, rfl⟩ | ⟨hnew, -, ⟨-, rfl⟩ | ⟨p, -, hp, rfl⟩⟩
  · exact wf
  · exact wf.push hnew nofun
  · refine wf.push hnew fun q hq => ?_
    cases hq
    exact lt_size_of_lookup? hp

end MergedWork.BlockIndex
