import MergedWork.Proofs.BlockIndex.History
import Mathlib.Algebra.GroupWithZero.Nat
import Mathlib.Data.List.Basic

/-!
# Counting transactions

The number of transactions of a chain is added up where the data of a block are recorded, from the
sum of the block before it. So a node knows the sum of its chain exactly if all blocks of the chain
were recorded, each after the block before it (`chainTx_of_recorded`): when data come in later for a
block than for one behind it, the sum of the latter is not made up for (`late_parent_not_counted`).
-/

namespace MergedWork.BlockIndex

variable {rule : ForkRule} {ix ix' : BlockIndex} {order : List Nat} {id i : Nat} {n m : Node}
  {prev start : Option Nat}

/-- An index whose headers were inserted and the data of whose blocks were recorded, with the places
of these blocks, the last first. Each block is recorded once, and has transactions. -/
inductive Recorded (rule : ForkRule) : BlockIndex → List Nat → Prop
  | empty : Recorded rule (.empty rule) []
  | insert {ix : BlockIndex} {order : List Nat} (h : Recorded rule ix order) (header : Header) :
      Recorded rule (ix.apply (.insert header)) order
  | setBlockData {ix : BlockIndex} {order : List Nat} {id txCount : Nat} (h : Recorded rule ix order)
      (pos : DiskPos) (hknown : id < ix.size) (hnew : id ∉ order) (hcount : 0 < txCount) :
      Recorded rule (ix.setBlockData id txCount pos) (id :: order)

/-! ## Sums and places along a path -/

/-- The number of transactions on the path from where a walk starts. -/
def totalTx (ix : BlockIndex) (start : Option Nat) : Nat :=
  ((ix.pathFrom start).map Node.txCount).sum

/-- The places on the path from where a walk starts, newest first. -/
def places (ix : BlockIndex) (start : Option Nat) : List Nat := (ix.pathFrom start).map Node.id

theorem WellFormed.totalTx_some (wf : ix.WellFormed) (hn : ix.get? id = some n) :
    ix.totalTx (some id) = n.txCount + ix.totalTx n.prev := by
  rw [totalTx, pathFrom_some, wf.ancestors_eq_cons hn, List.map_cons, List.sum_cons, totalTx]

theorem WellFormed.places_some (wf : ix.WellFormed) (hn : ix.get? id = some n) :
    ix.places (some id) = id :: ix.places n.prev := by
  rw [places, pathFrom_some, wf.ancestors_eq_cons hn, List.map_cons, (wf.placed id n hn).id_eq,
    places]

theorem WellFormed.mem_places (wf : ix.WellFormed) (hn : ix.get? id = some n) :
    id ∈ ix.places (some id) := by
  rw [wf.places_some hn]
  exact List.mem_cons_self

theorem SameTree.places_eq (h : SameTree ix ix') (start : Option Nat) :
    ix'.places start = ix.places start := by
  cases start with
  | none => rfl
  | some id =>
    have hids : (Node.Entry.id ∘ Node.entry) = Node.id := rfl
    have := congrArg (List.map Node.Entry.id) (h.map_entry_recent (id + 1) (some id))
    rwa [List.map_map, List.map_map, hids] at this

/-- Where two indexes hold the same nodes along a path, they hold the same path. -/
theorem WellFormed.ancestors_congr (wf : ix.WellFormed) (wf' : ix'.WellFormed)
    (hn : ix.get? id = some n)
    (hsame : ∀ i ∈ ix.places (some id), ix'.get? i = ix.get? i) :
    ix'.ancestors id = ix.ancestors id := by
  induction id using Nat.strongRecOn generalizing n with
  | _ id ih =>
    rw [wf.places_some hn] at hsame
    obtain ⟨hid, hrest⟩ := List.forall_mem_cons.1 hsame
    rw [wf.ancestors_eq_cons hn, wf'.ancestors_eq_cons (hid.trans hn)]
    cases hprev : n.prev with
    | none => rfl
    | some p =>
      obtain ⟨hlt, q, hq, -⟩ := (wf.placed id n hn).child p hprev
      rw [hprev] at hrest
      rw [pathFrom_some, pathFrom_some, ih p hlt hq hrest]

/-! ## What is counted -/

/-- A node knows the sum of its chain if the blocks of the chain were recorded from the root on, and
knows nothing otherwise. -/
structure Counted (ix : BlockIndex) (order : List Nat) : Prop where
  wellFormed : ix.WellFormed
  known : ∀ i ∈ order, i < ix.size
  counted : ∀ i ∈ order, ∀ n, ix.get? i = some n → 0 < n.txCount
  chainTx_eq : ∀ i n, ix.get? i = some n →
    n.chainTx = if (ix.places (some i)).Sublist order then ix.totalTx (some i) else 0

theorem counted_empty (rule : ForkRule) : Counted (.empty rule) [] where
  wellFormed := wellFormed_empty rule
  known := nofun
  counted := nofun
  chainTx_eq i _ h := nomatch (get?_empty rule i).symm.trans h

theorem Counted.chainTxBefore_eq (h : Counted ix order) (hn : ix.get? id = some n) :
    ix.chainTxBefore n = if (ix.places n.prev).Sublist order then ix.totalTx n.prev else 0 := by
  cases hprev : n.prev with
  | none =>
    rw [chainTxBefore, hprev, totalTx, pathFrom_none, Option.bind_none, Option.map_none,
      Option.getD_none, List.map_nil, List.sum_nil, ite_self]
  | some p =>
    obtain ⟨-, q, hq, -⟩ := (h.wellFormed.placed id n hn).child p hprev
    rw [chainTxBefore, hprev, Option.bind_some, hq, Option.map_some, Option.getD_some,
      h.chainTx_eq p q hq]

/-- A chain whose blocks were recorded has transactions. -/
theorem Counted.totalTx_pos (h : Counted ix order) (hn : ix.get? id = some n)
    (hsub : (ix.places (some id)).Sublist order) : 0 < ix.totalTx (some id) := by
  have hmem : id ∈ order := hsub.subset (h.wellFormed.mem_places hn)
  rw [h.wellFormed.totalTx_some hn]
  exact Nat.add_pos_left (h.counted id hmem n hn) _

/-! ## Inserting -/

theorem chainTx_linked_of_uncounted (hcount : n.txCount = 0) (hchain : n.chainTx = 0)
    (id : Nat) (prev : Option Nat) (parent : Option Node) : (n.linked id prev parent).chainTx = 0 := by
  cases parent with
  | none => exact hcount
  | some p => simp [Node.linked, hcount, hchain]

/-- A new node is not recorded, and so there is nothing that it could know. -/
theorem Counted.push (h : Counted ix order) (hnew : ix.lookup? n.hash = none)
    (hprev : ∀ p, prev = some p → p < ix.size) (hcount : n.txCount = 0) (hchain : n.chainTx = 0) :
    Counted (ix.push n prev).1 order := by
  have wf' := h.wellFormed.push hnew hprev
  refine ⟨wf', fun i hi => ?_, fun i hi m hm => ?_, fun i m hm => ?_⟩
  · rw [size_push]
    exact Nat.lt_succ_of_lt (h.known i hi)
  · rcases get?_push_cases hm with ⟨rfl, -⟩ | hold
    · exact absurd (h.known _ hi) (Nat.lt_irrefl _)
    · exact h.counted i hi m hold
  · rcases get?_push_cases hm with ⟨rfl, rfl⟩ | hold
    · rw [chainTx_linked_of_uncounted hcount hchain, if_neg]
      intro hsub
      exact Nat.lt_irrefl _ (h.known _ (hsub.subset (wf'.mem_places hm)))
    · have hpath : (ix.push n prev).1.pathFrom (some i) = ix.pathFrom (some i) :=
        h.wellFormed.ancestors_of_extends wf' (extends_push ix n prev) hold
      rw [places, totalTx, hpath]
      exact h.chainTx_eq i m hold

theorem Counted.insert (h : Counted ix order) (header : Header) :
    Counted (ix.apply (.insert header)) order := by
  rw [apply]
  cases hinsert : ix.insert header with
  | error rejection => exact h
  | ok added =>
    obtain ⟨ix', id⟩ := added
    rcases insert_eq_ok_cases hinsert with ⟨-, rfl⟩ | ⟨hnew, -, ⟨-, rfl⟩ | ⟨p, -, hp, rfl⟩⟩
    · exact h
    · exact h.push hnew (fun p hp => by cases hp) rfl rfl
    · exact h.push hnew (lt_size_of_some_lookup? hp) rfl rfl

/-! ## Recording -/

theorem sameTree_setBlockData (ix : BlockIndex) (id txCount : Nat) (pos : DiskPos) :
    SameTree ix (ix.setBlockData id txCount pos) :=
  sameTree_modify ix id fun _ => rfl

theorem get?_setBlockData_of_ne (txCount : Nat) (pos : DiskPos) (hne : i ≠ id) :
    (ix.setBlockData id txCount pos).get? i = ix.get? i := by
  rw [setBlockData, get?_modify, if_neg hne.symm]

/-- The block that was recorded last is the last of its chain, or does not belong to it. -/
theorem WellFormed.places_sublist_cons_iff (wf : ix.WellFormed) (hn : ix.get? i = some n) :
    (ix.places (some i)).Sublist (id :: order) ↔
      (ix.places (some i)).Sublist order ∨ i = id ∧ (ix.places n.prev).Sublist order := by
  rw [wf.places_some hn]
  exact List.cons_sublist_cons'

/-- The sum of a chain does not change when data are recorded of a block that is not in it. -/
theorem WellFormed.totalTx_setBlockData (wf : ix.WellFormed) (txCount : Nat) (pos : DiskPos)
    (hn : ix.get? i = some n) (hnot : id ∉ ix.places (some i)) :
    (ix.setBlockData id txCount pos).totalTx (some i) = ix.totalTx (some i) := by
  have wf' := wf.of_sameTree (sameTree_setBlockData ix id txCount pos)
  rw [totalTx, pathFrom_some, wf.ancestors_congr wf' hn fun j hj =>
    get?_setBlockData_of_ne txCount pos fun heq => hnot (heq ▸ hj)]
  rfl

theorem get?_setBlockData_self (txCount : Nat) (pos : DiskPos)
    (hm : (ix.setBlockData id txCount pos).get? id = some m) :
    ∃ n, ix.get? id = some n ∧ m.prev = n.prev ∧ m.txCount = txCount ∧
      m.chainTx = if n.prev = none ∨ ix.chainTxBefore n ≠ 0 then ix.chainTxBefore n + txCount
        else n.chainTx := by
  rw [setBlockData, get?_modify, if_pos rfl, Option.map_eq_some_iff] at hm
  obtain ⟨n, hn, rfl⟩ := hm
  exact ⟨n, hn, rfl, rfl, rfl⟩

theorem Counted.chainTx_self (h : Counted ix order) (hnew : id ∉ order) {txCount : Nat}
    (pos : DiskPos) (hm : (ix.setBlockData id txCount pos).get? id = some m) :
    m.chainTx = if (ix.places (some id)).Sublist (id :: order) then
      (ix.setBlockData id txCount pos).totalTx (some id) else 0 := by
  have wf := h.wellFormed
  obtain ⟨n, hn, hmprev, hcount, hchain⟩ := get?_setBlockData_self txCount pos hm
  have hself : ¬ (ix.places (some id)).Sublist order := fun hsub =>
    hnew (hsub.subset (wf.mem_places hn))
  have hiff : (ix.places (some id)).Sublist (id :: order) ↔ (ix.places n.prev).Sublist order := by
    rw [wf.places_sublist_cons_iff hn]
    simp only [hself, true_and, false_or]
  rw [hchain, h.chainTxBefore_eq hn]
  -- A recorded chain has transactions, so that a sum of zero before the block is an unknown one.
  by_cases hbefore : (ix.places n.prev).Sublist order
  · have hsame : (ix.setBlockData id txCount pos).totalTx n.prev = ix.totalTx n.prev := by
      cases hprev : n.prev with
      | none => rfl
      | some p =>
        obtain ⟨-, q, hq, -⟩ := (wf.placed id n hn).child p hprev
        exact wf.totalTx_setBlockData txCount pos hq fun hmem =>
          hnew (hbefore.subset (hprev ▸ hmem))
    have hknows : n.prev = none ∨ ix.totalTx n.prev ≠ 0 := by
      cases hprev : n.prev with
      | none => exact Or.inl rfl
      | some p =>
        obtain ⟨-, q, hq, -⟩ := (wf.placed id n hn).child p hprev
        exact Or.inr (Nat.ne_of_gt (h.totalTx_pos hq (hprev ▸ hbefore)))
    have wf' := wf.of_sameTree (sameTree_setBlockData ix id txCount pos)
    rw [if_pos (hiff.2 hbefore), if_pos hbefore, if_pos hknows, wf'.totalTx_some hm, hcount, hmprev,
      hsame, Nat.add_comm]
  · have hchild : ¬ (n.prev = none ∨ (0 : Nat) ≠ 0) := by
      rintro (hprev | hzero)
      · exact hbefore (hprev ▸ List.nil_sublist order)
      · exact hzero rfl
    rw [if_neg (mt hiff.1 hbefore), if_neg hbefore, if_neg hchild, h.chainTx_eq id n hn,
      if_neg hself]

theorem Counted.chainTx_of_ne (h : Counted ix order) (hnew : id ∉ order) (txCount : Nat)
    (pos : DiskPos) (hne : i ≠ id) (hn : ix.get? i = some n) :
    n.chainTx = if (ix.places (some i)).Sublist (id :: order) then
      (ix.setBlockData id txCount pos).totalTx (some i) else 0 := by
  have hiff : (ix.places (some i)).Sublist (id :: order) ↔ (ix.places (some i)).Sublist order := by
    rw [h.wellFormed.places_sublist_cons_iff hn]
    simp only [hne, false_and, or_false]
  rw [h.chainTx_eq i n hn]
  by_cases hsub : (ix.places (some i)).Sublist order
  · rw [if_pos hsub, if_pos (hiff.2 hsub),
      h.wellFormed.totalTx_setBlockData txCount pos hn fun hmem => hnew (hsub.subset hmem)]
  · rw [if_neg hsub, if_neg (mt hiff.1 hsub)]

theorem Counted.setBlockData (h : Counted ix order) {txCount : Nat} (pos : DiskPos)
    (hknown : id < ix.size) (hnew : id ∉ order) (hcount : 0 < txCount) :
    Counted (ix.setBlockData id txCount pos) (id :: order) := by
  have hsame := sameTree_setBlockData ix id txCount pos
  refine ⟨h.wellFormed.of_sameTree hsame, ?_, fun i hi m hm => ?_, fun i m hm => ?_⟩
  · have hsize : (ix.setBlockData id txCount pos).size = ix.size := Array.size_modify
    rw [hsize]
    exact List.forall_mem_cons.2 ⟨hknown, h.known⟩
  · by_cases hid : i = id
    · subst hid
      obtain ⟨-, -, -, htx, -⟩ := get?_setBlockData_self txCount pos hm
      rwa [htx]
    · rw [get?_setBlockData_of_ne txCount pos hid] at hm
      exact h.counted i ((List.mem_cons.1 hi).resolve_left hid) m hm
  · rw [hsame.places_eq]
    by_cases hid : i = id
    · subst hid
      exact h.chainTx_self hnew pos hm
    · rw [get?_setBlockData_of_ne txCount pos hid] at hm
      exact h.chainTx_of_ne hnew txCount pos hid hm

theorem Recorded.counted (h : Recorded rule ix order) : Counted ix order := by
  induction h with
  | empty => exact counted_empty rule
  | insert _ header ih => exact ih.insert header
  | setBlockData _ pos hknown hnew hcount ih => exact ih.setBlockData pos hknown hnew hcount

/-- A node has the sum of its chain if all blocks of the chain were recorded, each after the block
before it, and zero otherwise. -/
theorem chainTx_of_recorded (h : Recorded rule ix order) (hn : ix.get? id = some n) :
    n.chainTx = if (ix.places (some id)).Sublist order then ix.totalTx (some id) else 0 :=
  h.counted.chainTx_eq id n hn

/-- A header for the example below: a first block, or one behind a block. -/
def countedHeader (previous : Digest) : Header where
  version := ⟨1⟩
  previous := previous
  merkleRoot := .zero
  time := 1
  bits := ⟨0x207fffff⟩
  nonce := .compact 0

/-- A block of two transactions and a block of three behind it, the data of which were recorded in
the given order. -/
def countedPair (order : List (Nat × Nat)) : BlockIndex :=
  let ix := (empty Network.regtest.params.forkRule).apply (.insert (countedHeader .zero))
  let ix := ix.apply (.insert (countedHeader (countedHeader .zero).hash))
  order.foldl (fun ix (id, txCount) => ix.setBlockData id txCount ⟨0, 8⟩) ix

theorem recorded_countedPair {a b txCountA txCountB : Nat} (ha : a < 2) (hb : b < 2) (hab : a ≠ b)
    (hcountA : 0 < txCountA) (hcountB : 0 < txCountB) :
    Recorded Network.regtest.params.forkRule (countedPair [(a, txCountA), (b, txCountB)]) [b, a] := by
  have hpair : Recorded Network.regtest.params.forkRule (countedPair []) [] :=
    (Recorded.empty.insert _).insert _
  have hsize : (countedPair []).size = 2 := by decide +kernel
  have hsize' : ((countedPair []).setBlockData a txCountA ⟨0, 8⟩).size = 2 :=
    Array.size_modify.trans hsize
  have hfirst := hpair.setBlockData ⟨0, 8⟩ (hsize ▸ ha) List.not_mem_nil hcountA
  exact hfirst.setBlockData ⟨0, 8⟩ (hsize' ▸ hb) (mt List.mem_singleton.1 hab.symm) hcountB

theorem chainTx_of_recorded_pair :
    ∃ n, (countedPair [(0, 2), (1, 3)]).get? 1 = some n ∧ n.chainTx = 5 := by
  have hstate : ((countedPair [(0, 2), (1, 3)]).get? 1).isSome = true ∧
      (countedPair [(0, 2), (1, 3)]).places (some 1) = [1, 0] ∧
      (countedPair [(0, 2), (1, 3)]).totalTx (some 1) = 5 := by
    decide +kernel
  obtain ⟨hknown, hplaces, htotal⟩ := hstate
  obtain ⟨n, hn⟩ := Option.isSome_iff_exists.1 hknown
  have hrecorded : Recorded Network.regtest.params.forkRule (countedPair [(0, 2), (1, 3)]) [1, 0] :=
    recorded_countedPair (by decide) (by decide) (by decide) (by decide) (by decide)
  refine ⟨n, hn, ?_⟩
  rw [chainTx_of_recorded hrecorded hn, hplaces, if_pos (List.Sublist.refl _), htotal]

/-- Where the data of the second block come first, both blocks of its chain are recorded in the end,
and it still knows nothing. -/
theorem late_parent_not_counted :
    Recorded Network.regtest.params.forkRule (countedPair [(1, 3), (0, 2)]) [0, 1] ∧
      (∀ i ∈ (countedPair [(1, 3), (0, 2)]).places (some 1), i ∈ [0, 1]) ∧
      (countedPair [(1, 3), (0, 2)]).totalTx (some 1) = 5 ∧
      ((countedPair [(1, 3), (0, 2)]).get? 1).map Node.chainTx = some 0 :=
  ⟨recorded_countedPair (by decide) (by decide) (by decide) (by decide) (by decide),
    by decide +kernel⟩

end MergedWork.BlockIndex
