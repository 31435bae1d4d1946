import MergedWork.BlockIndex.Progress
import MergedWork.Proofs.BlockIndex.Walk

/-!
# Histories of an index

A history is a list of operations on an index. An operation either leaves the tree of blocks alone,
which is all that `SameTree` compares, or adds one node with a new hash behind a known node
(`apply_cases`); from this, what every history keeps follows by induction (`run_induction`). So
every index that grew from nothing is a tree (`wellFormed_run`).
-/

namespace MergedWork

/-- The part of a node that no operation changes. -/
structure Node.Entry extends HeaderFields where
  hash : Digest
  id : Nat
  prev : Option Nat
  height : Nat
  chainWork : Nat

def Node.entry (n : Node) : Node.Entry where
  toHeaderFields := n.toHeaderFields
  hash := n.hash
  id := n.id
  prev := n.prev
  height := n.height
  chainWork := n.chainWork

theorem Node.entry_eq_iff {n m : Node} :
    n.entry = m.entry ↔ n.toHeaderFields = m.toHeaderFields ∧ n.hash = m.hash ∧ n.id = m.id ∧
      n.prev = m.prev ∧ n.height = m.height ∧ n.chainWork = m.chainWork := by
  simp only [Node.entry, Node.Entry.mk.injEq]

/-- An operation on an index. -/
inductive Change
  | insert (header : Header)
  | insertLoaded (node : Node) (previous : Option Digest)
  | raiseValidity (id : Nat) (level : UInt32)
  | markFailed (id : Nat)
  | setBlockData (id txCount : Nat) (pos : DiskPos)
  | setUndoData (id : Nat) (pos : DiskPos)
  | setMoneySupply (id : Nat) (supply : Int)

namespace BlockIndex

variable {ix ix' ix'' : BlockIndex} {id i : Nat} {n m : Node} {f : Node → Node}
  {start : Option Nat}

/-- The index after an operation. One that is refused changes nothing. -/
def apply (ix : BlockIndex) : Change → BlockIndex
  | .insert header =>
    match ix.insert header with
    | .ok (ix', _) => ix'
    | .error _ => ix
  | .insertLoaded node previous =>
    match ix.insertLoaded node previous with
    | .ok (ix', _) => ix'
    | .error _ => ix
  | .raiseValidity id level => (ix.raiseValidity id level).1
  | .markFailed id => ix.markFailed id
  | .setBlockData id txCount pos => ix.setBlockData id txCount pos
  | .setUndoData id pos => ix.setUndoData id pos
  | .setMoneySupply id supply => ix.setMoneySupply id supply

/-- The index after the operations of a history. -/
def run (ix : BlockIndex) (history : List Change) : BlockIndex := history.foldl apply ix

/-! ## Operations that leave the tree alone -/

/-- The nodes of both indexes agree in all that no operation changes. -/
def SameTree (ix ix' : BlockIndex) : Prop :=
  ∀ i, (ix'.get? i).map Node.entry = (ix.get? i).map Node.entry

theorem SameTree.refl (ix : BlockIndex) : SameTree ix ix := fun _ => rfl

theorem SameTree.symm (h : SameTree ix ix') : SameTree ix' ix := fun i => (h i).symm

theorem SameTree.trans (h : SameTree ix ix') (h' : SameTree ix' ix'') : SameTree ix ix'' :=
  fun i => (h' i).trans (h i)

theorem SameTree.exists_get? (h : SameTree ix ix') (hm : ix'.get? i = some m) :
    ∃ n, ix.get? i = some n ∧ n.entry = m.entry := by
  have heq := h i
  rw [hm, Option.map_some, eq_comm, Option.map_eq_some_iff] at heq
  exact heq

theorem get?_modify (ix : BlockIndex) (id : Nat) (f : Node → Node) (i : Nat) :
    (ix.modify id f).get? i = if id = i then (ix.get? i).map f else ix.get? i :=
  Array.getElem?_modify

theorem sameTree_modify (ix : BlockIndex) (id : Nat) (hf : ∀ n, (f n).entry = n.entry) :
    SameTree ix (ix.modify id f) := by
  intro i
  rw [get?_modify]
  split_ifs
  · rw [Option.map_map]
    congr 1
    exact funext hf
  · rfl

theorem sameTree_setStatus (ix : BlockIndex) (id : Nat) (flags : UInt32) :
    SameTree ix (ix.setStatus id flags) :=
  sameTree_modify ix id fun _ => rfl

theorem sameTree_spreadFailure (ix : BlockIndex) (id : Nat) :
    SameTree ix (ix.spreadFailure id) := by
  unfold spreadFailure
  split_ifs
  · exact sameTree_setStatus ix id _
  · exact SameTree.refl ix

theorem sameTree_markFailed (ix : BlockIndex) (id : Nat) : SameTree ix (ix.markFailed id) := by
  unfold markFailed
  have hstart := sameTree_setStatus ix id Status.failedValid
  generalize ix.setStatus id Status.failedValid = marked at hstart ⊢
  generalize List.range' (id + 1) (ix.size - (id + 1)) = places
  induction places generalizing marked with
  | nil => exact hstart
  | cons i places ih => exact ih _ (hstart.trans (sameTree_spreadFailure marked i))

theorem Placed.of_sameTree (h : Placed ix i n) (hsame : SameTree ix ix')
    (heq : n.entry = m.entry) : Placed ix' i m := by
  obtain ⟨hfields, -, hid, hprev, hheight, hchain⟩ := Node.entry_eq_iff.1 heq
  constructor
  case id_eq => exact hid ▸ h.id_eq
  case root =>
    intro hroot
    rw [← hheight, ← hchain, ← hfields]
    exact h.root (hprev.trans hroot)
  case child =>
    intro p hp
    obtain ⟨hlt, q, hq, hheight', hchain'⟩ := h.child p (hprev.trans hp)
    obtain ⟨q', hq', heq'⟩ := hsame.symm.exists_get? hq
    obtain ⟨-, -, -, -, hheight'', hchain''⟩ := Node.entry_eq_iff.1 heq'
    rw [← hheight, ← hchain, ← hfields]
    exact ⟨hlt, q', hq', hheight'' ▸ hheight', hchain'' ▸ hchain'⟩

theorem WellFormed.of_sameTree (wf : ix.WellFormed) (h : SameTree ix ix') : ix'.WellFormed where
  placed i m hm := by
    obtain ⟨n, hn, heq⟩ := h.exists_get? hm
    exact (wf.placed i n hn).of_sameTree h heq
  hash_inj i j m m' hm hm' hhash := by
    obtain ⟨n, hn, heq⟩ := h.exists_get? hm
    obtain ⟨n', hn', heq'⟩ := h.exists_get? hm'
    have hhash' : n.hash = n'.hash :=
      (Node.entry_eq_iff.1 heq).2.1.trans (hhash.trans (Node.entry_eq_iff.1 heq').2.1.symm)
    exact wf.hash_inj i j n n' hn hn' hhash'

theorem WellFormed.lookup?_of_sameTree (wf : ix.WellFormed) (h : SameTree ix ix')
    (hash : Digest) : ix'.lookup? hash = ix.lookup? hash := by
  ext i
  rw [wf.lookup?_eq_some_iff, (wf.of_sameTree h).lookup?_eq_some_iff]
  constructor
  · rintro ⟨m, hm, rfl⟩
    obtain ⟨n, hn, heq⟩ := h.exists_get? hm
    exact ⟨n, hn, (Node.entry_eq_iff.1 heq).2.1⟩
  · rintro ⟨n, hn, rfl⟩
    obtain ⟨m, hm, heq⟩ := h.symm.exists_get? hn
    exact ⟨m, hm, (Node.entry_eq_iff.1 heq).2.1⟩

/-- The walks of both indexes pass the same nodes. -/
theorem SameTree.map_entry_recent (h : SameTree ix ix') (limit : Nat) (start : Option Nat) :
    (ix'.recent limit start).map Node.entry = (ix.recent limit start).map Node.entry := by
  induction limit generalizing start with
  | zero => rfl
  | succ limit ih =>
    cases start with
    | none => rfl
    | some id =>
      cases hm : ix'.get? id with
      | none =>
        have hn : ix.get? id = none := by
          rw [← Option.map_eq_none_iff (f := Node.entry), ← h id, hm]
          rfl
        rw [recent_succ_of_none hm, recent_succ_of_none hn]
      | some m =>
        obtain ⟨n, hn, heq⟩ := h.exists_get? hm
        rw [recent_succ hm, recent_succ hn, List.map_cons, List.map_cons, heq,
          (Node.entry_eq_iff.1 heq).2.2.2.1, ih m.prev]

/-! ## What an operation can do -/

theorem insertLoaded_eq_ok_cases {previous : Option Digest}
    (hok : ix.insertLoaded n previous = .ok (ix', i)) :
    (ix.lookup? n.hash = some i ∧ ix' = ix) ∨
      ∃ prev, ix.lookup? n.hash = none ∧ i = ix.size ∧ ix' = (ix.push n prev).1 ∧
        ∀ p, prev = some p → p < ix.size := by
  unfold insertLoaded at hok
  cases hfind : ix.lookup? n.hash with
  | some known =>
    rw [hfind] at hok
    cases hok
    exact Or.inl ⟨rfl, rfl⟩
  | none =>
    right
    cases previous with
    | none =>
      rw [hfind] at hok
      cases hok
      exact ⟨none, rfl, rfl, rfl, nofun⟩
    | some hash =>
      simp only [hfind] at hok
      cases hprev : ix.lookup? hash with
      | none =>
        rw [hprev] at hok
        cases hok
      | some p =>
        rw [hprev] at hok
        cases hok
        exact ⟨some p, rfl, rfl, rfl, lt_size_of_some_lookup? hprev⟩

/-- An operation leaves the tree alone, or adds one node with a new hash, which has no parent or a
known one. -/
theorem apply_cases (ix : BlockIndex) (change : Change) :
    SameTree ix (ix.apply change) ∨ ∃ n prev, ix.lookup? n.hash = none ∧
      (∀ p, prev = some p → p < ix.size) ∧ ix.apply change = (ix.push n prev).1 := by
  cases change with
  | insert header =>
    rw [apply]
    cases hinsert : ix.insert header with
    | error rejection => exact Or.inl (SameTree.refl ix)
    | ok added =>
      obtain ⟨ix', id⟩ := added
      rcases insert_eq_ok_cases hinsert with ⟨-, rfl⟩ | ⟨hnew, -, ⟨-, rfl⟩ | ⟨p, -, hp, rfl⟩⟩
      · exact Or.inl (SameTree.refl ix')
      · exact Or.inr ⟨freshNode header, none, hnew, nofun, rfl⟩
      · exact Or.inr ⟨freshNode header, some p, hnew, lt_size_of_some_lookup? hp, rfl⟩
  | insertLoaded node previous =>
    rw [apply]
    cases hinsert : ix.insertLoaded node previous with
    | error missing => exact Or.inl (SameTree.refl ix)
    | ok added =>
      obtain ⟨ix', id⟩ := added
      rcases insertLoaded_eq_ok_cases hinsert with ⟨-, rfl⟩ | ⟨prev, hnew, -, rfl, hprev⟩
      · exact Or.inl (SameTree.refl ix')
      · exact Or.inr ⟨node, prev, hnew, hprev, rfl⟩
  | markFailed id => exact Or.inl (sameTree_markFailed ix id)
  | raiseValidity id _ | setBlockData id _ _ | setUndoData id _ | setMoneySupply id _ =>
    exact Or.inl (sameTree_modify ix id fun _ => rfl)

theorem lt_size_apply (h : i < ix.size) (change : Change) : i < (ix.apply change).size := by
  obtain ⟨n, hn⟩ := get?_of_lt_size h
  rcases ix.apply_cases change with hsame | ⟨m, prev, -, -, heq⟩
  · obtain ⟨n', hn', -⟩ := hsame.symm.exists_get? hn
    exact lt_size_of_get? hn'
  · rw [heq, size_push]
    omega

theorem WellFormed.apply (wf : ix.WellFormed) (change : Change) :
    (ix.apply change).WellFormed := by
  rcases ix.apply_cases change with hsame | ⟨n, prev, hnew, hprev, heq⟩
  · exact wf.of_sameTree hsame
  · rw [heq]
    exact wf.push hnew hprev

/-! ## Histories -/

/-- What each operation preserves, a history does. -/
theorem run_induction {P : BlockIndex → Prop} (hstep : ∀ ix change, P ix → P (ix.apply change))
    (hix : P ix) (history : List Change) : P (ix.run history) := by
  induction history generalizing ix with
  | nil => exact hix
  | cons change history ih => exact ih (hstep ix change hix)

theorem wellFormed_run (rule : ForkRule) (history : List Change) :
    ((empty rule).run history).WellFormed :=
  run_induction (fun _ change wf => wf.apply change) (wellFormed_empty rule) history

end BlockIndex

end MergedWork
