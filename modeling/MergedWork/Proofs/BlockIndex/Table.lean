import MergedWork.Proofs.BlockIndex.History
import Std.Data.HashMap.Lemmas

/-!
# Finding places in a table

An index may keep a hash table of its nodes, to find a place without a search. Adding a node enters
its hash, and nothing else touches the table. Along every history, the table answers each question
as the search does (`Agrees.run`), so that both indexes are always the same.
-/

namespace MergedWork

instance : Hashable Digest := ⟨fun d => hash d.bytes⟩

/-- An index with a table of the places of its hashes. -/
structure TabledIndex where
  index : BlockIndex
  table : Std.HashMap Digest Nat

namespace TabledIndex

open BlockIndex

variable {t : TabledIndex} {n : Node} {prev : Option Nat}

def empty (rule : ForkRule) : TabledIndex := ⟨.empty rule, ∅⟩

/-- Adds a node behind its parent, and enters its place. -/
def push (t : TabledIndex) (n : Node) (prev : Option Nat) : TabledIndex × Nat :=
  let (index, id) := t.index.push n prev
  (⟨index, t.table.insert n.hash id⟩, id)

/-- Adds a header, as `BlockIndex.insert` does, with places from the table. -/
def insert (t : TabledIndex) (h : Header) : Except Rejection (TabledIndex × Nat) :=
  match t.table[h.hash]? with
  | some id => .ok (t, id)
  | none =>
    if h.previous = .zero then .ok (t.push (freshNode h) none)
    else
      match t.table[h.previous]? with
      | none => .error (.unknownParent h.previous)
      | some prev => .ok (t.push (freshNode h) (some prev))

/-- Adds a node that was stored, as `BlockIndex.insertLoaded` does, with places from the table. -/
def insertLoaded (t : TabledIndex) (n : Node) (previous : Option Digest) :
    Except MissingPredecessor (TabledIndex × Nat) :=
  match t.table[n.hash]? with
  | some id => .ok (t, id)
  | none =>
    match previous with
    | none => .ok (t.push n none)
    | some hash =>
      match t.table[hash]? with
      | none => .error ⟨hash, n.hash⟩
      | some prev => .ok (t.push n (some prev))

/-- The index and the table after an operation. -/
def apply (t : TabledIndex) : Change → TabledIndex
  | .insert header =>
    match t.insert header with
    | .ok (t', _) => t'
    | .error _ => t
  | .insertLoaded node previous =>
    match t.insertLoaded node previous with
    | .ok (t', _) => t'
    | .error _ => t
  | change => { t with index := t.index.apply change }

def run (t : TabledIndex) (history : List Change) : TabledIndex := history.foldl apply t

/-- The table knows the places of all hashes of the index, and no others. -/
structure Agrees (t : TabledIndex) : Prop where
  wellFormed : t.index.WellFormed
  getElem?_table : ∀ hash, t.table[hash]? = t.index.lookup? hash

theorem agrees_empty (rule : ForkRule) : (empty rule).Agrees where
  wellFormed := wellFormed_empty rule
  getElem?_table hash := by
    rw [empty, lookup?_empty]
    exact Std.HashMap.getElem?_empty

theorem Agrees.push (h : t.Agrees) (hnew : t.index.lookup? n.hash = none)
    (hprev : ∀ p, prev = some p → p < t.index.size) : (t.push n prev).1.Agrees where
  wellFormed := h.wellFormed.push hnew hprev
  getElem?_table hash := by
    change (t.table.insert n.hash t.index.size)[hash]? = (t.index.push n prev).1.lookup? hash
    rw [Std.HashMap.getElem?_insert, lookup?_push, h.getElem?_table]
    by_cases heq : n.hash = hash
    · subst heq
      simp [hnew]
    · simp [heq]

theorem Agrees.of_sameTree (h : t.Agrees) {index : BlockIndex} (hsame : SameTree t.index index) :
    Agrees { t with index } where
  wellFormed := h.wellFormed.of_sameTree hsame
  getElem?_table hash := by rw [h.getElem?_table, h.wellFormed.lookup?_of_sameTree hsame]

theorem Agrees.apply (h : t.Agrees) (change : Change) :
    (t.apply change).index = t.index.apply change ∧ (t.apply change).Agrees := by
  cases change with
  | insert header =>
    simp only [TabledIndex.apply, BlockIndex.apply, TabledIndex.insert, BlockIndex.insert,
      h.getElem?_table]
    cases hfind : t.index.lookup? header.hash with
    | some id => exact ⟨rfl, h⟩
    | none =>
      by_cases hzero : header.previous = .zero
      · simp only [if_pos hzero]
        exact ⟨rfl, h.push hfind fun p hp => by cases hp⟩
      · simp only [if_neg hzero]
        cases hprev : t.index.lookup? header.previous with
        | none => exact ⟨rfl, h⟩
        | some p =>
          exact ⟨rfl, h.push hfind (lt_size_of_some_lookup? hprev)⟩
  | insertLoaded node previous =>
    simp only [TabledIndex.apply, BlockIndex.apply, TabledIndex.insertLoaded,
      BlockIndex.insertLoaded, h.getElem?_table]
    cases hfind : t.index.lookup? node.hash with
    | some id => exact ⟨rfl, h⟩
    | none =>
      cases previous with
      | none => exact ⟨rfl, h.push hfind fun p hp => by cases hp⟩
      | some hash =>
        dsimp only
        cases hprev : t.index.lookup? hash with
        | none => exact ⟨rfl, h⟩
        | some p =>
          exact ⟨rfl, h.push hfind (lt_size_of_some_lookup? hprev)⟩
  | markFailed id => exact ⟨rfl, h.of_sameTree (sameTree_markFailed t.index id)⟩
  | raiseValidity id _ | setBlockData id _ _ | setUndoData id _ | setMoneySupply id _ =>
    exact ⟨rfl, h.of_sameTree (sameTree_modify t.index id fun _ => rfl)⟩

/-- Along a history, the table answers as the search does. -/
theorem Agrees.run (h : t.Agrees) (history : List Change) :
    (t.run history).index = t.index.run history ∧ (t.run history).Agrees := by
  induction history generalizing t with
  | nil => exact ⟨rfl, h⟩
  | cons change history ih =>
    obtain ⟨heq, hnext⟩ := h.apply change
    obtain ⟨heq', hlast⟩ := ih hnext
    exact ⟨heq'.trans (congrArg (BlockIndex.run · history) heq), hlast⟩

end TabledIndex

end MergedWork
