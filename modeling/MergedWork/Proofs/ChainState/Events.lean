import MergedWork.Proofs.ActiveChain.Run
import MergedWork.Proofs.BlockIndex.Failure
import MergedWork.Proofs.ChainState.Admission

/-!
# Everything that can happen to a state

Besides headers that are submitted, a state sees its tip being moved, and notes on single blocks:
how far they are validated, that they have failed, where they are stored. A list of such events,
the last one first, is `Possible` if each names blocks that were known by then. What an event does
to the index is said once (`index_step_cases`), and so is what it does to the chain
(`chain_step_cases`). Hence after all possible events the active chain is the path to the tip
(`sound_of_possible`).
-/

namespace MergedWork

/-! ## Notes -/

/-- What becomes known of a block. -/
inductive Note
  | raiseValidity (level : UInt32)
  | markFailed
  | setBlockData (txCount : Nat) (pos : DiskPos)
  | setUndoData (pos : DiskPos)
  | setMoneySupply (supply : Int)

/-- The operation by which it is noted of the block at a place. -/
def Note.change (id : Nat) : Note → Change
  | raiseValidity level => .raiseValidity id level
  | markFailed => .markFailed id
  | setBlockData txCount pos => .setBlockData id txCount pos
  | setUndoData pos => .setUndoData id pos
  | setMoneySupply supply => .setMoneySupply id supply

namespace BlockIndex

theorem sameTree_note (ix : BlockIndex) (id : Nat) (note : Note) :
    SameTree ix (ix.apply (note.change id)) := by
  cases note with
  | markFailed => exact sameTree_markFailed ix id
  | raiseValidity _ | setBlockData _ _ | setUndoData _ | setMoneySupply _ =>
    exact sameTree_modify ix id fun _ => rfl

/-- A note that is not about a failure changes one node, and none of its flags of failure. -/
theorem exists_modify_of_note (ix : BlockIndex) (id : Nat) {note : Note} (hnote : note ≠ .markFailed) :
    ∃ f : Node → Node, (∀ n, (f n).prev = n.prev ∧ (f n).status.failure = n.status.failure) ∧
      ix.apply (note.change id) = ix.modify id f := by
  cases note with
  | markFailed => exact absurd rfl hnote
  | raiseValidity level =>
    refine ⟨_, ?_, rfl⟩
    exact fun n => ⟨rfl, n.status.failure_raise level⟩
  | setBlockData txCount pos =>
    refine ⟨_, ?_, rfl⟩
    exact fun n => ⟨rfl, (Status.failure_raise _ _).trans (Status.failure_set (by decide))⟩
  | setUndoData pos =>
    refine ⟨_, ?_, rfl⟩
    exact fun n => ⟨rfl, Status.failure_set (by decide)⟩
  | setMoneySupply supply =>
    refine ⟨_, ?_, rfl⟩
    exact fun n => ⟨rfl, rfl⟩

end BlockIndex

/-! ## Events -/

/-- What can happen to a state. -/
inductive Event
  | submit (sub : Submission)
  | updateTip (id : Nat)
  | setTip (id : Nat)
  | note (id : Nat) (note : Note)

/-- The place of the block that an event names. -/
def Event.place? : Event → Option Nat
  | submit _ => none
  | updateTip id => some id
  | setTip id => some id
  | note id _ => some id

namespace ChainState

open BlockIndex

variable {s : ChainState} {params : Params} {e : Event} {events : List Event} {id : Nat}

/-- The state after an event. -/
def step (s : ChainState) : Event → ChainState
  | .submit sub => s.next sub
  | .updateTip id => (s.updateTip id).1
  | .setTip id => (s.setTip id).1
  | .note id note => { s with index := s.index.apply (note.change id) }

/-- The state after events, of which the last comes first. -/
def after (params : Params) : List Event → ChainState
  | [] => start params
  | e :: events => (after params events).step e

/-- Each event names blocks only that the index knew when it happened. -/
def Possible (params : Params) : List Event → Prop
  | [] => True
  | e :: events => (∀ id ∈ e.place?, id < (after params events).index.size) ∧ Possible params events

instance decidablePossible (params : Params) :
    (events : List Event) → Decidable (Possible params events)
  | [] => inferInstanceAs (Decidable True)
  | e :: events =>
    have := decidablePossible params events
    inferInstanceAs (Decidable ((∀ id ∈ e.place?, _) ∧ Possible params events))

/-- What each event preserves, all of them do. -/
theorem after_induction {P : ChainState → Prop} (hstart : P (start params))
    (hstep : ∀ s e, (∀ id ∈ e.place?, id < s.index.size) → P s → P (s.step e))
    (h : Possible params events) : P (after params events) := by
  induction events with
  | nil => exact hstart
  | cons e events ih => exact hstep _ e h.1 (ih h.2)

/-! ## What an event does -/

/-- An event leaves the index alone, notes something of a block, or connects a header. -/
theorem index_step_cases (s : ChainState) (e : Event) :
    ((∀ id note, e ≠ .note id note) ∧ (s.step e).index = s.index) ∨
      (∃ id note, e = .note id note ∧ (s.step e).index = s.index.apply (note.change id)) ∨
      ∃ sub p parent, e = .submit sub ∧ s.Connects sub p parent ∧
        (s.step e).index = (s.index.push (freshNode sub.header) (parentPlace sub.header p)).1 := by
  cases e with
  | submit sub =>
    rcases s.next_cases_connects sub with heq | ⟨p, parent, hconnects, -, heq⟩
    · exact Or.inl ⟨nofun, congrArg index heq⟩
    · exact Or.inr (Or.inr ⟨sub, p, parent, rfl, hconnects,
        (congrArg index heq).trans (index_updateTip _ _)⟩)
  | updateTip id => exact Or.inl ⟨nofun, index_updateTip s id⟩
  | setTip id => exact Or.inl ⟨nofun, rfl⟩
  | note id note => exact Or.inr (Or.inl ⟨id, note, rfl, rfl⟩)

/-- All that an event may do to the index is one operation. -/
theorem index_step_eq_or (s : ChainState) (e : Event) :
    (s.step e).index = s.index ∨ ∃ change, (s.step e).index = s.index.apply change := by
  rcases s.index_step_cases e with
    ⟨-, heq⟩ | ⟨id, note, -, heq⟩ | ⟨sub, p, parent, -, hconnects, heq⟩
  · exact Or.inl heq
  · exact Or.inr ⟨note.change id, heq⟩
  · refine Or.inr ⟨.insert sub.header, ?_⟩
    rw [heq, BlockIndex.apply, insert_of_lookup? hconnects.unknown hconnects.lookup?_previous]

theorem chain_updateTip_cases (s : ChainState) (id : Nat) :
    (s.updateTip id).1.chain = s.chain ∨ id < s.index.size ∧
      (s.updateTip id).1.chain = (s.chain.setTip s.index (some id)).1 := by
  rw [updateTip_fst]
  split_ifs with hbetter
  · obtain ⟨n, hn, -⟩ := (Option.any_eq_true _ _).1 hbetter
    exact Or.inr ⟨lt_size_of_get? hn, rfl⟩
  · exact Or.inl rfl

/-- An event leaves the chain alone, or moves its tip to a known block. -/
theorem chain_step_cases (s : ChainState) (e : Event)
    (hplace : ∀ id ∈ e.place?, id < s.index.size) :
    (s.step e).chain = s.chain ∨ ∃ id, id < (s.step e).index.size ∧
      (s.step e).chain = (s.chain.setTip (s.step e).index (some id)).1 := by
  cases e with
  | submit sub =>
    rcases s.next_cases_connects sub with heq | ⟨p, parent, -, -, heq⟩
    · exact Or.inl (congrArg chain heq)
    · rw [step, heq, index_updateTip]
      exact (chain_updateTip_cases _ _).imp_right fun h => ⟨_, h⟩
  | updateTip id =>
    rw [step, index_updateTip]
    exact (chain_updateTip_cases s id).imp_right fun h => ⟨id, h⟩
  | setTip id => exact Or.inr ⟨id, hplace id rfl, rfl⟩
  | note id note => exact Or.inl rfl

theorem size_le_step (s : ChainState) (e : Event) : s.index.size ≤ (s.step e).index.size := by
  rcases s.index_step_cases e with ⟨-, heq⟩ | ⟨id, note, -, heq⟩ | ⟨sub, p, parent, -, -, heq⟩
  · rw [heq]
  · rw [heq]
    exact Nat.le_of_not_lt fun hlt => absurd
      (lt_size_apply hlt (note.change id)) (Nat.lt_irrefl _)
  · rw [heq, size_push]
    exact Nat.le_succ _

theorem size_start_le (params : Params) (events : List Event) :
    (start params).index.size ≤ (after params events).index.size := by
  induction events with
  | nil => exact Nat.le_refl _
  | cons e events ih => exact Nat.le_trans ih (size_le_step _ e)

theorem size_pos_of_step (h : 0 < (s.step e).index.size) : 0 < s.index.size := by
  rcases s.index_step_cases e with ⟨-, heq⟩ | ⟨id, note, -, heq⟩ | ⟨sub, p, parent, -, hconnects, -⟩
  · rwa [heq] at h
  · rw [heq] at h
    obtain ⟨n, hn⟩ := get?_of_lt_size h
    obtain ⟨m, hm, -⟩ := (sameTree_note s.index id note).exists_get? hn
    exact lt_size_of_get? hm
  · exact Nat.lt_of_le_of_lt (Nat.zero_le p) (lt_size_of_get? hconnects.get?_parent)

theorem Possible.lt_size (h : Possible params events) (hmem : e ∈ events) (hid : id ∈ e.place?) :
    id < (after params events).index.size := by
  induction events with
  | nil => cases hmem
  | cons e' events ih =>
    refine Nat.lt_of_lt_of_le ?_ (size_le_step _ e')
    rcases List.mem_cons.1 hmem with rfl | hmem
    · exact h.1 id hid
    · exact ih h.2 hmem

/-! ## What always holds -/

theorem reached_start (hzero : params.genesis.previous = .zero) :
    ActiveChain.Reached params.forkRule (start params).index (start params).chain (some 0) := by
  have hinsert : (BlockIndex.empty params.forkRule).apply (.insert params.genesis) =
      ((BlockIndex.empty params.forkRule).push (freshNode params.genesis) none).1 := by
    simp only [BlockIndex.apply, BlockIndex.insert, lookup?_empty, hzero, if_true]
    rfl
  have hempty : ActiveChain.Reached params.forkRule (.empty params.forkRule) .empty none := .start
  have hinserted := hempty.change (.insert params.genesis)
  rw [hinsert] at hinserted
  rw [start_eq hzero]
  refine hinserted.setTip (some 0) fun id hid => ?_
  cases hid
  rw [size_push]
  exact Nat.succ_pos _

theorem reached_index_step {rule : ForkRule} {tip : Option Nat}
    (h : ActiveChain.Reached rule s.index s.chain tip) (e : Event) :
    ActiveChain.Reached rule (s.step e).index s.chain tip := by
  rcases s.index_step_eq_or e with heq | ⟨change, heq⟩
  · rwa [heq]
  · rw [heq]
    exact h.change change

/-- The index and the chain of a state are among those that operations on them reach, with a tip as
soon as there are blocks. -/
theorem exists_reached (h : Possible params events) :
    ∃ tip, ActiveChain.Reached params.forkRule (after params events).index
      (after params events).chain tip ∧
      (0 < (after params events).index.size → tip.isSome = true) := by
  refine after_induction (P := fun s => ∃ tip, ActiveChain.Reached params.forkRule s.index s.chain tip ∧
    (0 < s.index.size → tip.isSome = true)) ?_ (fun s e hplace ⟨tip, hs, htip⟩ => ?_) h
  · by_cases hzero : params.genesis.previous = .zero
    · exact ⟨some 0, reached_start hzero, fun _ => rfl⟩
    · rw [start_of_previous_ne_zero hzero]
      exact ⟨none, .start, fun hsize => absurd hsize (Nat.lt_irrefl 0)⟩
  · have hindex := reached_index_step hs e
    rcases s.chain_step_cases e hplace with heq | ⟨id, hid, heq⟩
    · rw [heq]
      exact ⟨tip, hindex, fun hsize => htip (size_pos_of_step hsize)⟩
    · rw [heq]
      refine ⟨some id, hindex.setTip (some id) fun new hnew => ?_, fun _ => rfl⟩
      cases hnew
      exact hid

/-- The index is a tree, and the chain is the path to its tip. -/
theorem sound_of_possible (h : Possible params events) :
    ActiveChain.Sound (after params events).index (after params events).chain
      (after params events).tip? := by
  obtain ⟨tip, hreached, -⟩ := exists_reached h
  have hsound := hreached.sound
  rwa [← hsound.tip?_eq] at hsound

theorem exists_tip (h : Possible params events) (hsize : 0 < (after params events).index.size) :
    ∃ tip, (after params events).tip? = some tip := by
  obtain ⟨tip, hreached, htip⟩ := exists_reached h
  rw [tip?, hreached.sound.tip?_eq]
  exact Option.isSome_iff_exists.1 (htip hsize)

end ChainState

end MergedWork
