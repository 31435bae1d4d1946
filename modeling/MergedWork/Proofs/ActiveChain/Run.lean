import MergedWork.Proofs.ActiveChain.InPlace
import MergedWork.Proofs.BlockIndex.History

/-!
# A chain over a growing index

While the index changes, the chain stays the path to the tip that was set last: new nodes are behind
the old ones, and nothing else that an operation does concerns the path (`Follows.apply`). So a chain
that was empty once is a path after all operations on it and on the index (`Reached.sound`), and the
node at which `setTip` says that the new chain leaves the old one is the last common ancestor of
both tips (`Follows.fork_eq`).
-/

namespace MergedWork.ActiveChain

open BlockIndex

variable {rule : ForkRule} {c : ActiveChain} {ix ix' : BlockIndex} {tip : Option Nat} {id new : Nat}
  {n : Node}

/-! ## Operations on the index -/

theorem Follows.of_sameTree (h : c.Follows ix tip) (hsame : SameTree ix ix') :
    c.Follows ix' tip := by
  cases tip with
  | none => exact h
  | some id =>
    -- The chain has the places of the nodes only, which are a part of their entries.
    have hids : (ix'.ancestors id).map Node.id = (ix.ancestors id).map Node.id := by
      have hentries := congrArg (List.map Node.Entry.id) (hsame.map_entry_recent (id + 1) (some id))
      rw [List.map_map, List.map_map] at hentries
      exact hentries
    rw [Follows, pathFrom_some, hids]
    exact h

theorem Follows.apply (h : c.Follows ix tip) (wf : ix.WellFormed)
    (htip : ∀ id, tip = some id → id < ix.size) (change : Change) :
    c.Follows (ix.apply change) tip := by
  rcases ix.apply_cases change with hsame | ⟨m, prev, hnew, hprev, heq⟩
  · exact h.of_sameTree hsame
  · rw [heq]
    cases tip with
    | none => exact h
    | some id =>
      obtain ⟨n, hn⟩ := get?_of_lt_size (htip id rfl)
      exact h.of_extends wf (wf.push hnew hprev) (extends_push ix m prev) hn

/-! ## Chains that are reached -/

/-- The states of an index and of a chain over it, both without blocks at first, after operations
on the one and on the other in any order, with the tip that was set last. -/
inductive Reached (rule : ForkRule) : BlockIndex → ActiveChain → Option Nat → Prop
  | start : Reached rule (BlockIndex.empty rule) empty none
  | change {ix : BlockIndex} {c : ActiveChain} {tip : Option Nat} (h : Reached rule ix c tip)
      (change : Change) : Reached rule (ix.apply change) c tip
  | setTip {ix : BlockIndex} {c : ActiveChain} {tip : Option Nat} (h : Reached rule ix c tip)
      (new : Option Nat) (hnew : ∀ id, new = some id → id < ix.size) :
      Reached rule ix (c.setTip ix new).1 new

theorem Reached.run (h : Reached rule ix c tip) (history : List Change) :
    Reached rule (ix.run history) c tip :=
  run_induction (P := fun ix => Reached rule ix c tip) (fun _ change h => h.change change) h history

/-- After a history, the chain can be set to any node. -/
theorem reached_setTip (rule : ForkRule) (history : List Change)
    (hid : id < ((BlockIndex.empty rule).run history).size) :
    Reached rule ((BlockIndex.empty rule).run history)
      (empty.setTip ((BlockIndex.empty rule).run history) (some id)).1 (some id) := by
  refine (Reached.start.run history).setTip (some id) fun i hi => ?_
  cases hi
  exact hid

/-- A chain that is the path to a tip in a tree. -/
structure Sound (ix : BlockIndex) (c : ActiveChain) (tip : Option Nat) : Prop where
  wellFormed : ix.WellFormed
  known : ∀ id, tip = some id → id < ix.size
  follows : c.Follows ix tip

theorem Sound.apply (h : Sound ix c tip) (change : Change) : Sound (ix.apply change) c tip :=
  ⟨h.wellFormed.apply change, fun id hid => lt_size_apply (h.known id hid) change,
    h.follows.apply h.wellFormed h.known change⟩

theorem Sound.setTip (h : Sound ix c tip) {new : Option Nat}
    (hnew : ∀ id, new = some id → id < ix.size) : Sound ix (c.setTip ix new).1 new :=
  ⟨h.wellFormed, hnew, h.follows.setTip h.wellFormed new⟩

theorem Reached.sound (h : Reached rule ix c tip) : Sound ix c tip := by
  induction h with
  | start => exact ⟨wellFormed_empty rule, nofun, follows_empty _⟩
  | change _ change ih => exact ih.apply change
  | setTip _ new hnew ih => exact ih.setTip hnew

theorem Sound.tip?_eq (h : Sound ix c tip) : c.tip? = tip := by
  cases tip with
  | none =>
    have hnil : c.ids.toList = [] := h.follows
    rw [tip?, ← Array.getLast?_toList, hnil, List.getLast?_nil]
  | some id =>
    obtain ⟨n, hn⟩ := get?_of_lt_size (h.known id rfl)
    exact h.follows.tip?_eq h.wellFormed hn

theorem Sound.self (h : Sound ix c tip) : Sound ix c c.tip? := by rwa [h.tip?_eq]

/-! ## The nodes of the chain -/

theorem Follows.contains_iff (h : c.Follows ix tip) (wf : ix.WellFormed) (id : Nat) :
    c.contains ix id = true ↔ ∃ n ∈ ix.pathFrom tip, n.id = id := by
  rw [contains, Option.any_eq_true]
  constructor
  · rintro ⟨n, hn, hholds⟩
    obtain rfl : n.id = id := (wf.placed id n hn).id_eq
    exact ⟨n, (h.holds_iff wf hn).1 hholds, rfl⟩
  · rintro ⟨n, hmem, rfl⟩
    have hn := (wf.split_pathFrom hmem).1
    exact ⟨n, hn, (h.holds_iff wf hn).2 hmem⟩

/-! ## Leaving the old chain -/

/-- The node at which the new chain leaves the old one is the last common ancestor of both tips. -/
theorem Follows.fork_eq (h : c.Follows ix tip) (wf : ix.WellFormed) (new : Nat) :
    (c.setTip ix (some new)).2 = (tip.bind fun old => ix.lastCommon? old new).map Node.id := by
  rw [setTip_snd]
  congr 1
  have hholds : (ix.ancestors new).find? c.holds =
      (ix.ancestors new).find? fun n => n ∈ ix.pathFrom tip :=
    List.find?_congr fun n hn => by
      rw [Bool.eq_iff_iff, decide_eq_true_iff]
      exact h.holds_iff wf (wf.split_ancestors hn).1
  rw [hholds]
  cases tip with
  | none => exact List.find?_eq_none.2 fun n _ => by simp
  | some old => exact (wf.lastCommon?_eq_find? old new).symm

/-- There is no such node if there was no old chain, or one with another root. -/
theorem Follows.fork_eq_none_iff (h : c.Follows ix tip) (wf : ix.WellFormed)
    (htip : ∀ id, tip = some id → id < ix.size) (new : Nat) :
    (c.setTip ix (some new)).2 = none ↔ ∀ old, tip = some old → ix.root? old ≠ ix.root? new := by
  rw [h.fork_eq wf, Option.map_eq_none_iff]
  cases tip with
  | none => simp
  | some old =>
    obtain ⟨n, hn⟩ := get?_of_lt_size (htip old rfl)
    rw [Option.bind_some, wf.lastCommon?_eq_none_iff hn]
    constructor
    · intro hne old' hold
      cases hold
      exact hne
    · intro hne
      exact hne old rfl

/-- After all operations, the chain is the path to the tip that was set last, each node at its
height behind its parent, and it has no other nodes. The next tip can be set in place: the slots
come out as many as the height of the new tip asks for, and what is given is the last common
ancestor of both tips, or nothing if the chain was empty or has another root. -/
theorem chain_of_reached (h : Reached rule ix c tip) :
    c.ids.toList = ((ix.pathFrom tip).map Node.id).reverse ∧
      (∀ height id, c.at? height = some id → ∃ n, ix.get? id = some n ∧ n.height = height ∧
        n.prev = if height = 0 then none else c.at? (height - 1)) ∧
      (∀ id, c.contains ix id = true ↔ ∃ n ∈ ix.pathFrom tip, n.id = id) ∧
      ∀ new n, ix.get? new = some n →
        c.setTipInPlace? ix new = some (c.setTip ix (some new)) ∧
        (c.setTip ix (some new)).1.size = n.height + 1 ∧
        (c.setTip ix (some new)).2 = (tip.bind fun old => ix.lastCommon? old new).map Node.id ∧
        ((c.setTip ix (some new)).2 = none ↔
          ∀ old, tip = some old → ix.root? old ≠ ix.root? new) := by
  obtain ⟨wf, hknown, hfollows⟩ := h.sound
  refine ⟨hfollows, fun _ _ => hfollows.linked wf, hfollows.contains_iff wf, fun new n hn => ?_⟩
  have hsize : (c.setTip ix (some new)).1.size = n.height + 1 := by
    have hnew : (c.setTip ix (some new)).1.ids.toList = _ := hfollows.setTip wf (some new)
    rw [size, ← Array.length_toList, hnew, List.length_reverse, List.length_map, pathFrom_some,
      wf.length_ancestors hn]
  exact ⟨hfollows.setTipInPlace?_eq wf hn, hsize, hfollows.fork_eq wf new,
    hfollows.fork_eq_none_iff wf hknown new⟩

/-- A node with a hash of its own. -/
def stored (hash : Nat) : Node :=
  { Node.ofHeader Network.regtest.params.genesis with hash := .ofNat hash }

/-- A root and two nodes behind it. -/
def forked : BlockIndex :=
  (BlockIndex.empty .standard).run
    [.insertLoaded (stored 1) none, .insertLoaded (stored 2) (some (.ofNat 1)),
      .insertLoaded (stored 3) (some (.ofNat 1))]

/-- From the one branch of a fork to the other, the chain leaves at the root. -/
theorem chain_of_reached_forked :
    Reached .standard forked (empty.setTip forked (some 1)).1 (some 1) ∧
      (empty.setTip forked (some 1)).1.ids.toList = [0, 1] ∧
      ((empty.setTip forked (some 1)).1.setTip forked (some 2)).1.ids.toList = [0, 2] ∧
      (forked.lastCommon? 1 2).map Node.id = some 0 := by
  have hsize : forked.size = 3 := by decide +kernel
  have hforked : Reached .standard forked empty none := Reached.start.run _
  have hreached := hforked.setTip (some 1) fun id hid => by
    cases hid
    omega
  have hlt : 2 < forked.size := by omega
  obtain ⟨n, hn⟩ := get?_of_lt_size hlt
  obtain ⟨-, -, -, hmove⟩ := chain_of_reached hreached
  obtain ⟨-, -, hfork, -⟩ := hmove 2 n hn
  have hleft : ((empty.setTip forked (some 1)).1.setTip forked (some 2)).2 = some 0 := by
    decide +kernel
  exact ⟨hreached, by decide +kernel, by decide +kernel, hfork.symm.trans hleft⟩

end MergedWork.ActiveChain
