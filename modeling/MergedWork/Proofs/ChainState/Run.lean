import MergedWork.ChainState
import MergedWork.Proofs.BlockIndex.Tree
import MergedWork.Proofs.HeaderCheck

/-!
# Runs of a state

A run hands headers to a state, one after the other, each with its own proof and engine; a refused
header leaves the state as it was. What a single step can do is said once, by
`submit_eq_ok_cases`: the header is known and nothing changes, or it passes all checks, one node is
added, and the tip may move to it.
-/

namespace MergedWork

/-- A header with the proof that comes with it, and the engine that its work is checked with. -/
structure Submission where
  engine : Engine
  header : Header
  proof : Option MergeProof

namespace ChainState

variable {s s' : ChainState} {sub : Submission} {id : Nat} {n : Node}

/-! ## Steps -/

/-- The result of a submission. -/
def submit (s : ChainState) (sub : Submission) : Except Rejection (ChainState × Nat) :=
  (s.accept sub.engine sub.header sub.proof).value

/-- The state after a submission. -/
def next (s : ChainState) (sub : Submission) : ChainState :=
  match s.submit sub with
  | .ok (s, _) => s
  | .error _ => s

/-- The state after submissions in the given order. -/
def run (s : ChainState) (subs : List Submission) : ChainState := subs.foldl next s

/-- What each step preserves, a run does. -/
theorem run_induction {P : ChainState → Prop} (hstep : ∀ s sub, P s → P (s.next sub)) (hs : P s)
    (subs : List Submission) : P (s.run subs) := by
  induction subs generalizing s with
  | nil => exact hs
  | cons sub subs ih => exact ih (hstep s sub hs)

theorem updateTip_fst (s : ChainState) (id : Nat) :
    (s.updateTip id).1 =
      if (s.index.get? id).any s.improves then
        { s with chain := (s.chain.setTip s.index (some id)).1 }
      else s := by
  unfold updateTip
  split_ifs <;> rfl

/-! ## What a step can do -/

theorem connect_eq_ok_cases {h : Header} (hok : s.connect h = .ok (s', id)) :
    ∃ parent index, s.index.node? h.previous = some parent ∧ parent.status.isFailed = false ∧
      s.params.checkpoints.check (parent.height + 1) h.hash = .ok () ∧
      s.index.insert h = .ok (index, id) ∧ s' = ({ s with index }.updateTip id).1 := by
  unfold connect at hok
  cases hparent : s.index.node? h.previous with
  | none =>
    rw [hparent] at hok
    cases hok
  | some parent =>
    simp only [hparent, require_bind_eq_ok_iff, Bool.not_eq_true'] at hok
    obtain ⟨hfailed, hok⟩ := hok
    cases hcheck : s.params.checkpoints.check (parent.height + 1) h.hash with
    | error rejection =>
      rw [hcheck] at hok
      cases hok
    | ok _ =>
      cases hinsert : s.index.insert h with
      | error rejection =>
        rw [hcheck, hinsert] at hok
        cases hok
      | ok added =>
        rw [hcheck, hinsert] at hok
        cases hok
        exact ⟨parent, added.1, rfl, hfailed, hcheck, rfl, rfl⟩

/-- A submission that is accepted: the header is known, or it carries enough work and is connected
to its parent. -/
theorem submit_eq_ok_cases (hok : s.submit sub = .ok (s', id)) :
    (s.index.lookup? sub.header.hash = some id ∧ s' = s) ∨
      s.index.lookup? sub.header.hash = none ∧
        s.params.Accepts sub.engine sub.header sub.proof ∧
        s.connect sub.header = .ok (s', id) := by
  unfold submit accept at hok
  cases hfind : s.index.lookup? sub.header.hash with
  | some known =>
    rw [hfind] at hok
    cases hok
    exact Or.inl ⟨rfl, rfl⟩
  | none =>
    simp only [hfind, Asked.value_bind, Asked.value_pure] at hok
    cases hcheck : (s.params.checkHeader sub.engine sub.header sub.proof).value with
    | error rejection =>
      rw [hcheck] at hok
      cases hok
    | ok _ =>
      rw [hcheck] at hok
      exact Or.inr ⟨rfl, Params.checkHeader_eq_ok_iff.1 hcheck, hok⟩

/-- A step changes nothing, or adds one new node behind known ones and may move the tip to it. A
node without a parent is only added if a block of zero hash is known, which would be its parent. -/
theorem next_cases (s : ChainState) (sub : Submission) :
    s.next sub = s ∨ ∃ prev, s.index.lookup? sub.header.hash = none ∧
      (∀ p, prev = some p → s.index.lookup? sub.header.previous = some p) ∧
      (prev = none → s.index.contains .zero = true) ∧
      s.next sub =
        (updateTip { s with index := (s.index.push (BlockIndex.freshNode sub.header) prev).1 }
          s.index.size).1 := by
  unfold next
  cases hsubmit : s.submit sub with
  | error rejection => exact Or.inl rfl
  | ok result =>
    obtain ⟨s', id⟩ := result
    rcases submit_eq_ok_cases hsubmit with ⟨-, rfl⟩ | ⟨hnew, -, hconnect⟩
    · exact Or.inl rfl
    right
    obtain ⟨parent, index, hparent, -, -, hinsert, rfl⟩ := connect_eq_ok_cases hconnect
    rcases BlockIndex.insert_eq_ok_cases hinsert with
      ⟨hknown, -⟩ | ⟨-, rfl, ⟨hzero, rfl⟩ | ⟨p, -, hp, rfl⟩⟩
    · rw [hnew] at hknown
      cases hknown
    · refine ⟨none, hnew, fun p hp => ?_, fun _ => ?_, rfl⟩
      · cases hp
      · obtain ⟨i, hi, -⟩ := BlockIndex.node?_eq_some_iff.1 hparent
        rw [← hzero, BlockIndex.contains, hi, Option.isSome_some]
    · refine ⟨some p, hnew, fun q hq => hq ▸ hp, fun hnone => ?_, rfl⟩
      cases hnone

end ChainState

end MergedWork
