import MergedWork.Proofs.ChainState.Events

/-!
# Failures in a state

No header is connected to a block that has failed, and no other event but a note of a failure
touches the flags of failure. So every index of a state is closed under failures, and a note of a
failure marks exactly the block and its descendants (`failure_of_possible`). A block has failed
exactly if the failure of the block itself or of one that it descends from was noted
(`failuresNoted_of_possible`).
-/

namespace MergedWork.ChainState

open BlockIndex

variable {s : ChainState} {params : Params} {e : Event} {events : List Event} {id i : Nat}
  {n : Node}

theorem failureClosed_start (params : Params) : (start params).index.FailureClosed := by
  intro i n p q hn hp hq hfailed
  rw [(clean_start params).unfailed p q hq] at hfailed
  cases hfailed

theorem Connects.failureClosed_push {sub : Submission} {p : Nat} {parent : Node}
    (h : s.Connects sub p parent) (wf : s.index.WellFormed) (hclosed : s.index.FailureClosed) :
    (s.index.push (freshNode sub.header) (parentPlace sub.header p)).1.FailureClosed := by
  refine hclosed.push wf (fun p' q hp' hq => ?_) h.parentPlace_lt
  obtain rfl := eq_of_parentPlace_eq_some hp'
  cases h.get?_parent.symm.trans hq
  exact h.unfailed

theorem failureClosed_of_possible (h : Possible params events) :
    (after params events).index.FailureClosed := by
  induction events with
  | nil => exact failureClosed_start params
  | cons e events ih =>
    have hclosed := ih h.2
    have wf := (sound_of_possible h.2).wellFormed
    rw [after]
    rcases index_step_cases (after params events) e with
      ⟨-, heq⟩ | ⟨id, note, -, heq⟩ | ⟨sub, p, parent, -, hconnects, heq⟩
    · rw [heq]
      exact hclosed
    · rw [heq]
      by_cases hnote : note = .markFailed
      · subst hnote
        exact hclosed.markFailed wf id
      · obtain ⟨f, hf, hmodify⟩ := exists_modify_of_note (after params events).index id hnote
        rw [hmodify]
        exact hclosed.modify id hf
    · rw [heq]
      exact hconnects.failureClosed_push wf hclosed

/-- After all possible events, each block whose parent has failed is marked for it. Noting a failure
then flags the block, marks its descendants, and changes nothing else; of two failures, either may
come first. -/
theorem failure_of_possible (h : Possible params events) :
    let ix := (after params events).index
    ix.FailureClosed ∧
      (∀ id, (ix.markFailed id).rule = ix.rule ∧
        ∀ i, (ix.markFailed id).get? i = (ix.get? i).map fun n =>
          if i = id then n.flag Status.failedValid
          else if ix.Descends i id then n.flag Status.failedChild
          else n) ∧
      ∀ a b, (ix.markFailed a).markFailed b = (ix.markFailed b).markFailed a := by
  intro ix
  have hclosed : ix.FailureClosed := failureClosed_of_possible h
  have wf : ix.WellFormed := (sound_of_possible h).wellFormed
  refine ⟨hclosed, fun id => ⟨rule_markFailed ix id, fun i => ?_⟩, wf.markFailed_comm hclosed⟩
  rw [wf.get?_markFailed hclosed]
  congr 1
  funext n
  rw [failureFlag]
  split_ifs
  · rfl
  · rfl
  · exact n.flag_zero

/-- Two branches behind the first block, of which the longer one has failed. -/
def failedBranch : List Event :=
  [.note 1 .markFailed, .submit third, .submit (second 1), .submit (second 0)]

/-- The failure of the first block reaches the failed branch too, and may come before or after that
of the other branch. -/
theorem failure_of_possible_branches :
    Possible Network.regtest.params failedBranch ∧
      (after Network.regtest.params failedBranch).index.size = 4 ∧
      (after Network.regtest.params failedBranch).index.FailureClosed ∧
      ((after Network.regtest.params failedBranch).index.markFailed 0).get? 3 =
        ((after Network.regtest.params failedBranch).index.get? 3).map
          (Node.flag Status.failedChild) ∧
      ((after Network.regtest.params failedBranch).index.markFailed 0).markFailed 2 =
        ((after Network.regtest.params failedBranch).index.markFailed 2).markFailed 0 := by
  have hstate : Possible Network.regtest.params failedBranch ∧
      (after Network.regtest.params failedBranch).index.size = 4 ∧
      (after Network.regtest.params failedBranch).index.Descends 3 0 := by
    decide +kernel
  obtain ⟨hpossible, hsize, hdescends⟩ := hstate
  obtain ⟨hclosed, heffect, hcomm⟩ := failure_of_possible hpossible
  refine ⟨hpossible, hsize, hclosed, ?_, hcomm 0 2⟩
  rw [(heffect 0).2 3]
  simp only [hdescends, if_true]
  rfl

/-! ## Where failures come from -/

section Noted

variable {ix : BlockIndex} {f : Node → Node}

/-- A failure of the block, or of one that it descends from, was noted. -/
def FailureNoted (events : List Event) (ix : BlockIndex) (i : Nat) : Prop :=
  ∃ id, .note id .markFailed ∈ events ∧ (i = id ∨ ix.Descends i id)

/-- The blocks that have failed are those of which a failure was noted. -/
def FailuresNoted (events : List Event) (ix : BlockIndex) : Prop :=
  ∀ i n, ix.get? i = some n → (n.status.isFailed = true ↔ FailureNoted events ix i)

theorem failureNoted_congr {ix' : BlockIndex} (hsame : ∀ id, ix'.Descends i id ↔ ix.Descends i id) :
    FailureNoted events ix' i ↔ FailureNoted events ix i := by
  simp only [FailureNoted, hsame]

theorem failureNoted_cons_of_ne (he : ∀ id, e ≠ .note id .markFailed) :
    FailureNoted (e :: events) ix i ↔ FailureNoted events ix i := by
  simp only [FailureNoted, List.mem_cons, Ne.symm (he _), false_or]

theorem failureNoted_cons_markFailed :
    FailureNoted (.note id .markFailed :: events) ix i ↔
      FailureNoted events ix i ∨ i = id ∨ ix.Descends i id := by
  simp only [FailureNoted, List.mem_cons, Event.note.injEq, and_true, or_and_right, exists_or,
    exists_eq_left, or_comm]

theorem FailuresNoted.cons_of_ne (h : FailuresNoted events ix)
    (he : ∀ id, e ≠ .note id .markFailed) : FailuresNoted (e :: events) ix :=
  fun i n hn => (h i n hn).trans (failureNoted_cons_of_ne he).symm

theorem FailuresNoted.markFailed (h : FailuresNoted events ix) (wf : ix.WellFormed)
    (hclosed : ix.FailureClosed) (id : Nat) :
    FailuresNoted (.note id .markFailed :: events) (ix.markFailed id) := by
  intro i n hn
  rw [wf.get?_markFailed hclosed] at hn
  obtain ⟨m, hm, rfl⟩ := Option.map_eq_some_iff.1 hn
  rw [failureNoted_congr fun id' => (sameTree_markFailed ix id).descends_iff i id', isFailed_flag_iff,
    h i m hm, failureNoted_cons_markFailed]

theorem FailuresNoted.modify (h : FailuresNoted events ix) (id : Nat)
    (hf : ∀ n, (f n).status.failure = n.status.failure) (hsame : SameTree ix (ix.modify id f)) :
    FailuresNoted events (ix.modify id f) := by
  intro i n hn
  rw [failureNoted_congr fun id' => hsame.descends_iff i id']
  rw [get?_modify] at hn
  split_ifs at hn
  · obtain ⟨m, hm, rfl⟩ := Option.map_eq_some_iff.1 hn
    rw [Status.isFailed_eq, hf m, ← Status.isFailed_eq, h i m hm]
  · exact h i n hn

/-- A new block is behind all that were named so far, and its parent has not failed. -/
theorem FailuresNoted.push {sub : Submission} {p : Nat} {parent : Node}
    (h : FailuresNoted events s.index) (hconnects : s.Connects sub p parent)
    (wf : s.index.WellFormed)
    (wf' : (s.index.push (freshNode sub.header) (parentPlace sub.header p)).1.WellFormed)
    (hknown : ∀ id, .note id .markFailed ∈ events → id < s.index.size) :
    FailuresNoted events (s.index.push (freshNode sub.header) (parentPlace sub.header p)).1 := by
  intro i n hn
  have hext := extends_push s.index (freshNode sub.header) (parentPlace sub.header p)
  rcases get?_push_cases hn with ⟨rfl, rfl⟩ | hold
  · rw [Node.status_linked, isFailed_freshNode]
    refine iff_of_false Bool.false_ne_true ?_
    rintro ⟨id, hmem, rfl | hdesc⟩
    · exact absurd (hknown _ hmem) (Nat.lt_irrefl _)
    · obtain ⟨p', hp', hcases⟩ := (wf'.descends_iff hn).1 hdesc
      rw [Node.prev_linked] at hp'
      obtain rfl := eq_of_parentPlace_eq_some hp'
      rw [wf.descends_of_extends wf' hext hconnects.get?_parent] at hcases
      have hfailed := (h p' parent hconnects.get?_parent).2 ⟨id, hmem, hcases⟩
      rw [hconnects.unfailed] at hfailed
      cases hfailed
  · rw [failureNoted_congr (wf.descends_of_extends wf' hext hold)]
    exact h i n hold

end Noted

/-- A block has failed exactly if its failure, or that of a block before it, was noted. -/
theorem failuresNoted_of_possible (h : Possible params events) :
    FailuresNoted events (after params events).index := by
  induction events with
  | nil =>
    intro i n hn
    rw [(clean_start params).unfailed i n hn]
    exact iff_of_false Bool.false_ne_true fun ⟨_, hmem, _⟩ => nomatch hmem
  | cons e events ih =>
    have hnoted := ih h.2
    have wf := (sound_of_possible h.2).wellFormed
    have wf' := (sound_of_possible h).wellFormed
    rw [after] at wf' ⊢
    rcases index_step_cases (after params events) e with
      ⟨hno, heq⟩ | ⟨id, note, rfl, heq⟩ | ⟨sub, p, parent, rfl, hconnects, heq⟩
    · rw [heq]
      exact hnoted.cons_of_ne fun id => hno id _
    · rw [heq]
      by_cases hnote : note = .markFailed
      · subst hnote
        exact hnoted.markFailed wf (failureClosed_of_possible h.2) id
      · have hsame := sameTree_note (after params events).index id note
        obtain ⟨f, hf, hmodify⟩ := exists_modify_of_note (after params events).index id hnote
        rw [hmodify] at hsame ⊢
        refine (hnoted.modify id (fun n => (hf n).2) hsame).cons_of_ne fun id' heq => ?_
        exact hnote (Event.note.inj heq).2
    · rw [heq] at wf' ⊢
      have hknown : ∀ id, .note id .markFailed ∈ events → id < (after params events).index.size :=
        fun id hmem => h.2.lt_size hmem rfl
      refine (hnoted.push hconnects wf wf' hknown).cons_of_ne fun id heq => ?_
      cases heq

end MergedWork.ChainState
