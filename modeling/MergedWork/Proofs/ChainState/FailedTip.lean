import MergedWork.Proofs.ChainState.Failure

/-!
# A tip that fails

A note of a failure does not move the tip, and a header moves it only if the new block has more work
than the tip, failed or not. So as long as the tip is not set from outside, it is the first of the
heaviest of all nodes, and it has failed exactly if that was noted while it was the tip
(`tip_of_possible`). Blocks of less work do not take its place, even if they have not failed
(`failed_tip_stays`).
-/

namespace MergedWork

open BlockIndex

theorem BlockIndex.Heaviest.of_sameTree {ix ix' : BlockIndex} {tip : Nat} (h : ix.Heaviest tip)
    (hsame : SameTree ix ix') : ix'.Heaviest tip := by
  obtain ⟨n, hn, hmax⟩ := h
  obtain ⟨n', hn', heq⟩ := hsame.symm.exists_get? hn
  refine ⟨n', hn', fun i m' hm' => ?_⟩
  obtain ⟨m, hm, heq'⟩ := hsame.exists_get? hm'
  have hwork : n'.chainWork = n.chainWork := congrArg Node.Entry.chainWork heq
  have hwork' : m.chainWork = m'.chainWork := congrArg Node.Entry.chainWork heq'
  rw [hwork, ← hwork']
  exact hmax i m hm

namespace ChainState

variable {s : ChainState} {params : Params} {e : Event} {events : List Event} {tip i : Nat}
  {n t : Node}

/-! ## One event -/

theorem updateTip_of_heaviest (htip : s.tip? = some tip) (h : s.index.Heaviest tip) (id : Nat) :
    (s.updateTip id).1 = s := by
  obtain ⟨t, ht, hmax⟩ := h
  rw [updateTip_fst, if_neg]
  intro himproves
  obtain ⟨n, hn, himproves⟩ := (Option.any_eq_true _ _).1 himproves
  have hle := (hmax id n hn).1
  simp only [improves, tipNode?, htip, Option.bind_some, ht, Option.all_some, Bool.and_eq_true,
    decide_eq_true_eq] at himproves
  omega

/-- The tip stays where it is, or moves to a new node that has not failed. It is the heaviest node
before and after. -/
theorem tip_step_cases (hsound : ActiveChain.Sound s.index s.chain (some tip))
    (hheavy : s.index.Heaviest tip) (he : ∀ id, e ≠ .setTip id) :
    ∃ tip', (s.step e).index.Heaviest tip' ∧ (s.step e).tip? = some tip' ∧
      (tip' = tip ∨ ∃ n, (s.step e).index.get? tip' = some n ∧ n.status.isFailed = false) := by
  have wf := hsound.wellFormed
  have htip : s.tip? = some tip := hsound.tip?_eq
  cases e with
  | setTip id => exact absurd rfl (he id)
  | updateTip id =>
    rw [step, updateTip_of_heaviest htip hheavy]
    exact ⟨tip, hheavy, htip, Or.inl rfl⟩
  | note id note =>
    exact ⟨tip, hheavy.of_sameTree (sameTree_note s.index id note), htip, Or.inl rfl⟩
  | submit sub =>
    rw [step]
    rcases s.next_cases sub with heq | ⟨prev, hnew, hlookup, -, heq⟩
    · rw [heq]
      exact ⟨tip, hheavy, htip, Or.inl rfl⟩
    · have hprev : ∀ p, prev = some p → p < s.index.size :=
        fun p hp => lt_size_of_lookup? (hlookup p hp)
      obtain ⟨tip', chain, hplace, hheavy', hfollows', hmoved⟩ :=
        updateTip_push_cases wf hheavy hsound.follows hnew (isFailed_freshNode _) hprev
      obtain ⟨t', ht', -⟩ := id hheavy'
      rw [heq, hmoved]
      refine ⟨tip', hheavy', hfollows'.tip?_eq (wf.push hnew hprev) ht', hplace.imp_right ?_⟩
      rintro rfl
      exact ⟨_, get?_push_size _ _ _, by rw [Node.status_linked, isFailed_freshNode]⟩

theorem descends_step (wf : s.index.WellFormed) (wf' : (s.step e).index.WellFormed)
    (hn : s.index.get? i = some n) (id : Nat) :
    (s.step e).index.Descends i id ↔ s.index.Descends i id := by
  rcases s.index_step_cases e with ⟨-, heq⟩ | ⟨id', note, -, heq⟩ | ⟨sub, p, parent, -, -, heq⟩
  · rw [heq]
  · rw [heq]
    exact (sameTree_note s.index id' note).descends_iff i id
  · rw [heq] at wf' ⊢
    exact wf.descends_of_extends wf' (extends_push _ _ _) hn id

/-! ## All events -/

/-- No event sets the tip from outside. -/
def Unforced (events : List Event) : Prop := ∀ e ∈ events, ∀ id, e ≠ .setTip id

theorem exists_heaviest_tip (h : Possible params events) (hfree : Unforced events)
    (hsize : 0 < (after params events).index.size) :
    ∃ tip, (after params events).tip? = some tip ∧ (after params events).index.Heaviest tip := by
  induction events with
  | nil =>
    rw [after] at hsize ⊢
    by_cases hzero : params.genesis.previous = .zero
    · obtain ⟨tip, hheavy, hfollows⟩ := (coherent_start hzero).active
      exact ⟨tip, (coherent_start hzero).tip?_eq hfollows hheavy, hheavy⟩
    · rw [start_of_previous_ne_zero hzero] at hsize
      exact absurd hsize (Nat.lt_irrefl 0)
  | cons e events ih =>
    rw [after] at hsize ⊢
    obtain ⟨he, hfree⟩ := List.forall_mem_cons.1 hfree
    obtain ⟨tip, htip, hheavy⟩ := ih h.2 hfree (size_pos_of_step hsize)
    have hsound := sound_of_possible h.2
    rw [htip] at hsound
    obtain ⟨tip', hheavy', htip', -⟩ := tip_step_cases hsound hheavy he
    exact ⟨tip', htip', hheavy'⟩

/-- A failure of the node, or of one that it descends from, was noted when the node was the tip
already. -/
def FailedAsTip (params : Params) (events : List Event) (i : Nat) : Prop :=
  ∃ id later earlier, events = later ++ .note id .markFailed :: earlier ∧
    (after params earlier).tip? = some i ∧
    (i = id ∨ (after params events).index.Descends i id)

theorem failedAsTip_of_isFailed (h : Possible params events) (hfree : Unforced events)
    (htip : (after params events).tip? = some tip)
    (ht : (after params events).index.get? tip = some t) (hfailed : t.status.isFailed = true) :
    FailedAsTip params events tip := by
  induction events generalizing t with
  | nil =>
    rw [(clean_start params).unfailed tip t ht] at hfailed
    cases hfailed
  | cons e events ih =>
    obtain ⟨he, hfree⟩ := List.forall_mem_cons.1 hfree
    have wf' := (sound_of_possible h).wellFormed
    obtain ⟨id, hmem, hbehind⟩ := (failuresNoted_of_possible h tip t ht).1 hfailed
    rw [after] at htip ht wf' hbehind
    rcases List.mem_cons.1 hmem with rfl | hmem
    · exact ⟨id, [], events, rfl, htip, hbehind⟩
    -- The failure was noted before this event, which then has not moved the tip: the node to which
    -- an event moves it has not failed.
    have hsize : 0 < ((after params events).step e).index.size :=
      Nat.lt_of_le_of_lt (Nat.zero_le tip) (lt_size_of_get? ht)
    obtain ⟨old, hold, hheavy⟩ := exists_heaviest_tip h.2 hfree (size_pos_of_step hsize)
    have hsound := sound_of_possible h.2
    rw [hold] at hsound
    obtain ⟨tip', -, htip', hmoved⟩ := tip_step_cases hsound hheavy he
    obtain rfl : tip' = tip := Option.some.inj (htip'.symm.trans htip)
    rcases hmoved with rfl | ⟨n, hn, hunfailed⟩
    · obtain ⟨m, hm⟩ := get?_of_lt_size (hsound.known tip' rfl)
      have hsame := descends_step (e := e) hsound.wellFormed wf' hm
      have hfailed' := (failuresNoted_of_possible h.2 tip' m hm).2 ⟨id, hmem, by rwa [← hsame id]⟩
      obtain ⟨id', later, earlier, rfl, htip₀, hbehind'⟩ := ih h.2 hfree hold hm hfailed'
      exact ⟨id', e :: later, earlier, rfl, htip₀, by rwa [after, hsame id']⟩
    · rw [ht, Option.some.injEq] at hn
      rw [hn, hunfailed] at hfailed
      cases hfailed

/-- As long as the tip is not set from outside, it is the first of the heaviest of all nodes, whether
they have failed or not. It has failed exactly if its failure, or that of a node before it, was noted
when it was the tip already. -/
theorem tip_of_possible (h : Possible params events) (hfree : Unforced events)
    (hsize : 0 < (after params events).index.size) :
    ∃ tip t, (after params events).tip? = some tip ∧
      (after params events).index.get? tip = some t ∧
      (after params events).index.Heaviest tip ∧
      (t.status.isFailed = true ↔ FailedAsTip params events tip) := by
  obtain ⟨tip, htip, hheavy⟩ := exists_heaviest_tip h hfree hsize
  obtain ⟨t, ht, -⟩ := id hheavy
  refine ⟨tip, t, htip, ht, hheavy, failedAsTip_of_isFailed h hfree htip ht, ?_⟩
  rintro ⟨id, later, earlier, rfl, -, hbehind⟩
  exact (failuresNoted_of_possible h tip t ht).2 ⟨id, by simp, hbehind⟩

/-- The first of two blocks fails when it is the tip, and the other one comes then. -/
def overtaken : List Event := [.submit (second 1), .note 1 .markFailed, .submit (second 0)]

/-- The tip that has failed is still the first of the heaviest nodes. -/
theorem tip_of_possible_overtaken :
    Possible Network.regtest.params overtaken ∧ Unforced overtaken ∧
      0 < (after Network.regtest.params overtaken).index.size ∧
      (after Network.regtest.params overtaken).tip? = some 1 ∧
      (after Network.regtest.params overtaken).index.Heaviest 1 ∧
      FailedAsTip Network.regtest.params overtaken 1 := by
  have hstate : Possible Network.regtest.params overtaken ∧
      0 < (after Network.regtest.params overtaken).index.size ∧
      (after Network.regtest.params overtaken).tip? = some 1 ∧
      ((after Network.regtest.params overtaken).index.get? 1).map
        (fun t => t.status.isFailed) = some true := by
    decide +kernel
  obtain ⟨hpossible, hsize, htip, hfailed⟩ := hstate
  have hfree : Unforced overtaken := by simp [Unforced, overtaken]
  obtain ⟨tip, t, htip', ht, hheavy, hiff⟩ := tip_of_possible hpossible hfree hsize
  obtain rfl : tip = 1 := Option.some.inj (htip'.symm.trans htip)
  rw [ht, Option.map_some, Option.some.injEq] at hfailed
  exact ⟨hpossible, hfree, hsize, htip, hheavy, hiff.1 hfailed⟩

/-- The second block is accepted while the tip has failed, and has not failed itself. The tip stays
where it is. -/
theorem failed_tip_stays :
    Possible Network.regtest.params overtaken ∧
      (after Network.regtest.params overtaken.tail).Brings (second 1) 2 ∧
      (after Network.regtest.params overtaken).tip? = some 1 ∧
      ∃ t n, (after Network.regtest.params overtaken).index.get? 1 = some t ∧
        t.status.isFailed = true ∧
        (after Network.regtest.params overtaken).index.get? 2 = some n ∧
        n.status.isFailed = false := by
  have hstate : Possible Network.regtest.params overtaken ∧
      (after Network.regtest.params overtaken.tail).index.lookup? (second 1).header.hash = none ∧
      (after Network.regtest.params overtaken.tail).index.size = 2 ∧
      ((after Network.regtest.params overtaken.tail).submit (second 1)).toOption.map Prod.snd =
        some 2 ∧
      (after Network.regtest.params overtaken).tip? = some 1 ∧
      (((after Network.regtest.params overtaken).index.get? 1).map
        fun n => n.status.isFailed) = some true ∧
      (((after Network.regtest.params overtaken).index.get? 2).map
        fun n => n.status.isFailed) = some false := by
    decide +kernel
  obtain ⟨hpossible, hunknown, hsize, hsubmit, htip, hfirst, hsecond⟩ := hstate
  obtain ⟨t, ht, hfailed⟩ := Option.map_eq_some_iff.1 hfirst
  obtain ⟨n, hn, hunfailed⟩ := Option.map_eq_some_iff.1 hsecond
  refine ⟨hpossible, ⟨hunknown, hsize.symm, ?_⟩, htip, t, n, ht, hfailed, hn, hunfailed⟩
  cases hresult : (after Network.regtest.params overtaken.tail).submit (second 1) with
  | error rejection =>
    rw [hresult] at hsubmit
    cases hsubmit
  | ok result =>
    obtain ⟨s', id⟩ := result
    rw [hresult] at hsubmit
    obtain rfl : id = 2 := Option.some.inj hsubmit
    exact ⟨s', rfl⟩

end ChainState

end MergedWork
