import MergedWork.Proofs.Archive.Load
import MergedWork.Proofs.ChainState.Events

/-!
# Saving and loading a state

What a state saves in an archive of its own run can be loaded again (`load_save`), and of each block
the same is known then: blocks that an earlier state saved are still known, so that their records
are overwritten. A tip that has not failed is found again by its hash, and the path to it is the old
active chain, since it passes the same hashes in an index that knows the same of each.
-/

namespace MergedWork

open BlockIndex

namespace ChainState

variable {s : ChainState} {tip : Nat}

theorem contains_step (wf : s.index.WellFormed) (e : Event) {hash : Digest}
    (h : s.index.contains hash = true) : (s.step e).index.contains hash = true := by
  rcases s.index_step_cases e with ⟨-, heq⟩ | ⟨id, note, -, heq⟩ | ⟨sub, p, parent, -, -, heq⟩
  · rwa [heq]
  · rw [heq, BlockIndex.contains, wf.lookup?_of_sameTree (sameTree_note s.index id note)]
    exact h
  · rw [heq]
    exact contains_of_extends (extends_push _ _ _) h

end ChainState

namespace Archive

open ChainState

variable {a : Archive} {params : Params} {events : List Event} {jx : BlockIndex} {t : Node}
  {tip : Nat}

/-- The archives of a run: each was empty first, and states of the run were saved in it. -/
inductive Written (params : Params) : List Event → Archive → Prop
  | empty : Written params [] .empty
  | event {events : List Event} {a : Archive} (h : Written params events a) (e : Event) :
      Written params (e :: events) a
  | save {events : List Event} {a : Archive} (h : Written params events a) :
      Written params events (a.saveState (after params events))

theorem saveState_records (a : Archive) (s : ChainState) :
    (a.saveState s).records = (a.saveIndex s.index).records := by
  rw [saveState]
  cases s.tipNode? <;> rfl

theorem Fits.saveState {s : ChainState} (h : a.Fits s.index) (wf : s.index.WellFormed) :
    (a.saveState s).Fits s.index := by
  obtain ⟨hascending, hmem⟩ := h.saveIndex wf
  rw [← saveState_records] at hascending hmem
  refine ⟨hascending, fun r hr => ?_⟩
  obtain ⟨i, n, hn, rfl⟩ := (hmem r).1 hr
  exact contains_iff.2 ⟨i, n, hn, rfl⟩

/-- An archive of a run knows no hashes that the run does not know. -/
theorem Written.fits (h : Written params events a) (hpossible : Possible params events) :
    a.Fits (after params events).index := by
  induction h with
  | empty => exact fits_empty _
  | event _ e ih =>
    have wf := (sound_of_possible hpossible.2).wellFormed
    exact (ih hpossible.2).mono fun hash => contains_step wf e
  | save _ ih => exact (ih hpossible).saveState (sound_of_possible hpossible).wellFormed

/-! ## States that know the same -/

/-- Both states know the same of each block, and have the same active chain. -/
structure Alike (s s' : ChainState) : Prop where
  contains : ∀ hash, s'.index.contains hash = s.index.contains hash
  stored? : ∀ hash, s'.index.stored? hash = s.index.stored? hash
  tip : s'.tipNode?.map Node.hash = s.tipNode?.map Node.hash
  hashAt? : ∀ height, s'.hashAt? height = s.hashAt? height

theorem alike_of_size_eq_zero {s s' : ChainState} (wf : s.index.WellFormed)
    (wf' : s'.index.WellFormed) (hsize : s.index.size = 0) (hsize' : s'.index.size = 0) :
    Alike s s' := by
  have hempty : ∀ {ix : BlockIndex}, ix.size = 0 → ix.get? = fun _ => none := fun hsize =>
    funext fun id => Array.getElem?_eq_none (by rw [← size, hsize]; exact Nat.zero_le id)
  have hstored : ∀ hash, s'.index.stored? hash = s.index.stored? hash := fun hash => by
    rw [wf.size_eq_zero_iff.1 hsize, wf'.size_eq_zero_iff.1 hsize']
  constructor
  case contains => exact fun hash => by rw [contains_eq, contains_eq, hstored]
  case stored? => exact hstored
  case tip =>
    rw [tipNode?, tipNode?, hempty hsize, hempty hsize', Option.bind_fun_none,
      Option.bind_fun_none]
  case hashAt? =>
    intro height
    rw [ChainState.hashAt?, ChainState.hashAt?, hempty hsize, hempty hsize', Option.bind_fun_none,
      Option.bind_fun_none]

theorem alike_of_tip {s s' : ChainState} {tip tip' : Nat} {t t' : Node}
    (hsound : ActiveChain.Sound s.index s.chain (some tip))
    (hsound' : ActiveChain.Sound s'.index s'.chain (some tip')) (ht : s.index.get? tip = some t)
    (ht' : s'.index.get? tip' = some t') (hhash : t'.hash = t.hash)
    (hstored : ∀ hash, s'.index.stored? hash = s.index.stored? hash) : Alike s s' := by
  have htip : s.tip? = some tip := hsound.tip?_eq
  have htip' : s'.tip? = some tip' := hsound'.tip?_eq
  have hblock : ∀ hash, s'.index.block? hash = s.index.block? hash := fun hash => by
    rw [block?_eq, block?_eq, hstored]
  constructor
  case contains => exact fun hash => by rw [contains_eq, contains_eq, hstored]
  case stored? => exact hstored
  case tip =>
    rw [tipNode?, tipNode?, htip, htip', Option.bind_some, Option.bind_some, ht, ht',
      Option.map_some, Option.map_some, hhash]
  case hashAt? =>
    intro height
    rw [hashAt?_eq hsound.wellFormed hsound.follows, hashAt?_eq hsound'.wellFormed hsound'.follows,
      hsound'.wellFormed.path_hashes_eq hsound.wellFormed hblock ht' ht hhash]

theorem restore_eq (params : Params) (wf : jx.WellFormed) (ht : jx.get? tip = some t)
    (hunfailed : t.status.isFailed = false) :
    restore params jx (some t.hash) =
      ⟨jx, (ActiveChain.empty.setTip jx (some tip)).1, params⟩ := by
  have hnode : jx.node? t.hash = some t :=
    node?_eq_some_iff.2 ⟨tip, wf.lookup?_eq_some_iff.2 ⟨t, ht, rfl⟩, ht⟩
  have hid : t.id = tip := (wf.placed tip t ht).id_eq
  simp [restore, hnode, Option.filter, hunfailed, hid]

/-- A tip that has not failed is found again by its hash, wherever its node stands. -/
theorem alike_restore (params : Params) {s : ChainState}
    (hsound : ActiveChain.Sound s.index s.chain (some tip)) (ht : s.index.get? tip = some t)
    (hunfailed : t.status.isFailed = false) (wf : jx.WellFormed)
    (hstored : ∀ hash, jx.stored? hash = s.index.stored? hash) :
    Alike s (restore params jx (some t.hash)) := by
  obtain ⟨tip', t', -, ht', hhash, heq⟩ :=
    exists_of_stored? ((hstored t.hash).trans (hsound.wellFormed.stored?_of_get? ht))
  have hstatus : t'.status = t.status := congrArg StoredBlock.status heq
  have hrestore := restore_eq params wf ht' (by rw [hstatus, hunfailed])
  rw [hhash] at hrestore
  rw [hrestore]
  have hsound' : ActiveChain.Sound jx (ActiveChain.empty.setTip jx (some tip')).1 (some tip') :=
    ⟨wf, lt_size_of_some_get? ht', (ActiveChain.follows_empty jx).setTip wf (some tip')⟩
  exact alike_of_tip hsound hsound' ht ht' hhash hstored

/-- In the archive of a run, a state of the run whose tip has not failed can be saved, and loading it
succeeds. The loaded state knows the same of each block, and has the same active chain. -/
theorem load_save (hpossible : Possible params events) (hwritten : Written params events a)
    (hunfailed : ∀ t, (after params events).tipNode? = some t → t.status.isFailed = false) :
    ∃ s', (a.saveState (after params events)).loadState params = .ok s' ∧ s'.params = params ∧
      Alike (after params events) s' := by
  have hsound := sound_of_possible hpossible
  obtain ⟨hascending, hmem⟩ := (hwritten.fits hpossible).saveIndex hsound.wellFormed
  rw [← saveState_records] at hascending hmem
  obtain ⟨jx, hload, wf, hstored⟩ :=
    exists_loadIndex hsound.wellFormed hascending hmem params.forkRule
  have hsize : jx.size = 0 ↔ (after params events).index.size = 0 := by
    rw [wf.size_eq_zero_iff, hsound.wellFormed.size_eq_zero_iff]
    simp only [hstored]
  rw [loadState, hload]
  by_cases hzero : (after params events).index.size = 0
  · have hstart : (start params).index.WellFormed := (clean_start params).wellFormed
    have hstartsize : (start params).index.size = 0 :=
      Nat.le_zero.1 (hzero ▸ size_start_le params events)
    exact ⟨start params, congrArg Except.ok (if_pos (hsize.2 hzero)), params_start params,
      alike_of_size_eq_zero hsound.wellFormed hstart hzero hstartsize⟩
  · obtain ⟨tip, htip⟩ := exists_tip hpossible (Nat.pos_of_ne_zero hzero)
    rw [htip] at hsound
    obtain ⟨t, ht⟩ := get?_of_lt_size (hsound.known tip rfl)
    have htipNode : (after params events).tipNode? = some t := by
      rw [tipNode?, htip, Option.bind_some, ht]
    have hbest : (a.saveState (after params events)).bestTip = some t.hash := by
      rw [saveState, htipNode]
      rfl
    refine ⟨restore params jx (some t.hash), ?_, rfl,
      alike_restore params hsound ht (hunfailed t htipNode) wf hstored⟩
    rw [hbest]
    exact congrArg Except.ok (if_neg (mt hsize.1 hzero))

/-- A fork of which the side branch has failed, and of which the first block is stored. -/
def storedFork : List Event :=
  [.note 2 .markFailed, .note 1 (.setBlockData 5 ⟨1, 8⟩), .submit third, .submit (second 1),
    .submit (second 0)]

/-- An archive in which the first block was saved before the fork was known. -/
def savedBefore : Archive :=
  Archive.empty.saveState (after Network.regtest.params [.submit (second 0)])

/-- The whole fork is saved over what was saved before, and comes back. -/
theorem load_save_fork :
    Possible Network.regtest.params storedFork ∧ Written Network.regtest.params storedFork savedBefore ∧
      (after Network.regtest.params storedFork).index.size = 4 ∧ savedBefore.records.length = 2 ∧
      (∀ t, (after Network.regtest.params storedFork).tipNode? = some t →
        t.status.isFailed = false) ∧
      ∃ s', (savedBefore.saveState (after Network.regtest.params storedFork)).loadState
          Network.regtest.params = .ok s' ∧
        s'.params = Network.regtest.params ∧
        Alike (after Network.regtest.params storedFork) s' := by
  have hstate : Possible Network.regtest.params storedFork ∧
      (after Network.regtest.params storedFork).index.size = 4 ∧ savedBefore.records.length = 2 ∧
      ((after Network.regtest.params storedFork).tipNode?.map fun t => t.status.isFailed) =
        some false := by
    decide +kernel
  obtain ⟨hpossible, hsize, hlength, htip⟩ := hstate
  have hwritten : Written Network.regtest.params storedFork savedBefore := by
    apply Written.event
    apply Written.event
    apply Written.event
    apply Written.event
    apply Written.save
    apply Written.event
    exact Written.empty
  have hunfailed : ∀ t, (after Network.regtest.params storedFork).tipNode? = some t →
      t.status.isFailed = false := by
    intro t ht
    rw [ht] at htip
    exact Option.some.inj htip
  exact ⟨hpossible, hwritten, hsize, hlength, hunfailed, load_save hpossible hwritten hunfailed⟩

end Archive

end MergedWork
