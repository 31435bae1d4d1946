import MergedWork.Proofs.Archive.RoundTrip
import MergedWork.Proofs.Archive.Settled

/-!
# Loading what was loaded

A process saves nodes of its states whenever it likes, so that an archive may hold an old record of
one block and a new one of the next, a tip that has failed since, or blocks whose parents are not
stored. A load either fails or repairs what it finds: sums are added up, places are given anew,
and a tip that is of no use is replaced. After one load nothing is left to be repaired: the state
comes back when it is saved and loaded again, and to save it once more changes nothing
(`reload_of_session`). All that is needed of the records is that no state of the process says
otherwise of the heights and the parents of their blocks (`Session.faithful`).
-/

namespace MergedWork.Archive

open BlockIndex ChainState

variable {a a' : Archive} {params : Params} {ix ix' : BlockIndex} {s s' s₁ : ChainState}
  {past : List ChainState} {r : Record} {n t : Node} {best : Option Digest}

/-! ## Processes and their archives -/

/-- The state of a process, the states that it had before, and the archive that it has written so far.
It may save what it likes of any of these states. When it starts anew, only the archive is left. -/
inductive Session : ChainState → List ChainState → Archive → Prop
  | start (params : Params) : Session (.start params) [] .empty
  | event {s : ChainState} {past : List ChainState} {a : Archive} (h : Session s past a)
      (e : Event) : Session (s.step e) (s :: past) a
  | change {s : ChainState} {past : List ChainState} {a : Archive} (h : Session s past a)
      (c : Change) : Session { s with index := s.index.apply c } (s :: past) a
  | saveNode {s : ChainState} {past : List ChainState} {a : Archive} (h : Session s past a)
      {p : ChainState} (hp : p ∈ s :: past) {id : Nat} {n : Node} (hn : p.index.get? id = some n) :
      Session s past (a.saveNode p.index n)
  | saveIndex {s : ChainState} {past : List ChainState} {a : Archive} (h : Session s past a)
      {p : ChainState} (hp : p ∈ s :: past) : Session s past (a.saveIndex p.index)
  | saveState {s : ChainState} {past : List ChainState} {a : Archive} (h : Session s past a)
      {p : ChainState} (hp : p ∈ s :: past) : Session s past (a.saveState p)
  | setBestTip {s : ChainState} {past : List ChainState} {a : Archive} (h : Session s past a)
      (hash : Digest) : Session s past (a.setBestTip hash)
  | load {s : ChainState} {past : List ChainState} {a : Archive} (h : Session s past a)
      {params : Params} {s' : ChainState} (hload : a.loadState params = .ok s') : Session s' [] a

/-! ## What is written is true -/

theorem Stands.of_sameTree (h : Stands ix r) (hsame : SameTree ix ix') : Stands ix' r := by
  obtain ⟨i, n, hn, hkey, hparent⟩ := h
  obtain ⟨m, hm, hentry⟩ := hsame.symm.exists_get? hn
  obtain ⟨-, hhash, -, hprev, hheight, -⟩ := Node.entry_eq_iff.1 hentry
  refine ⟨i, m, hm, ?_, ?_⟩
  · rw [← hkey, Node.key, Node.key, hheight, hhash]
  · rw [← hparent, parentHash?, parentHash?, hprev]
    cases n.prev with
    | none => rfl
    | some p =>
      have hsame := congrArg (Option.map Node.Entry.hash) (hsame p)
      rw [Option.map_map, Option.map_map] at hsame
      exact hsame

theorem Stands.apply (h : Stands ix r) (wf : ix.WellFormed) (c : Change) :
    Stands (ix.apply c) r := by
  rcases ix.apply_cases c with hsame | ⟨n, prev, -, -, heq⟩
  · exact h.of_sameTree hsame
  · rw [heq]
    exact h.of_extends wf (extends_push ix n prev)

/-- In the last state of a process, the blocks stand as all earlier states and all records say. -/
structure Faithful (s : ChainState) (past : List ChainState) (a : Archive) : Prop where
  wellFormed : s.index.WellFormed
  past : ∀ p ∈ past, ∀ r, Stands p.index r → Stands s.index r
  ascending : Ascending a.records
  stands : ∀ r ∈ a.records, Stands s.index r

theorem Faithful.advance (h : Faithful s past a) (wf : s'.index.WellFormed)
    (hkept : ∀ r, Stands s.index r → Stands s'.index r) : Faithful s' (s :: past) a where
  wellFormed := wf
  past := List.forall_mem_cons.2 ⟨hkept, fun p hp r hr => hkept r (h.past p hp r hr)⟩
  ascending := h.ascending
  stands r hr := hkept r (h.stands r hr)

theorem Faithful.change (h : Faithful s past a) {c : Change} (heq : s'.index = s.index.apply c) :
    Faithful s' (s :: past) a := by
  refine h.advance ?_ fun r hr => ?_
  · rw [heq]
    exact h.wellFormed.apply c
  · rw [heq]
    exact hr.apply h.wellFormed c

theorem Faithful.event (h : Faithful s past a) (e : Event) : Faithful (s.step e) (s :: past) a := by
  rcases s.index_step_eq_or e with heq | ⟨c, heq⟩
  · exact h.advance (heq ▸ h.wellFormed) fun r hr => heq ▸ hr
  · exact h.change heq

theorem Faithful.of_records (h : Faithful s past a) (heq : a'.records = a.records) :
    Faithful s past a' :=
  ⟨h.wellFormed, h.past, heq ▸ h.ascending, heq ▸ h.stands⟩

theorem Faithful.stands_of_mem (h : Faithful s past a) {p : ChainState} (hp : p ∈ s :: past)
    (hr : Stands p.index r) : Stands s.index r := by
  rcases List.mem_cons.1 hp with rfl | hp
  · exact hr
  · exact h.past p hp r hr

theorem Faithful.saveNode (h : Faithful s past a) (hr : Stands s.index (record ix n)) :
    Faithful s past (a.saveNode ix n) where
  wellFormed := h.wellFormed
  past := h.past
  ascending := h.ascending.put (record ix n)
  stands q hq := by
    rcases (mem_put h.ascending).1 hq with rfl | ⟨hq, -⟩
    · exact hr
    · exact h.stands q hq

theorem Faithful.saveIndex (h : Faithful s past a) {p : ChainState} (hp : p ∈ s :: past) :
    Faithful s past (a.saveIndex p.index) := by
  have hnodes : ∀ n ∈ p.index.nodes.toList, Stands s.index (record p.index n) := fun n hn => by
    obtain ⟨i, hi⟩ := mem_nodes_iff.1 hn
    exact h.stands_of_mem hp (stands_record hi)
  rw [Archive.saveIndex, ← Array.foldl_toList]
  generalize p.index.nodes.toList = nodes at hnodes
  induction nodes generalizing a with
  | nil => exact h
  | cons n nodes ih =>
    obtain ⟨hn, hnodes⟩ := List.forall_mem_cons.1 hnodes
    exact ih (h.saveNode hn) hnodes

theorem Faithful.fits (h : Faithful s past a) : a.Fits s.index :=
  ⟨h.ascending, fun r hr => (h.stands r hr).contains⟩

/-! ## What is loaded -/

theorem loadState_eq_ok_cases (hload : a.loadState params = .ok s₁) :
    ∃ jx, a.loadIndex params.forkRule = .ok jx ∧
      s₁ = if jx.size = 0 then .start params else .restore params jx a.bestTip := by
  rw [loadState] at hload
  cases hindex : a.loadIndex params.forkRule with
  | error cause =>
    rw [hindex] at hload
    cases hload
  | ok jx =>
    rw [hindex] at hload
    cases hload
    exact ⟨jx, rfl, rfl⟩

theorem settled_start (params : Params) :
    (start params).index.Settled ∧ (start params).index.rule = params.forkRule := by
  have hempty := loaded_empty params.forkRule
  by_cases hzero : params.genesis.previous = .zero
  · rw [start_eq hzero]
    refine ⟨⟨?_, hempty.linked.push hempty.wellFormed nofun, List.pairwise_singleton _ _⟩, rfl⟩
    exact hempty.wellFormed.push (lookup?_empty _ _) nofun
  · rw [start_of_previous_ne_zero hzero]
    exact ⟨⟨hempty.wellFormed, hempty.linked, List.Pairwise.nil⟩, rfl⟩

theorem Faithful.settled_of_load (h : Faithful s past a) (hload : a.loadState params = .ok s₁) :
    s₁.index.Settled ∧ s₁.index.rule = params.forkRule ∧ ∀ r ∈ a.records, Stands s₁.index r := by
  obtain ⟨jx, hindex, rfl⟩ := loadState_eq_ok_cases hload
  obtain ⟨hsettled, hrule, hstands, hsize⟩ :=
    loaded_of_loadIndex h.wellFormed h.ascending h.stands hindex
  split_ifs with hzero
  · have hrecords : a.records = [] := List.eq_nil_of_length_eq_zero (hsize.symm.trans hzero)
    obtain ⟨hstart, hrule⟩ := settled_start params
    exact ⟨hstart, hrule, hrecords ▸ nofun⟩
  · exact ⟨hsettled, hrule, hstands⟩

theorem Session.faithful (h : Session s past a) : Faithful s past a := by
  induction h with
  | start params => exact ⟨(settled_start params).1.wellFormed, nofun, List.Pairwise.nil, nofun⟩
  | event _ e ih => exact ih.event e
  | change _ c ih => exact ih.change rfl
  | saveNode _ hp hn ih => exact ih.saveNode (ih.stands_of_mem hp (stands_record hn))
  | saveIndex _ hp ih => exact ih.saveIndex hp
  | saveState _ hp ih => exact (ih.saveIndex hp).of_records (saveState_records _ _)
  | setBestTip _ hash ih => exact ih.of_records rfl
  | load _ hload ih =>
    obtain ⟨hsettled, -, hstands⟩ := ih.settled_of_load hload
    exact ⟨hsettled.wellFormed, nofun, ih.ascending, hstands⟩

/-! ## Choosing the tip again -/

/-- What may be chosen as the tip. -/
def Usable (ix : BlockIndex) (t : Node) : Prop := ix.get? t.id = some t ∧ t.status.isFailed = false

theorem usable_of_heaviest? (wf : ix.WellFormed) (h : heaviest? ix = some t) : Usable ix t := by
  have hbest : t ∈ ix.nodes.toList ∧ t.status.isFailed = false := by
    rw [heaviest?, ← Array.foldl_toList] at h
    refine List.foldlRecOn (motive := fun best =>
      ∀ t, best = some t → t ∈ ix.nodes.toList ∧ t.status.isFailed = false)
      ix.nodes.toList _ (by simp) (fun best hbest n hn t ht => ?_) t h
    split_ifs at ht with hskip
    · exact hbest t ht
    · cases ht
      rw [Bool.not_eq_true, Bool.or_eq_false_iff] at hskip
      exact ⟨hn, hskip.1⟩
  obtain ⟨i, hi⟩ := mem_nodes_iff.1 hbest.1
  have hid : t.id = i := (wf.placed i t hi).id_eq
  exact ⟨hid ▸ hi, hbest.2⟩

theorem usable_of_stored (wf : ix.WellFormed)
    (h : (best.bind ix.node?).filter (fun n => !n.status.isFailed) = some t) : Usable ix t := by
  obtain ⟨hstored, hunfailed⟩ := Option.filter_eq_some_iff.1 h
  obtain ⟨hash, -, hnode⟩ := Option.bind_eq_some_iff.1 hstored
  obtain ⟨i, -, hi⟩ := node?_eq_some_iff.1 hnode
  have hid : t.id = i := (wf.placed i t hi).id_eq
  exact ⟨hid ▸ hi, by simpa using hunfailed⟩

/-- A state is restored without a tip, or with one that has not failed. -/
theorem restore_cases (params : Params) (wf : ix.WellFormed) (best : Option Digest) :
    restore params ix best = ⟨ix, .empty, params⟩ ∨ ∃ t, Usable ix t ∧
      restore params ix best = ⟨ix, (ActiveChain.empty.setTip ix (some t.id)).1, params⟩ := by
  rw [restore]
  cases hchosen : ((best.bind ix.node?).filter fun n => !n.status.isFailed).or (heaviest? ix) with
  | none => exact Or.inl rfl
  | some t =>
    refine Or.inr ⟨t, ?_, rfl⟩
    rcases Option.or_eq_some_iff.1 hchosen with hstored | ⟨-, hheaviest⟩
    · exact usable_of_stored wf hstored
    · exact usable_of_heaviest? wf hheaviest

theorem bestTip_saveIndex (a : Archive) (ix : BlockIndex) : (a.saveIndex ix).bestTip = a.bestTip := by
  rw [saveIndex, ← Array.foldl_toList]
  exact List.foldlRecOn (motive := fun a' : Archive => a'.bestTip = a.bestTip) ix.nodes.toList _ rfl
    fun _ h _ _ => h

theorem bestTip_saveState (a : Archive) (s : ChainState) :
    (a.saveState s).bestTip = (s.tipNode?.map Node.hash).or a.bestTip := by
  rw [saveState]
  cases s.tipNode? with
  | none => exact bestTip_saveIndex a s.index
  | some t => rfl

/-- A tip that has not failed is chosen again, once its hash is stored. -/
theorem restore_of_tip {tip : Nat} (wf : s.index.WellFormed)
    (hfollows : s.chain.Follows s.index (some tip)) (ht : s.index.get? tip = some t)
    (hunfailed : t.status.isFailed = false) (a : Archive) :
    restore s.params s.index (a.saveState s).bestTip = s := by
  have htip : s.tipNode? = some t := by
    rw [tipNode?, tip?, hfollows.tip?_eq wf ht, Option.bind_some, ht]
  have hagain := (ActiveChain.follows_empty s.index).setTip wf (some tip)
  have hchain : (ActiveChain.empty.setTip s.index (some tip)).1 = s.chain :=
    ActiveChain.Follows.unique hagain hfollows
  rw [bestTip_saveState, htip, Option.map_some, Option.some_or, restore_eq s.params wf ht hunfailed,
    hchain]

theorem restore_bestTip (params : Params) (wf : ix.WellFormed) (a : Archive) :
    restore params ix (a.saveState (restore params ix a.bestTip)).bestTip =
      restore params ix a.bestTip := by
  rcases restore_cases params wf a.bestTip with hrestore | ⟨t, ⟨ht, hunfailed⟩, hrestore⟩
  · have htip : (restore params ix a.bestTip).tipNode? = none := by
      rw [hrestore]
      rfl
    rw [bestTip_saveState, htip, Option.map_none, Option.none_or]
  · rw [hrestore]
    exact restore_of_tip (s := ⟨ix, _, params⟩) wf
      ((ActiveChain.follows_empty ix).setTip wf (some t.id)) ht hunfailed a

theorem restore_start (hsize : (start params).index.size ≠ 0) (a : Archive) :
    restore params (start params).index (a.saveState (start params)).bestTip = start params := by
  have hpossible : Possible params [] := trivial
  have hsound : ActiveChain.Sound (start params).index (start params).chain (start params).tip? :=
    sound_of_possible hpossible
  obtain ⟨tip, htip⟩ : ∃ tip, (start params).tip? = some tip :=
    exists_tip hpossible (Nat.pos_of_ne_zero hsize)
  rw [htip] at hsound
  obtain ⟨t, ht⟩ := get?_of_lt_size (hsound.known tip rfl)
  have hrestore := restore_of_tip hsound.wellFormed hsound.follows ht
    ((clean_start params).unfailed tip t ht) a
  rwa [params_start] at hrestore

/-! ## Saving what was loaded -/

instance : Std.Asymm fun r q : Record => r.node.hash.bytes < q.node.hash.bytes where
  asymm _ _ := List.lt_asymm

/-- Saving a state for the second time in a row changes nothing. -/
theorem Fits.saveState_saveState (h : a.Fits s.index) (wf : s.index.WellFormed) :
    (a.saveState s).saveState s = a.saveState s := by
  obtain ⟨hascending, hmem⟩ := h.saveIndex wf
  obtain ⟨hascending', hmem'⟩ := (h.saveState wf).saveIndex wf
  have hrecords : ((a.saveState s).saveState s).records = (a.saveState s).records := by
    rw [saveState_records, saveState_records a s]
    exact hascending'.eq_of_mem_iff hascending fun r => (hmem' r).trans (hmem r).symm
  have hbest : ((a.saveState s).saveState s).bestTip = (a.saveState s).bestTip := by
    rw [bestTip_saveState, bestTip_saveState, ← Option.or_assoc, Option.or_self]
  exact congrArg₂ Archive.mk hrecords hbest

/-- From the archive of a process, a state is loaded that is loaded again once it is saved, and that
changes nothing in the archive when it is saved once more. -/
theorem reload_of_session (h : Session s past a) (hload : a.loadState params = .ok s₁) :
    (a.saveState s₁).loadState params = .ok s₁ ∧
      (a.saveState s₁).saveState s₁ = a.saveState s₁ := by
  obtain ⟨hsettled, hrule, -⟩ := h.faithful.settled_of_load hload
  have hfits : a.Fits s₁.index := (h.load hload).faithful.fits
  refine ⟨?_, hfits.saveState_saveState hsettled.wellFormed⟩
  have hindex : (a.saveState s₁).loadIndex params.forkRule = .ok s₁.index := by
    rw [loadIndex, saveState_records, ← hrule]
    exact loadIndex_saveIndex hsettled hfits
  rw [loadState, hindex]
  refine congrArg Except.ok ?_
  obtain ⟨jx, -, hs₁⟩ := loadState_eq_ok_cases hload
  split_ifs at hs₁ with hzero
  · subst hs₁
    split_ifs with hsize
    · rfl
    · exact restore_start hsize a
  · subst hs₁
    exact (if_neg hzero).trans (restore_bestTip params hsettled.wellFormed a)

theorem session_after (params : Params) (events : List Event) :
    ∃ past, Session (after params events) past .empty := by
  induction events with
  | nil => exact ⟨[], .start params⟩
  | cons e events ih =>
    obtain ⟨past, h⟩ := ih
    exact ⟨_, h.event e⟩

/-- A fork of which the data of the second block became known before those of the first, and of which
the tip has failed. -/
def lateFork : List Event :=
  [.note 3 .markFailed, .note 0 (.setBlockData 2 ⟨0, 8⟩), .note 1 (.setBlockData 3 ⟨0, 300⟩),
    .submit third, .submit (second 1), .submit (second 0)]

def lateArchive : Archive := Archive.empty.saveState (after Network.regtest.params lateFork)

/-- The records of the fork as they are loaded. -/
def lateRecords : List Record :=
  lateArchive.records.insertionSort fun r q => r.node.height ≤ q.node.height

/-- What is known of the index that is loaded from records: the transactions of each chain, and the
place of the tip that it is restored with. -/
def loadedFacts (records : List Record) (best : Option Digest) : Option (List Nat × Option Nat) :=
  (records.foldlM place (.empty Network.regtest.params.forkRule)).toOption.map fun ix =>
    (ix.nodes.toList.map Node.chainTx, (restore Network.regtest.params ix best).tip?)

/-- The load of the fork adds up what had not been added, and replaces the failed tip; it is this
state that comes back. -/
theorem reload_of_session_late :
    ∃ past s₁, Session (after Network.regtest.params lateFork) past lateArchive ∧
      lateArchive.loadState Network.regtest.params = .ok s₁ ∧
      (after Network.regtest.params lateFork).tip? = some 3 ∧ s₁.tip? = some 2 ∧
      (after Network.regtest.params lateFork).index.nodes.toList.map Node.chainTx = [2, 0, 0, 0] ∧
      s₁.index.nodes.toList.map Node.chainTx = [2, 5, 0, 0] ∧
      (lateArchive.saveState s₁).loadState Network.regtest.params = .ok s₁ ∧
      (lateArchive.saveState s₁).saveState s₁ = lateArchive.saveState s₁ := by
  obtain ⟨past, hpast⟩ := session_after Network.regtest.params lateFork
  have hsession : Session (after Network.regtest.params lateFork) past lateArchive :=
    hpast.saveState List.mem_cons_self
  have hstate : (lateRecords.map fun r => r.node.key).Pairwise KeyBefore ∧
      loadedFacts lateRecords lateArchive.bestTip = some ([2, 5, 0, 0], some 2) ∧
      (after Network.regtest.params lateFork).tip? = some 3 ∧
      (after Network.regtest.params lateFork).index.nodes.toList.map Node.chainTx = [2, 0, 0, 0] := by
    decide +kernel
  obtain ⟨hordered, hfacts, htip, hchain⟩ := hstate
  have hload := loadIndex_eq_foldlM hsession.faithful.ascending hordered
    (fun r => (List.perm_insertionSort _ _).mem_iff) Network.regtest.params.forkRule
  rw [loadedFacts, ← hload] at hfacts
  cases hindex : lateArchive.loadIndex Network.regtest.params.forkRule with
  | error cause =>
    rw [hindex] at hfacts
    cases hfacts
  | ok jx =>
    rw [hindex] at hfacts
    obtain ⟨hchain', htip'⟩ := Prod.mk.inj (Option.some.inj hfacts)
    have hsize : jx.size ≠ 0 := by
      have hlength := congrArg List.length hchain'
      rw [List.length_map, Array.length_toList] at hlength
      rw [BlockIndex.size, hlength]
      decide
    have hrestored : lateArchive.loadState Network.regtest.params =
        .ok (restore Network.regtest.params jx lateArchive.bestTip) := by
      rw [loadState, hindex]
      exact congrArg Except.ok (if_neg hsize)
    exact ⟨past, _, hsession, hrestored, htip, htip', hchain, hchain',
      reload_of_session hsession hrestored⟩

end MergedWork.Archive
