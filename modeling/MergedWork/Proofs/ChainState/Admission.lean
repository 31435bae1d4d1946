import MergedWork.Proofs.ChainState.Order
import Mathlib.Data.List.Induction

/-!
# How blocks are admitted

Each node of a state but the first was brought by one submission, whose header is the one that is
read back from the node. `Connects` collects what was checked of it at that time, and
`next_cases_connects` says that a step adds a node in no other way. Since the node is placed one
above the parent that was checked, and the tree only grows, all of this still holds at the end of a
run (`admitted_of_run`).
-/

namespace MergedWork

/-! ## What the checks mean -/

theorem Algorithm.weight_pos (a : Algorithm) : 0 < a.weight := by cases a <;> decide

/-- A header with enough work adds to the work of its chain. -/
theorem Params.Accepts.one_le_work {p : Params} {e : Engine} {h : Header}
    {proof : Option MergeProof} (haccepts : p.Accepts e h proof) : 1 ≤ h.work := by
  have hmeets : ∃ hash, p.Meets hash h.bits h.algorithm := by
    cases proof with
    | none => exact ⟨_, haccepts.2⟩
    | some proof => exact ⟨_, haccepts.2.2.2.2⟩
  obtain ⟨hash, target, hdenotes, -⟩ := hmeets
  exact hdenotes.one_le_work h.algorithm.weight_pos

theorem CheckpointTable.check_eq_ok_iff {t : CheckpointTable} {height : Nat} {hash : Digest} :
    t.check height hash = .ok () ↔
      (t.enabled = true → ∀ known, t.get? height = some known → hash = known) := by
  rw [check, require_eq_ok_iff, allows]
  cases t.enabled with
  | false => simp
  | true =>
    cases t.get? height with
    | none => simp
    | some known => simp [eq_comm]

namespace ChainState

open BlockIndex

variable {s s' : ChainState} {sub : Submission} {params : Params} {subs : List Submission}
  {ix ix' : BlockIndex} {id p : Nat} {n parent : Node} {hash : Digest}

/-! ## Connecting a header -/

/-- A header is new, carries enough work, and may stand behind its parent. -/
structure Connects (s : ChainState) (sub : Submission) (p : Nat) (parent : Node) : Prop where
  unknown : s.index.lookup? sub.header.hash = none
  accepts : s.params.Accepts sub.engine sub.header sub.proof
  lookup?_previous : s.index.lookup? sub.header.previous = some p
  get?_parent : s.index.get? p = some parent
  unfailed : parent.status.isFailed = false
  allowed : s.params.checkpoints.check (parent.height + 1) sub.header.hash = .ok ()

theorem Connects.parentPlace_lt (h : s.Connects sub p parent) :
    ∀ q, parentPlace sub.header p = some q → q < s.index.size := by
  intro q hq
  rw [eq_of_parentPlace_eq_some hq]
  exact lt_size_of_get? h.get?_parent

theorem Connects.hash_parent (h : s.Connects sub p parent) : parent.hash = sub.header.previous := by
  obtain ⟨q, hq, hhash⟩ := hash_of_lookup? h.lookup?_previous
  obtain rfl : q = parent := Option.some.inj (hq.symm.trans h.get?_parent)
  exact hhash

/-- The state with the node of a header behind a place, and the tip where it was. -/
def extended (s : ChainState) (h : Header) (p : Nat) : ChainState :=
  { s with index := (s.index.push (freshNode h) (parentPlace h p)).1 }

/-- A submission of a new header that is accepted connects it, and then tries to move the tip to
it. -/
theorem exists_connects_of_submit (hnew : s.index.lookup? sub.header.hash = none)
    (hok : s.submit sub = .ok (s', id)) :
    ∃ p parent, s.Connects sub p parent ∧ id = s.index.size ∧
      s' = ((s.extended sub.header p).updateTip s.index.size).1 := by
  rcases submit_eq_ok_cases hok with ⟨hknown, -⟩ | ⟨-, haccepts, hconnect⟩
  · cases hnew.symm.trans hknown
  obtain ⟨parent, index, hparent, hfailed, hcheck, hinsert, rfl⟩ := connect_eq_ok_cases hconnect
  obtain ⟨p, hp, hget⟩ := node?_eq_some_iff.1 hparent
  rw [insert_of_lookup? hnew hp] at hinsert
  cases hinsert
  exact ⟨p, parent, ⟨hnew, haccepts, hp, hget, hfailed, hcheck⟩, rfl, rfl⟩

/-- A step changes nothing, or it connects the header, and then tries to move the tip to it. -/
theorem next_cases_connects (s : ChainState) (sub : Submission) :
    s.next sub = s ∨ ∃ p parent, s.Connects sub p parent ∧
      s.submit sub = .ok (s.next sub, s.index.size) ∧
      s.next sub = ((s.extended sub.header p).updateTip s.index.size).1 := by
  unfold next
  cases hsubmit : s.submit sub with
  | error rejection => exact Or.inl rfl
  | ok result =>
    obtain ⟨s', id⟩ := result
    rcases submit_eq_ok_cases hsubmit with ⟨-, rfl⟩ | ⟨hnew, -, -⟩
    · exact Or.inl rfl
    · obtain ⟨p, parent, hconnects, rfl, heq⟩ := exists_connects_of_submit hnew hsubmit
      exact Or.inr ⟨p, parent, hconnects, rfl, heq⟩

theorem Connects.previous_ne_zero (h : s.Connects sub p parent)
    (hzero : s.index.contains .zero = false) : sub.header.previous ≠ .zero := by
  intro heq
  have hp := h.lookup?_previous
  rw [heq] at hp
  rw [BlockIndex.contains, hp] at hzero
  cases hzero

theorem extends_next (s : ChainState) (sub : Submission) :
    Extends s.index (s.next sub).index := by
  rcases s.next_cases_connects sub with heq | ⟨p, parent, -, -, heq⟩
  · rw [heq]
    exact fun _ _ h => h
  · rw [heq, index_updateTip]
    exact extends_push s.index _ _

/-! ## The hashes of a run -/

theorem run_append_singleton (s : ChainState) (subs : List Submission) (sub : Submission) :
    s.run (subs ++ [sub]) = (s.run subs).next sub := by
  simp [run, List.foldl_append]

theorem get?_start (hgenesis : params.genesis.previous = .zero)
    (hn : (start params).index.get? id = some n) : id = 0 ∧ n = genesisNode params := by
  rw [start_eq hgenesis] at hn
  rcases get?_push_cases hn with ⟨hid, hn⟩ | hold
  · exact ⟨hid, hn⟩
  · cases hold

/-- A run knows no hashes but those of the first header and of the headers that were submitted. -/
theorem hash_of_run (hgenesis : params.genesis.previous = .zero)
    (hn : ((start params).run subs).index.get? id = some n) :
    n.hash ∈ params.genesis.hash :: subs.map fun sub => sub.header.hash := by
  induction subs using List.reverseRecOn generalizing id n with
  | nil =>
    obtain ⟨-, rfl⟩ := get?_start hgenesis hn
    exact List.mem_cons_self
  | append_singleton subs sub ih =>
    rw [run_append_singleton] at hn
    have hmono : params.genesis.hash :: subs.map (fun sub => sub.header.hash) ⊆
        params.genesis.hash :: (subs ++ [sub]).map fun sub => sub.header.hash := by
      rw [List.map_append]
      exact List.cons_subset_cons _ (List.subset_append_left _ _)
    rcases ((start params).run subs).next_cases_connects sub with heq | ⟨p, parent, -, -, heq⟩
    · rw [heq] at hn
      exact hmono (ih hn)
    · rw [heq, index_updateTip] at hn
      rcases get?_push_cases hn with ⟨-, rfl⟩ | hold
      · rw [Node.hash_linked]
        simp [freshNode, Node.ofHeader]
      · exact hmono (ih hold)

theorem not_contains_zero_of_run (hgenesis : params.genesis.previous = .zero)
    (hzero : ∀ hash ∈ params.genesis.hash :: subs.map fun sub => sub.header.hash, hash ≠ .zero) :
    ((start params).run subs).index.contains .zero = false := by
  by_contra hcontains
  rw [Bool.not_eq_false, contains_iff] at hcontains
  obtain ⟨id, n, hn, hhash⟩ := hcontains
  exact hzero n.hash (hash_of_run hgenesis hn) hhash

/-! ## Admitted nodes -/

/-- The submission adds the node at the place: its header was not known before. -/
structure Brings (s : ChainState) (sub : Submission) (id : Nat) : Prop where
  unknown : s.index.lookup? sub.header.hash = none
  id_eq : id = s.index.size
  submit_eq : ∃ s', s.submit sub = .ok (s', id)

/-- What is known of the node that a submission brought. -/
structure Admitted (params : Params) (ix : BlockIndex) (sub : Submission) (id : Nat) (n : Node) :
    Prop where
  header_eq : ix.header n = sub.header
  checked : (params.checkHeader sub.engine sub.header sub.proof).value = .ok ()
  parent : ∃ p q, n.prev = some p ∧ p < id ∧ ix.get? p = some q ∧ q.hash = sub.header.previous
  root : (ix.ancestors id).getLast? = some (genesisNode params)
  work : 1 ≤ n.work
  checkpoint : params.checkpoints.enabled = true →
    ∀ hash, params.checkpoints.get? n.height = some hash → n.hash = hash

theorem Admitted.of_extends (h : Admitted params ix sub id n) (wf : ix.WellFormed)
    (wf' : ix'.WellFormed) (hext : Extends ix ix') (hn : ix.get? id = some n) :
    Admitted params ix' sub id n := by
  have hknown : ix'.known n = ix.known n := wf.known_of_extends hext hn
  obtain ⟨p, q, hprev, hlt, hq, hhash⟩ := h.parent
  constructor
  case header_eq => exact (congrArg KnownBlock.header hknown).trans h.header_eq
  case checked => exact h.checked
  case parent => exact ⟨p, q, hprev, hlt, hext p q hq, hhash⟩
  case root =>
    rw [wf.ancestors_of_extends wf' hext hn]
    exact h.root
  case work => exact h.work
  case checkpoint => exact h.checkpoint

/-- If no block has the zero hash, all blocks descend from the first. -/
theorem Coherent.getLast?_ancestors (hs : s.Coherent) (hzero : s.index.contains .zero = false)
    (hn : s.index.get? id = some n) :
    (s.index.ancestors id).getLast? = some (genesisNode s.params) := by
  obtain ⟨front, r, hpath, hr, hroot⟩ := hs.wellFormed.exists_root hn
  have hfirst : r.id = 0 :=
    (hs.rooted r.id r hr hroot).resolve_right (by rw [hzero]; exact Bool.false_ne_true)
  rw [hfirst, hs.genesis, Option.some.injEq] at hr
  rw [hpath, List.getLast?_concat, hr]

theorem Coherent.admitted_next (hs : s.Coherent) (hzero : (s.next sub).index.contains .zero = false)
    (hn : (s.next sub).index.get? id = some n) (hnew : s.index.size ≤ id) :
    s.Brings sub id ∧ Admitted s.params (s.next sub).index sub id n := by
  have hs' : (s.next sub).Coherent := hs.next sub
  have hroot := hs'.getLast?_ancestors hzero hn
  rw [params_next] at hroot
  rcases s.next_cases_connects sub with heq | ⟨p, parent, hconnects, hsubmit, heq⟩
  · rw [heq] at hn
    exact absurd (lt_size_of_get? hn) (Nat.not_lt.2 hnew)
  have hold : s.index.contains .zero = false := by
    by_contra hcontains
    rw [Bool.not_eq_false] at hcontains
    rw [contains_of_extends (extends_next s sub) hcontains] at hzero
    cases hzero
  have hplace : parentPlace sub.header p = some p := if_neg (hconnects.previous_ne_zero hold)
  have hq := hconnects.get?_parent
  have hhash := hconnects.hash_parent
  have hindex : (s.next sub).index =
      (s.index.push (freshNode sub.header) (parentPlace sub.header p)).1 := by
    rw [heq, index_updateTip]
    rfl
  rw [hindex] at hn hroot ⊢
  rcases get?_push_cases hn with ⟨rfl, rfl⟩ | hmem
  · refine ⟨⟨hconnects.unknown, rfl, _, hsubmit⟩, ?_⟩
    constructor
    case header_eq => exact header_pushed hq hhash
    case checked => exact Params.checkHeader_eq_ok_iff.2 hconnects.accepts
    case parent =>
      exact ⟨p, parent, by rw [Node.prev_linked, hplace], lt_size_of_get? hq,
        extends_push s.index _ _ p parent hq, hhash⟩
    case root => exact hroot
    case work =>
      rw [hplace, Option.bind_some, hq]
      exact hconnects.accepts.one_le_work
    case checkpoint =>
      -- The height that was held against the checkpoints is the one at which the node is placed.
      rw [hplace, Option.bind_some, hq]
      exact CheckpointTable.check_eq_ok_iff.1 hconnects.allowed
  · exact absurd (lt_size_of_get? hmem) (Nat.not_lt.2 hnew)

/-- If no header has the zero hash, each node but the first was brought by a submission of the run.
The header of the node is the one that was submitted, which passed the check of its work with the
proof that came with it; its parent is known, it descends from the first block, it counts as work,
and where a checkpoint stands at its height, it is the block of the checkpoint. -/
theorem admitted_of_run (params : Params) (hgenesis : params.genesis.previous = .zero)
    (subs : List Submission)
    (hzero : ∀ hash ∈ params.genesis.hash :: subs.map fun sub => sub.header.hash, hash ≠ .zero)
    {id : Nat} {n : Node} (hn : ((start params).run subs).index.get? id = some n) (hid : id ≠ 0) :
    ∃ before sub after, subs = before ++ sub :: after ∧ ((start params).run before).Brings sub id ∧
      Admitted params ((start params).run subs).index sub id n := by
  induction subs using List.reverseRecOn generalizing id n with
  | nil => exact absurd (get?_start hgenesis hn).1 hid
  | append_singleton subs sub ih =>
    have hs : ((start params).run subs).Coherent := coherent_run hgenesis subs
    have hs' : (((start params).run subs).next sub).Coherent := hs.next sub
    have hfree := not_contains_zero_of_run hgenesis hzero
    have hparams : ((start params).run subs).params = params :=
      (params_run (start params) subs).trans (params_start params)
    rw [run_append_singleton] at hn hfree ⊢
    rcases Nat.lt_or_ge id ((start params).run subs).index.size with hlt | hge
    · -- The node was there before the last step.
      obtain ⟨m, hm⟩ := get?_of_lt_size hlt
      have hext := extends_next ((start params).run subs) sub
      obtain rfl : m = n := Option.some.inj ((hext id m hm).symm.trans hn)
      have hzero' : ∀ hash ∈ params.genesis.hash :: subs.map fun sub => sub.header.hash,
          hash ≠ .zero := by
        intro hash hmem
        refine hzero hash ?_
        rw [List.map_append]
        exact List.cons_subset_cons _ (List.subset_append_left _ _) hmem
      obtain ⟨before, origin, after, rfl, hbrings, hadmitted⟩ := ih hzero' hm hid
      refine ⟨before, origin, after ++ [sub], by simp, hbrings, ?_⟩
      exact hadmitted.of_extends hs.wellFormed hs'.wellFormed hext hm
    · have hadmitted := hs.admitted_next hfree hn hge
      rw [hparams] at hadmitted
      exact ⟨subs, sub, [], rfl, hadmitted⟩

/-- The test network with a checkpoint two blocks behind the first. -/
def guarded : Params :=
  { Network.regtest.params with checkpoints := .ofList [⟨2, third.header.hash⟩] 0 0 0 }

/-- The node at the height of the checkpoint is the block of the checkpoint, and a submission
brought it. -/
theorem admitted_of_run_guarded :
    guarded.genesis.previous = .zero ∧
      (∀ hash ∈ guarded.genesis.hash :: [second 0, third].map fun sub => sub.header.hash,
        hash ≠ .zero) ∧
      guarded.checkpoints.enabled = true ∧
      guarded.checkpoints.get? 2 = some third.header.hash ∧
      ∃ n, ((start guarded).run [second 0, third]).index.get? 2 = some n ∧ n.height = 2 ∧
        n.hash = third.header.hash ∧
        ∃ before sub after, [second 0, third] = before ++ sub :: after ∧
          ((start guarded).run before).Brings sub 2 ∧
          Admitted guarded ((start guarded).run [second 0, third]).index sub 2 n := by
  have hzero : ∀ hash ∈ guarded.genesis.hash :: [second 0, third].map fun sub => sub.header.hash,
      hash ≠ .zero := by
    decide +kernel
  have hentry : guarded.checkpoints.get? 2 = some third.header.hash := by decide +kernel
  have hplaced :
      (((start guarded).run [second 0, third]).index.get? 2).map Node.height = some 2 := by
    decide +kernel
  obtain ⟨n, hn, hheight⟩ := Option.map_eq_some_iff.1 hplaced
  obtain ⟨before, sub, after, hsplit, hbrings, hadmitted⟩ :=
    admitted_of_run guarded rfl [second 0, third] hzero hn (by decide)
  have hhash : n.hash = third.header.hash := hadmitted.checkpoint rfl _ (hheight ▸ hentry)
  exact ⟨rfl, hzero, rfl, hentry, n, hn, hheight, hhash, before, sub, after, hsplit, hbrings,
    hadmitted⟩

end ChainState

end MergedWork
