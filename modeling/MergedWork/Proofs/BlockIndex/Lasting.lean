import MergedWork.Proofs.BlockIndex.Failure
import MergedWork.Proofs.BlockIndex.Known
import MergedWork.Proofs.BlockIndex.Meet

/-!
# What stays known of a block

No operation changes the entry of a node that is in the index, or the rule by which blocks are past
the fork (`Retains`). The ancestors of an old node are old nodes, so that their entries stay as well
(`Retains.map_entry_ancestors`). All that is asked about blocks is read off the entries of such
paths: the header and the height, common ancestors, majorities, median times and averages. Hence
each question about old nodes has the same answer at all later points of a history
(`answers_of_run`).
-/

namespace MergedWork.BlockIndex

variable {ix ix' ix'' : BlockIndex} {id i b : Nat} {start : Option Nat} {n m : Node}
  {path path' : List Node}

/-! ## Entries that stay -/

/-- The nodes of the one index stand in the other with the same entries, and the rule is the
same. -/
structure Retains (ix ix' : BlockIndex) : Prop where
  rule_eq : ix'.rule = ix.rule
  exists_get? : ∀ i n, ix.get? i = some n → ∃ m, ix'.get? i = some m ∧ m.entry = n.entry

theorem Retains.refl (ix : BlockIndex) : Retains ix ix := ⟨rfl, fun _ n hn => ⟨n, hn, rfl⟩⟩

theorem Retains.trans (h : Retains ix ix') (h' : Retains ix' ix'') : Retains ix ix'' where
  rule_eq := h'.rule_eq.trans h.rule_eq
  exists_get? i n hn := by
    obtain ⟨m, hm, heq⟩ := h.exists_get? i n hn
    obtain ⟨m', hm', heq'⟩ := h'.exists_get? i m hm
    exact ⟨m', hm', heq'.trans heq⟩

theorem rule_apply (ix : BlockIndex) (change : Change) : (ix.apply change).rule = ix.rule := by
  cases change with
  | insert header =>
    rw [apply]
    cases hinsert : ix.insert header with
    | error rejection => rfl
    | ok added =>
      obtain ⟨ix', id⟩ := added
      rcases insert_eq_ok_cases hinsert with ⟨-, rfl⟩ | ⟨-, -, ⟨-, rfl⟩ | ⟨p, -, -, rfl⟩⟩ <;> rfl
  | insertLoaded node previous =>
    rw [apply]
    cases hinsert : ix.insertLoaded node previous with
    | error missing => rfl
    | ok added =>
      obtain ⟨ix', id⟩ := added
      rcases insertLoaded_eq_ok_cases hinsert with ⟨-, rfl⟩ | ⟨prev, -, -, rfl, -⟩ <;> rfl
  | markFailed id => exact rule_markFailed ix id
  | raiseValidity _ _ | setBlockData _ _ _ | setUndoData _ _ | setMoneySupply _ _ => rfl

theorem retains_apply (ix : BlockIndex) (change : Change) : Retains ix (ix.apply change) where
  rule_eq := rule_apply ix change
  exists_get? i n hn := by
    rcases ix.apply_cases change with hsame | ⟨m, prev, -, -, heq⟩
    · exact hsame.symm.exists_get? hn
    · rw [heq]
      exact ⟨n, extends_push ix m prev i n hn, rfl⟩

theorem retains_run (ix : BlockIndex) (history : List Change) : Retains ix (ix.run history) :=
  run_induction (fun ix' change h => h.trans (retains_apply ix' change)) (Retains.refl ix) history

/-! ## Headers and paths -/

theorem Retains.header_eq (h : Retains ix ix') (wf : ix.WellFormed) (hn : ix.get? id = some n)
    (heq : m.entry = n.entry) : ix'.header m = ix.header n := by
  obtain ⟨hfields, -, -, hprev, -⟩ := Node.entry_eq_iff.1 heq
  have hprevious : ix'.previousHash m = ix.previousHash n := by
    rw [previousHash, previousHash, hprev]
    cases hp : n.prev with
    | none => rfl
    | some p =>
      obtain ⟨-, q, hq, -⟩ := (wf.placed id n hn).child p hp
      obtain ⟨q', hq', heq'⟩ := h.exists_get? p q hq
      have hhash : q'.hash = q.hash := congrArg Node.Entry.hash heq'
      rw [Option.bind_some, Option.bind_some, hq, hq', Option.map_some, Option.map_some, hhash]
  rw [header, header, hfields, hprevious]

theorem Retains.map_entry_ancestors (h : Retains ix ix') (wf : ix.WellFormed)
    (wf' : ix'.WellFormed) (hn : ix.get? id = some n) :
    (ix'.ancestors id).map Node.entry = (ix.ancestors id).map Node.entry := by
  induction id using Nat.strongRecOn generalizing n with
  | _ id ih =>
    obtain ⟨m, hm, heq⟩ := h.exists_get? id n hn
    have hprev' : m.prev = n.prev := congrArg Node.Entry.prev heq
    rw [wf.ancestors_eq_cons hn, wf'.ancestors_eq_cons hm, List.map_cons, List.map_cons, heq, hprev']
    cases hprev : n.prev with
    | none => rfl
    | some p =>
      obtain ⟨hlt, q, hq, -⟩ := (wf.placed id n hn).child p hprev
      rw [pathFrom_some, pathFrom_some, ih p hlt hq]

theorem Retains.map_entry_pathFrom (h : Retains ix ix') (wf : ix.WellFormed)
    (wf' : ix'.WellFormed) (hstart : ∀ id ∈ start, id < ix.size) :
    (ix'.pathFrom start).map Node.entry = (ix.pathFrom start).map Node.entry := by
  cases start with
  | none => rfl
  | some id =>
    obtain ⟨n, hn⟩ := get?_of_lt_size (hstart id rfl)
    exact h.map_entry_ancestors wf wf' hn

/-! ## What is read off entries -/

/-- A search by what entries say finds the same entry. -/
theorem map_entry_find? (heq : path'.map Node.entry = path.map Node.entry)
    (p : Node.Entry → Bool) :
    (path'.find? fun n => p n.entry).map Node.entry =
      (path.find? fun n => p n.entry).map Node.entry := by
  have hfind : ∀ l : List Node, (l.find? fun n => p n.entry).map Node.entry =
      (l.map Node.entry).find? p := fun l => List.find?_map.symm
  rw [hfind, hfind, heq]

theorem countP_entry (heq : path'.map Node.entry = path.map Node.entry) (p : Node.Entry → Bool) :
    (path'.countP fun n => p n.entry) = path.countP fun n => p n.entry := by
  have hcount : ∀ l : List Node, (l.countP fun n => p n.entry) = (l.map Node.entry).countP p :=
    fun l => List.countP_map.symm
  rw [hcount, hcount, heq]

theorem WellFormed.lastCommon?_eq_find?_id (wf : ix.WellFormed) (a b : Nat) :
    ix.lastCommon? a b =
      (ix.ancestors b).find? fun n => n.id ∈ (ix.ancestors a).map Node.id := by
  rw [wf.lastCommon?_eq_find?]
  refine List.find?_congr fun n hn => decide_eq_decide.2 ⟨List.mem_map_of_mem, fun hid => ?_⟩
  obtain ⟨m, hm, heq⟩ := List.mem_map.1 hid
  have hget := (wf.split_ancestors hm).1
  rw [heq, (wf.split_ancestors hn).1, Option.some.injEq] at hget
  rwa [hget]

/-! ## Answers that stay -/

section

variable (h : Retains ix ix') (wf : ix.WellFormed) (wf' : ix'.WellFormed)

include h wf wf'

theorem Retains.map_entry_recent (limit : Nat) (hstart : ∀ id ∈ start, id < ix.size) :
    (ix'.recent limit start).map Node.entry = (ix.recent limit start).map Node.entry := by
  rw [wf.recent_eq_take, wf'.recent_eq_take, List.map_take, List.map_take,
    h.map_entry_pathFrom wf wf' hstart]

theorem Retains.map_entry_ancestor? (hn : ix.get? id = some n) (height : Nat) :
    (ix'.ancestor? id height).map Node.entry = (ix.ancestor? id height).map Node.entry := by
  rw [ancestor?_eq_find?, ancestor?_eq_find?]
  exact map_entry_find? (h.map_entry_ancestors wf wf' hn) fun e => e.height = height

theorem Retains.map_entry_lastCommon? (hn : ix.get? id = some n) (hm : ix.get? b = some m) :
    (ix'.lastCommon? id b).map Node.entry = (ix.lastCommon? id b).map Node.entry := by
  have hids : (ix'.ancestors id).map Node.id = (ix.ancestors id).map Node.id := by
    have hentries := congrArg (List.map Node.Entry.id) (h.map_entry_ancestors wf wf' hn)
    rwa [List.map_map, List.map_map] at hentries
  rw [wf.lastCommon?_eq_find?_id, wf'.lastCommon?_eq_find?_id, hids]
  exact map_entry_find? (h.map_entry_ancestors wf wf' hm)
    fun e => e.id ∈ (ix.ancestors id).map Node.id

theorem Retains.superMajority_eq (hstart : ∀ id ∈ start, id < ix.size)
    (minVersion required window : Nat) :
    ix'.superMajority minVersion start required window =
      ix.superMajority minVersion start required window := by
  have hentries := congrArg (List.take window) (h.map_entry_pathFrom wf wf' hstart)
  rw [← List.map_take, ← List.map_take] at hentries
  have hcount := countP_entry hentries fun e => minVersion ≤ e.version.base.toNat
  rw [Bool.eq_iff_iff, wf.superMajority_iff, wf'.superMajority_iff]
  exact iff_of_eq (congrArg (required ≤ ·) hcount)

theorem Retains.onFork_eq (hn : ix.get? id = some n) (heq : m.entry = n.entry) :
    ix'.onFork m = ix.onFork n := by
  obtain ⟨-, -, -, hprev, hheight, -⟩ := Node.entry_eq_iff.1 heq
  rw [onFork, onFork, h.rule_eq, hheight, hprev]
  simp only [h.superMajority_eq wf wf' (wf.lt_size_of_prev hn)]

theorem Retains.map_entry_regime (hpath : ∀ n ∈ path, ix.get? n.id = some n)
    (heq : path'.map Node.entry = path.map Node.entry) (seen : Bool) :
    (ix'.regime seen path').map Node.entry = (ix.regime seen path).map Node.entry := by
  induction path generalizing path' seen with
  | nil => rw [List.map_eq_nil_iff.1 heq, regime, regime]
  | cons n path ih =>
    obtain ⟨m, path', rfl, hentry, hrest⟩ := List.map_eq_cons_iff.1 heq
    obtain ⟨hn, hpath⟩ := List.forall_mem_cons.1 hpath
    rw [regime, regime, h.onFork_eq wf wf' hn hentry]
    split_ifs
    · rw [List.map_singleton, List.map_singleton, hentry]
    · rw [List.map_cons, List.map_cons, hentry, ih hpath hrest]

theorem Retains.medianTimePast_eq (hn : ix.get? id = some n) :
    ix'.medianTimePast id = ix.medianTimePast id := by
  have hknown : ∀ m ∈ ix.recent medianSpan (some id), ix.get? m.id = some m := by
    rw [wf.recent_eq_take]
    exact fun m hm => (wf.split_pathFrom (List.mem_of_mem_take hm)).1
  have hregime := h.map_entry_regime wf wf' hknown
    (h.map_entry_recent wf wf' medianSpan (lt_size_of_some_get? hn)) false
  have htimes := congrArg (List.map fun e : Node.Entry => e.time.toNat) hregime
  rw [List.map_map, List.map_map] at htimes
  exact congrArg upperMedian htimes

theorem Retains.averageWork_eq (hn : ix.get? id = some n) :
    ix'.averageWork id = ix.averageWork id := by
  have hworks := congrArg (List.map fun e : Node.Entry => e.work)
    (h.map_entry_recent wf wf' averageSpan (lt_size_of_some_get? hn))
  rw [List.map_map, List.map_map] at hworks
  exact congrArg (fun works : List Nat => works.foldl addWork 0 / works.length) hworks

end

/-- What is asked about a node of the one index has the same answer about the node that stands in
its place in the other. -/
structure SameAnswers (ix ix' : BlockIndex) (id : Nat) (n m : Node) : Prop where
  get? : ix'.get? id = some m
  entry : m.entry = n.entry
  lookup? : ix.lookup? n.hash = some id ∧ ix'.lookup? m.hash = some id
  header : ix'.header m = ix.header n
  ancestors : (ix'.ancestors id).map Node.entry = (ix.ancestors id).map Node.entry
  ancestor? : ∀ height,
    (ix'.ancestor? id height).map Node.entry = (ix.ancestor? id height).map Node.entry
  lastCommon? : ∀ other, other < ix.size →
    (ix'.lastCommon? id other).map Node.entry = (ix.lastCommon? id other).map Node.entry
  superMajority : ∀ minVersion required window,
    ix'.superMajority minVersion (some id) required window =
      ix.superMajority minVersion (some id) required window
  onFork : ix'.onFork m = ix.onFork n
  medianTimePast : ix'.medianTimePast id = ix.medianTimePast id
  averageWork : ix'.averageWork id = ix.averageWork id

theorem Retains.exists_sameAnswers (h : Retains ix ix') (wf : ix.WellFormed)
    (wf' : ix'.WellFormed) (hn : ix.get? id = some n) : ∃ m, SameAnswers ix ix' id n m := by
  obtain ⟨m, hm, heq⟩ := h.exists_get? id n hn
  refine ⟨m, ?_⟩
  constructor
  case get? => exact hm
  case entry => exact heq
  case lookup? =>
    exact ⟨wf.lookup?_eq_some_iff.2 ⟨n, hn, rfl⟩, wf'.lookup?_eq_some_iff.2 ⟨m, hm, rfl⟩⟩
  case header => exact h.header_eq wf hn heq
  case ancestors => exact h.map_entry_ancestors wf wf' hn
  case ancestor? => exact h.map_entry_ancestor? wf wf' hn
  case lastCommon? =>
    intro other hother
    obtain ⟨o, ho⟩ := get?_of_lt_size hother
    exact h.map_entry_lastCommon? wf wf' hn ho
  case superMajority => exact h.superMajority_eq wf wf' (lt_size_of_some_get? hn)
  case onFork => exact h.onFork_eq wf wf' hn heq
  case medianTimePast => exact h.medianTimePast_eq wf wf' hn
  case averageWork => exact h.averageWork_eq wf wf' hn

/-- Along a history, a node that is in the index at some point stays in its place with its entry,
and all questions about such nodes have the same answers ever after. -/
theorem answers_of_run (rule : ForkRule) (history later : List Change) {id : Nat} {n : Node}
    (hn : ((empty rule).run history).get? id = some n) :
    ∃ m, SameAnswers ((empty rule).run history) ((empty rule).run (history ++ later)) id n m := by
  have hrun : (empty rule).run (history ++ later) = ((empty rule).run history).run later := by
    rw [run, run, run, List.foldl_append]
  have wf := wellFormed_run rule history
  have wf' := wellFormed_run rule (history ++ later)
  rw [hrun] at wf' ⊢
  exact (retains_run _ later).exists_sameAnswers wf wf' hn

/-- A stored block with a hash of its own. -/
def numbered (k : Nat) : Node :=
  { Node.ofHeader Network.regtest.params.genesis with hash := .ofNat k }

/-- Two blocks, the second behind the first. -/
def pair : List Change :=
  [.insertLoaded (numbered 1) none, .insertLoaded (numbered 2) (some (.ofNat 1))]

/-- The second block is stored and fails with the first, and a third one comes behind the first. -/
def rival : List Change :=
  [.setBlockData 1 4 ⟨0, 8⟩, .markFailed 0, .insertLoaded (numbered 3) (some (.ofNat 1))]

/-- The second block has failed later on, and all else that is asked about it is as before. -/
theorem answers_of_run_rival :
    ∃ n m, ((empty .standard).run pair).get? 1 = some n ∧ n.status.isFailed = false ∧
      SameAnswers ((empty .standard).run pair) ((empty .standard).run (pair ++ rival)) 1 n m ∧
      m.status.isFailed = true := by
  have hstart : (((empty .standard).run pair).get? 1).map (fun n => n.status.isFailed) =
      some false := by decide +kernel
  have hend : (((empty .standard).run (pair ++ rival)).get? 1).map (fun n => n.status.isFailed) =
      some true := by decide +kernel
  obtain ⟨n, hn, hunfailed⟩ := Option.map_eq_some_iff.1 hstart
  obtain ⟨m, hsame⟩ := answers_of_run .standard pair rival hn
  rw [hsame.get?, Option.map_some, Option.some.injEq] at hend
  exact ⟨n, m, hn, hunfailed, hsame, hend⟩

end MergedWork.BlockIndex
