import MergedWork.Proofs.BlockIndex.Failure

/-!
# How a status moves

Whatever is done to the status of a block raises its level or sets flags (`Status.Step`). No step
clears a flag, and none changes the level of a block that has failed (`Status.Keeps`). Nor does a
step lower the level, provided that the new level fits the bits that hold it: of a greater one only
these bits are kept, so that the level may fall (`level_falls`). To the status of one node, every
operation on an index is a list of steps (`moves_apply`), which carries all this over to the
histories of an index (`status_of_run`).
-/

namespace MergedWork

/-! ## Steps of a status -/

namespace Status

variable {s s' s'' : Status} {flags level : UInt32} {st : Step} {steps : List Step}

/-- What is done to a status. -/
inductive Step
  /-- The level is raised. -/
  | raise (level : UInt32)
  /-- Flags are set, none of which is a bit of the level. -/
  | set (flags : UInt32) (flags_and : flags &&& levelMask = 0)

/-- The status after a step. -/
def step (s : Status) : Step → Status
  | .raise level => s.raise level
  | .set flags _ => s.set flags

/-- The status after steps in the given order. -/
def walk (s : Status) (steps : List Step) : Status := steps.foldl step s

/-- No flag is lost, and the level of a block that has failed stays. -/
structure Keeps (s s' : Status) : Prop where
  has : ∀ flags, flags &&& levelMask = 0 → s.has flags = true → s'.has flags = true
  level_eq : s.isFailed = true → s'.level = s.level

theorem Keeps.refl (s : Status) : s.Keeps s := ⟨fun _ _ h => h, fun _ => rfl⟩

theorem Keeps.isFailed (h : s.Keeps s') (hfailed : s.isFailed = true) : s'.isFailed = true :=
  h.has failedMask (by decide) hfailed

theorem Keeps.trans (h : s.Keeps s') (h' : s'.Keeps s'') : s.Keeps s'' where
  has flags hflags hhas := h'.has flags hflags (h.has flags hflags hhas)
  level_eq hfailed := (h'.level_eq (h.isFailed hfailed)).trans (h.level_eq hfailed)

/-! ## The level -/

theorem and_levelMask_of_le (h : level ≤ levelMask) : level &&& levelMask = level := by
  have hlt : level.toNat < 2 ^ 3 := Nat.lt_succ_of_le (UInt32.le_iff_toNat_le.1 h)
  rw [← UInt32.toNat_inj, UInt32.toNat_and]
  exact Nat.and_two_pow_sub_one_of_lt_two_pow hlt

theorem level_set (h : flags &&& levelMask = 0) : (s.set flags).level = s.level := by
  rw [level, set, Words.or_and_distrib, h, UInt32.or_zero, level]

/-- Of the level to which a block is raised, the bits of the mask are kept. -/
theorem level_raise (s : Status) (level : UInt32) :
    (s.raise level).level = if s.canRaise level then level &&& levelMask else s.level := by
  unfold raise
  split_ifs
  · exact Words.replace_and_mask s.word levelMask level
  · rfl

theorem canRaise_iff : s.canRaise level = true ↔ s.isFailed = false ∧ s.level < level := by
  rw [canRaise, Bool.and_eq_true, Bool.not_eq_true', decide_eq_true_iff]

/-- To a level that fits the mask, a block can be raised exactly if that makes its level greater. -/
theorem canRaise_iff_level_lt (h : level ≤ levelMask) :
    s.canRaise level = true ↔ s.level < (s.raise level).level := by
  rw [level_raise, and_levelMask_of_le h]
  split_ifs with hcan
  · exact iff_of_true hcan (canRaise_iff.1 hcan).2
  · exact iff_of_false hcan (UInt32.lt_irrefl _)

/-- What comes of raising a status to a level, and of what is answered to it. -/
structure Raised (s : Status) (level : UInt32) (s' : Status) (answer : Bool) : Prop where
  answer_iff : answer = true ↔ s.isFailed = false ∧ s.level < level
  unchanged : answer = false → s' = s
  level_eq : answer = true → s'.level = level &&& levelMask
  greater_iff : level ≤ levelMask → (answer = true ↔ s.level < s'.level)

theorem raised_raise (s : Status) (level : UInt32) :
    s.Raised level (s.raise level) (s.canRaise level) where
  answer_iff := canRaise_iff
  unchanged hcan := by rw [raise, if_neg (by rw [hcan]; exact Bool.false_ne_true)]
  level_eq hcan := by rw [level_raise, if_pos hcan]
  greater_iff := canRaise_iff_level_lt

/-! ## Runs of steps -/

theorem keeps_raise (s : Status) (level : UInt32) : s.Keeps (s.raise level) where
  has flags hflags hhas := by
    rwa [has, raise_and_of_and_eq_zero hflags]
  level_eq hfailed := by
    rw [level_raise, if_neg]
    simp [canRaise, hfailed]

theorem keeps_set (s : Status) (h : flags &&& levelMask = 0) : s.Keeps (s.set flags) where
  has flags' _ hhas := by
    rw [has_set, hhas, Bool.true_or]
  level_eq _ := level_set h

theorem keeps_step (s : Status) (st : Step) : s.Keeps (s.step st) := by
  cases st with
  | raise level => exact s.keeps_raise level
  | set flags hflags => exact s.keeps_set hflags

theorem keeps_walk (s : Status) (steps : List Step) : s.Keeps (s.walk steps) := by
  induction steps generalizing s with
  | nil => exact Keeps.refl s
  | cons st steps ih => exact (s.keeps_step st).trans (ih (s.step st))

theorem level_le_step (h : ∀ level, st = .raise level → level ≤ levelMask) :
    s.level ≤ (s.step st).level := by
  cases st with
  | set flags hflags => exact UInt32.le_of_eq (level_set hflags).symm
  | raise level =>
    rw [step, level_raise, and_levelMask_of_le (h level rfl)]
    split_ifs with hcan
    · exact UInt32.le_of_lt (canRaise_iff.1 hcan).2
    · exact UInt32.le_refl _

theorem level_le_walk (h : ∀ level, .raise level ∈ steps → level ≤ levelMask) :
    s.level ≤ (s.walk steps).level := by
  induction steps generalizing s with
  | nil => exact UInt32.le_refl _
  | cons st steps ih =>
    have hst : s.level ≤ (s.step st).level :=
      level_le_step fun level hraise => h level (hraise ▸ List.mem_cons_self)
    exact UInt32.le_trans hst (ih fun level hmem => h level (List.mem_cons_of_mem st hmem))

end Status

/-! ## Steps of a node -/

namespace BlockIndex

open Status (levelMask)

variable {ix ix' ix'' : BlockIndex} {id i : Nat} {n : Node} {f : Node → Node}
  {raises raises' : UInt32 → Prop}

/-- The status of the node at a place goes through steps, which raise it to certain levels only. -/
def Moves (raises : UInt32 → Prop) (i : Nat) (ix ix' : BlockIndex) : Prop :=
  ∀ n, ix.get? i = some n → ∃ m steps, ix'.get? i = some m ∧ m.status = n.status.walk steps ∧
    ∀ level, .raise level ∈ steps → raises level

theorem Moves.of_extends (h : Extends ix ix') : Moves raises i ix ix' :=
  fun n hn => ⟨n, [], h i n hn, rfl, fun _ hmem => by cases hmem⟩

theorem Moves.refl (ix : BlockIndex) : Moves raises i ix ix := .of_extends fun _ _ h => h

theorem Moves.trans (h : Moves raises i ix ix') (h' : Moves raises i ix' ix'') :
    Moves raises i ix ix'' := by
  intro n hn
  obtain ⟨m, steps, hm, hstatus, hraises⟩ := h n hn
  obtain ⟨m', steps', hm', hstatus', hraises'⟩ := h' m hm
  refine ⟨m', steps ++ steps', hm', ?_, fun level hmem => ?_⟩
  · rw [hstatus', hstatus, Status.walk, Status.walk, Status.walk, List.foldl_append]
  · exact (List.mem_append.1 hmem).elim (hraises level) (hraises' level)

theorem Moves.mono (h : Moves raises i ix ix') (hle : ∀ level, raises level → raises' level) :
    Moves raises' i ix ix' := by
  intro n hn
  obtain ⟨m, steps, hm, hstatus, hraises⟩ := h n hn
  exact ⟨m, steps, hm, hstatus, fun level hmem => hle level (hraises level hmem)⟩

/-- A change of one node that is a list of steps for its status. -/
theorem moves_modify (ix : BlockIndex) (steps : List Status.Step)
    (hf : ∀ n, (f n).status = n.status.walk steps)
    (hraises : ∀ level, .raise level ∈ steps → id = i → raises level) :
    Moves raises i ix (ix.modify id f) := by
  intro n hn
  rw [get?_modify, hn]
  split_ifs with hid
  · exact ⟨f n, steps, rfl, hf n, fun level hmem => hraises level hmem hid⟩
  · exact ⟨n, [], rfl, rfl, fun _ hmem => by cases hmem⟩

theorem moves_setStatus (ix : BlockIndex) (id : Nat) {flags : UInt32}
    (hflags : flags &&& levelMask = 0) : Moves raises i ix (ix.setStatus id flags) :=
  moves_modify ix [.set flags hflags] (fun _ => rfl) fun _ hmem => by simp at hmem

theorem moves_markFailed (ix : BlockIndex) (id : Nat) : Moves raises i ix (ix.markFailed id) := by
  have hspread : ∀ (places : List Nat) (ix : BlockIndex),
      Moves raises i ix (places.foldl spreadFailure ix) := by
    intro places
    induction places with
    | nil => exact fun ix => .refl ix
    | cons k places ih =>
      intro ix
      refine Moves.trans ?_ (ih (ix.spreadFailure k))
      unfold spreadFailure
      split_ifs
      · exact moves_setStatus ix k (by decide)
      · exact .refl ix
  exact (moves_setStatus ix id (by decide)).trans (hspread _ _)

/-- An operation raises a node to a level of its own only if it says so. -/
theorem moves_apply (ix : BlockIndex) (change : Change) (i : Nat) :
    Moves (fun level => level ≤ levelMask ∨ change = .raiseValidity i level) i ix
      (ix.apply change) := by
  cases change with
  | insert header =>
    rw [apply]
    cases hinsert : ix.insert header with
    | error rejection => exact .refl ix
    | ok added =>
      obtain ⟨ix', id⟩ := added
      rcases insert_eq_ok_cases hinsert with ⟨-, rfl⟩ | ⟨-, -, ⟨-, rfl⟩ | ⟨p, -, -, rfl⟩⟩
      · exact .refl ix'
      · exact .of_extends (extends_push ix _ _)
      · exact .of_extends (extends_push ix _ _)
  | insertLoaded node previous =>
    rw [apply]
    cases hinsert : ix.insertLoaded node previous with
    | error missing => exact .refl ix
    | ok added =>
      obtain ⟨ix', id⟩ := added
      rcases insertLoaded_eq_ok_cases hinsert with ⟨-, rfl⟩ | ⟨prev, -, -, rfl, -⟩
      · exact .refl ix'
      · exact .of_extends (extends_push ix _ _)
  | markFailed id => exact moves_markFailed ix id
  | raiseValidity id level =>
    refine moves_modify ix [.raise level] (fun _ => rfl) fun level' hmem hid => Or.inr ?_
    rw [List.mem_singleton, Status.Step.raise.injEq] at hmem
    rw [hmem, hid]
  | setBlockData id txCount pos =>
    refine moves_modify ix [.set Status.haveData (by decide), .raise Status.validTransactions]
      (fun _ => rfl) fun level hmem _ => Or.inl ?_
    simp only [List.mem_cons, reduceCtorEq, Status.Step.raise.injEq, List.not_mem_nil, or_false,
      false_or] at hmem
    subst hmem
    decide
  | setUndoData id pos =>
    exact moves_modify ix [.set Status.haveUndo (by decide)] (fun _ => rfl)
      fun _ hmem => by simp at hmem
  | setMoneySupply id supply => exact moves_modify ix [] (fun _ => rfl) fun _ hmem => by cases hmem

theorem moves_run (ix : BlockIndex) (history : List Change) (i : Nat) :
    Moves (fun level => level ≤ levelMask ∨ .raiseValidity i level ∈ history) i ix
      (ix.run history) := by
  induction history generalizing ix with
  | nil => exact .refl ix
  | cons change history ih =>
    have hfirst : Moves (fun level => level ≤ levelMask ∨
        .raiseValidity i level ∈ change :: history) i ix (ix.apply change) := by
      refine (ix.moves_apply change i).mono fun level hraises => hraises.imp_right ?_
      rintro rfl
      exact List.mem_cons_self
    exact hfirst.trans ((ih (ix.apply change)).mono fun level hraises =>
      hraises.imp_right (List.mem_cons_of_mem change))

/-! ## The status of a node along a history -/

/-- Whether a node was raised is said of the node as it was, and what it becomes follows from it. -/
theorem raised_raiseValidity (hn : ix.get? id = some n) (level : UInt32) :
    ∃ r, (ix.raiseValidity id level).1.get? id = some r ∧
      n.status.Raised level r.status (ix.raiseValidity id level).2 := by
  refine ⟨{ n with status := n.status.raise level }, ?_, ?_⟩
  · rw [raiseValidity, get?_modify, if_pos rfl, hn]
    rfl
  · rw [raiseValidity, hn]
    exact n.status.raised_raise level

/-- Along every history, a status loses no flag, and the level of a block that has failed stays. The
level of no block falls, as long as the levels that it is raised to fit the mask. It could be raised
to such a level exactly if its level is greater afterwards. The same holds of a status that is in no
index. -/
theorem status_of_run (s : Status) (steps : List Status.Step) (ix : BlockIndex)
    (history : List Change) {id : Nat} {n : Node} (hn : ix.get? id = some n) :
    (s.Keeps (s.walk steps) ∧
      ((∀ level, .raise level ∈ steps → level ≤ levelMask) → s.level ≤ (s.walk steps).level) ∧
      ∀ level, (s.walk steps).Raised level ((s.walk steps).raise level)
        ((s.walk steps).canRaise level)) ∧
    ∃ m, (ix.run history).get? id = some m ∧ n.status.Keeps m.status ∧
      ((∀ level, .raiseValidity id level ∈ history → level ≤ levelMask) →
        n.status.level ≤ m.status.level) ∧
      ∀ level, ∃ r, ((ix.run history).raiseValidity id level).1.get? id = some r ∧
        m.status.Raised level r.status ((ix.run history).raiseValidity id level).2 := by
  refine ⟨⟨s.keeps_walk steps, Status.level_le_walk, (s.walk steps).raised_raise⟩, ?_⟩
  obtain ⟨m, path, hm, hstatus, hraises⟩ := ix.moves_run history id n hn
  refine ⟨m, hm, hstatus ▸ n.status.keeps_walk path, fun hfit => ?_, raised_raiseValidity hm⟩
  rw [hstatus]
  exact Status.level_le_walk fun level hmem => (hraises level hmem).elim (fun h => h) (hfit level)

/-- The first block of the test network, on its own. -/
def lone : BlockIndex := (empty .standard).run [.insert Network.regtest.params.genesis]

/-- A block is raised and stored, and fails. After that it is not raised any more. -/
def failing : List Change :=
  [.raiseValidity 0 5, .setBlockData 0 1 ⟨0, 8⟩, .markFailed 0, .raiseValidity 0 6]

theorem status_of_run_failing :
    ∃ n m, lone.get? 0 = some n ∧ n.status = ⟨2⟩ ∧ (lone.run failing).get? 0 = some m ∧
      m.status = ⟨45⟩ ∧ n.status.Keeps m.status ∧ n.status.level ≤ m.status.level := by
  have hstart : (lone.get? 0).map Node.status = some ⟨2⟩ := by decide +kernel
  have hend : ((lone.run failing).get? 0).map Node.status = some ⟨45⟩ := by decide +kernel
  obtain ⟨n, hn, hstatus⟩ := Option.map_eq_some_iff.1 hstart
  obtain ⟨-, m, hm, hkeeps, hlevel, -⟩ := status_of_run .unknown [.raise 5] lone failing hn
  rw [hm, Option.map_some, Option.some.injEq] at hend
  refine ⟨n, m, hn, hstatus, hm, hend, hkeeps, hlevel fun level hmem => ?_⟩
  simp only [failing, List.mem_cons, reduceCtorEq, Change.raiseValidity.injEq, true_and,
    List.not_mem_nil, or_false, false_or] at hmem
  rcases hmem with rfl | rfl <;> decide

/-- A block of level 7 is raised to level 8, of which no bit is kept, and comes out at level 0. -/
theorem level_falls :
    let ix := lone.run [.raiseValidity 0 7]
    (ix.get? 0).map (fun n => n.status.level) = some 7 ∧ (ix.raiseValidity 0 8).2 = true ∧
      ((ix.raiseValidity 0 8).1.get? 0).map (fun n => n.status.level) = some 0 := by
  decide +kernel

end BlockIndex

end MergedWork
