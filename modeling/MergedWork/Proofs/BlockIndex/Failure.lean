import MergedWork.Proofs.BlockIndex.History
import MergedWork.Proofs.Words

/-!
# What a failure spreads to

`FailureClosed` says that each node whose parent has failed is marked for it. In such an index, one
pass over the places behind a node marks exactly the descendants of the node: other nodes with a
failed parent carry the mark already (`WellFormed.get?_markFailed`). The pass leaves a closed index
(`FailureClosed.markFailed`), and since marks only add bits, two failures may come in either order
(`WellFormed.markFailed_comm`).
-/

namespace MergedWork

/-! ## Bits of a status -/

namespace Status

variable {s : Status} {flags mask : UInt32}

theorem has_set : (s.set flags).has mask = (s.has mask || flags &&& mask ≠ 0) := by
  rw [Bool.eq_iff_iff]
  simp [has, set, Words.or_and_distrib, UInt32.or_eq_zero_iff, imp_iff_not_or]

/-- The flags of failure alone. -/
def failure (s : Status) : UInt32 := s.word &&& failedMask

theorem isFailed_eq (s : Status) : s.isFailed = decide (s.failure ≠ 0) := rfl

theorem has_failedChild_eq (s : Status) :
    s.has failedChild = decide (s.failure &&& failedChild ≠ 0) := by
  have hmask : failedMask &&& failedChild = failedChild := by decide
  rw [has, failure, UInt32.and_assoc, hmask]

theorem failure_set (h : flags &&& failedMask = 0) : (s.set flags).failure = s.failure := by
  rw [failure, set, Words.or_and_distrib, h, UInt32.or_zero, failure]

/-- Raising a level changes no bits but those of the level. -/
theorem raise_and_of_and_eq_zero (h : flags &&& levelMask = 0) (s : Status) (level : UInt32) :
    (s.raise level).word &&& flags = s.word &&& flags := by
  unfold raise
  split_ifs
  · exact Words.replace_and_of_and_eq_zero h s.word level
  · rfl

theorem failure_raise (s : Status) (level : UInt32) : (s.raise level).failure = s.failure :=
  s.raise_and_of_and_eq_zero (by decide) level

@[simp] theorem set_zero (s : Status) : s.set 0 = s := by simp [set]

theorem set_comm (s : Status) (a b : UInt32) : (s.set a).set b = (s.set b).set a := by
  simp only [set, UInt32.or_assoc, UInt32.or_comm a b]

theorem set_failedChild_of_has (h : s.has failedChild = true) : s.set failedChild = s := by
  have hbit : s.word.toBitVec.getLsbD 6 = true := by
    by_contra hno
    have hand : s.word.toBitVec &&& BitVec.twoPow 32 6 = 0 := by
      rw [BitVec.and_twoPow, if_neg hno]
      rfl
    exact of_decide_eq_true h (UInt32.toBitVec_inj.1 hand)
  have hor : s.word ||| failedChild = s.word := by
    rw [← UInt32.toBitVec_inj]
    change s.word.toBitVec ||| BitVec.twoPow 32 6 = s.word.toBitVec
    ext i hi
    rw [BitVec.getElem_or, BitVec.getElem_twoPow]
    by_cases h6 : 6 = i
    · subst h6
      simpa using hbit
    · simp [Ne.symm h6]
  rw [set, hor]

end Status

/-- The node with bits set in its status. -/
def Node.flag (flags : UInt32) (n : Node) : Node := { n with status := n.status.set flags }

@[simp] theorem Node.prev_flag (flags : UInt32) (n : Node) : (n.flag flags).prev = n.prev := rfl

@[simp] theorem Node.flag_zero (n : Node) : n.flag 0 = n := by
  rw [Node.flag, Status.set_zero]

theorem Node.flag_comm (a b : UInt32) (n : Node) : (n.flag a).flag b = (n.flag b).flag a := by
  simp only [Node.flag, Status.set_comm n.status a b]

namespace BlockIndex

variable {ix ix' : BlockIndex} {id i k p m : Nat} {n q : Node} {f : Node → Node}

/-! ## Descendants -/

/-- The node at the first place descends from the other, and is another node. -/
def Descends (ix : BlockIndex) (i id : Nat) : Prop := ∃ a ∈ (ix.ancestors i).tail, a.id = id

instance (ix : BlockIndex) (i id : Nat) : Decidable (ix.Descends i id) :=
  inferInstanceAs (Decidable (∃ a ∈ (ix.ancestors i).tail, a.id = id))

theorem WellFormed.descends_iff (wf : ix.WellFormed) (hn : ix.get? i = some n) :
    ix.Descends i id ↔ ∃ p, n.prev = some p ∧ (p = id ∨ ix.Descends p id) := by
  rw [Descends, wf.ancestors_eq_cons hn, List.tail_cons]
  cases hprev : n.prev with
  | none => simp
  | some p =>
    obtain ⟨-, q, hq, -⟩ := (wf.placed i n hn).child p hprev
    simp only [pathFrom_some, Descends, wf.ancestors_eq_cons hq, List.mem_cons, List.tail_cons,
      exists_eq_or_imp, (wf.placed p q hq).id_eq, Option.some.injEq, exists_eq_left']

theorem WellFormed.lt_of_descends (wf : ix.WellFormed) (h : ix.Descends i id) : id < i := by
  induction i using Nat.strongRecOn with
  | _ i ih =>
    cases hn : ix.get? i with
    | none =>
      obtain ⟨a, ha, -⟩ := h
      rw [ancestors_of_get?_eq_none hn] at ha
      cases ha
    | some n =>
      obtain ⟨p, hp, hcases⟩ := (wf.descends_iff hn).1 h
      have hlt := ((wf.placed i n hn).child p hp).1
      rcases hcases with rfl | hdesc
      · exact hlt
      · exact Nat.lt_trans (ih p hlt hdesc) hlt

theorem SameTree.descends_iff (h : SameTree ix ix') (i id : Nat) :
    ix'.Descends i id ↔ ix.Descends i id := by
  have hids : (ix'.ancestors i).tail.map Node.id = (ix.ancestors i).tail.map Node.id := by
    have hentries := congrArg (List.map Node.Entry.id) (h.map_entry_recent (i + 1) (some i))
    rw [List.map_map, List.map_map] at hentries
    rw [List.map_tail, List.map_tail]
    exact congrArg List.tail hentries
  have hmem : ∀ ix : BlockIndex, ix.Descends i id ↔ id ∈ (ix.ancestors i).tail.map Node.id :=
    fun ix => List.mem_map.symm
  rw [hmem, hmem, hids]

theorem WellFormed.descends_of_extends (wf : ix.WellFormed) (wf' : ix'.WellFormed)
    (hext : Extends ix ix') (hn : ix.get? i = some n) (id : Nat) :
    ix'.Descends i id ↔ ix.Descends i id := by
  unfold Descends
  rw [wf.ancestors_of_extends wf' hext hn]

/-! ## Closed indexes -/

/-- Each node whose parent has failed is marked for it. -/
def FailureClosed (ix : BlockIndex) : Prop :=
  ∀ i n p q, ix.get? i = some n → n.prev = some p → ix.get? p = some q →
    q.status.isFailed = true → n.status.has Status.failedChild = true

/-- A node that is added behind a parent that has not failed need not be marked. -/
theorem FailureClosed.push (h : ix.FailureClosed) (wf : ix.WellFormed) {prev : Option Nat}
    (hparent : ∀ p q, prev = some p → ix.get? p = some q → q.status.isFailed = false)
    (hprev : ∀ p, prev = some p → p < ix.size) : (ix.push n prev).1.FailureClosed := by
  intro i x p q hx hp hq hfailed
  have hold : ∀ {p}, p < ix.size → (ix.push n prev).1.get? p = some q → ix.get? p = some q := by
    intro p hlt hq
    rcases get?_push_cases hq with ⟨rfl, -⟩ | hq
    · exact absurd hlt (Nat.lt_irrefl _)
    · exact hq
  rcases get?_push_cases hx with ⟨rfl, rfl⟩ | hx
  · rw [Node.prev_linked] at hp
    rw [hparent p q hp (hold (hprev p hp) hq)] at hfailed
    cases hfailed
  · have hlt : p < i := ((wf.placed i x hx).child p hp).1
    exact h i x p q hx hp (hold (Nat.lt_trans hlt (lt_size_of_get? hx)) hq) hfailed

/-- A change of one node that keeps its parent and the flags of failure. -/
theorem FailureClosed.modify (h : ix.FailureClosed) (id : Nat)
    (hf : ∀ n, (f n).prev = n.prev ∧ (f n).status.failure = n.status.failure) :
    (ix.modify id f).FailureClosed := by
  have hback : ∀ {i x}, (ix.modify id f).get? i = some x → ∃ n, ix.get? i = some n ∧
      x.prev = n.prev ∧ x.status.failure = n.status.failure := by
    intro i x hx
    rw [get?_modify] at hx
    split_ifs at hx
    · obtain ⟨n, hn, rfl⟩ := Option.map_eq_some_iff.1 hx
      exact ⟨n, hn, hf n⟩
    · exact ⟨x, hx, rfl, rfl⟩
  intro i x p y hx hp hy hyfailed
  obtain ⟨n, hn, hnprev, hnfailure⟩ := hback hx
  obtain ⟨q, hq, -, hqfailure⟩ := hback hy
  have hqfailed : q.status.isFailed = true := by
    rw [Status.isFailed_eq, ← hqfailure]
    exact hyfailed
  have hmark := h i n p q hn (hnprev ▸ hp) hq hqfailed
  rwa [Status.has_failedChild_eq, hnfailure, ← Status.has_failedChild_eq]

/-! ## The pass over the places behind a node -/

/-- The flag that a failure of the node at `id` sets at a place. -/
def failureFlag (ix : BlockIndex) (id i : Nat) : UInt32 :=
  if i = id then Status.failedValid else if ix.Descends i id then Status.failedChild else 0

theorem failureFlag_of_descends (wf : ix.WellFormed) (h : ix.Descends i id) :
    ix.failureFlag id i = Status.failedChild := by
  rw [failureFlag, if_neg (Nat.ne_of_gt (wf.lt_of_descends h)), if_pos h]

theorem failureFlag_of_not (hi : i ≠ id) (h : ¬ ix.Descends i id) : ix.failureFlag id i = 0 := by
  rw [failureFlag, if_neg hi, if_neg h]

theorem isFailed_flag_iff :
    (n.flag (ix.failureFlag id i)).status.isFailed = true ↔
      n.status.isFailed = true ∨ i = id ∨ ix.Descends i id := by
  change (n.status.set (ix.failureFlag id i)).has Status.failedMask = true ↔
    n.status.has Status.failedMask = true ∨ _
  rw [Status.has_set, Bool.or_eq_true, failureFlag]
  refine or_congr_right ?_
  split_ifs with hi hdesc
  · exact iff_of_true (by decide) (Or.inl hi)
  · exact iff_of_true (by decide) (Or.inr hdesc)
  · exact iff_of_false (by decide) (not_or.2 ⟨hi, hdesc⟩)

theorem get?_spreadFailure (ix : BlockIndex) (k i : Nat) :
    (ix.spreadFailure k).get? i =
      if k = i ∧ ix.parentFailed k then (ix.get? i).map (Node.flag Status.failedChild)
      else ix.get? i := by
  rw [spreadFailure]
  by_cases hfailed : ix.parentFailed k
  · simp only [hfailed, and_true, if_true]
    exact get?_modify ix k _ i
  · rw [if_neg hfailed, if_neg fun h => hfailed h.2]

/-- At the place where the pass has arrived, the parent has got its flag, so that the node gets the
one that the failure asks for. -/
theorem flag_of_parentFailed (wf : ix.WellFormed) (hclosed : ix.FailureClosed) (hid : id < k)
    (hn : ix.get? k = some n) (hk : ix'.get? k = some n)
    (hbefore : ∀ p q, p < k → ix.get? p = some q →
      ix'.get? p = some (q.flag (ix.failureFlag id p))) :
    (if ix'.parentFailed k then n.flag Status.failedChild else n) =
      n.flag (ix.failureFlag id k) := by
  have hne : k ≠ id := Nat.ne_of_gt hid
  have hparent : ix'.parentFailed k = (n.prev.bind ix'.get?).any fun p => p.status.isFailed := by
    rw [parentFailed, hk, Option.bind_some]
  rw [hparent]
  cases hprev : n.prev with
  | none =>
    have hno : ¬ ix.Descends k id := by simp [wf.descends_iff hn, hprev]
    simp [failureFlag_of_not hne hno]
  | some p =>
    obtain ⟨hlt, q, hq, -⟩ := (wf.placed k n hn).child p hprev
    have hdesc : ix.Descends k id ↔ p = id ∨ ix.Descends p id := by
      simp [wf.descends_iff hn, hprev]
    simp only [Option.bind_some, hbefore p q hlt hq, Option.any_some, isFailed_flag_iff, ← hdesc]
    by_cases h : ix.Descends k id
    · simp only [h, or_true, if_true, failureFlag_of_descends wf h]
    · -- A parent that had failed before is why the node carries the mark.
      rw [failureFlag_of_not hne h, Node.flag_zero]
      split_ifs with hfailed
      · have hmark := hclosed k n p q hn hprev hq (hfailed.resolve_right h)
        rw [Node.flag, Status.set_failedChild_of_has hmark]
      · rfl

/-- After `m` places of the pass, all nodes before the next place have their flags. -/
theorem WellFormed.get?_spread (wf : ix.WellFormed) (hclosed : ix.FailureClosed) (id m : Nat)
    (hm : id + 1 + m ≤ ix.size) (i : Nat) :
    ((List.range' (id + 1) m).foldl spreadFailure (ix.setStatus id Status.failedValid)).get? i =
      if i < id + 1 + m then (ix.get? i).map (Node.flag (ix.failureFlag id i)) else ix.get? i := by
  induction m generalizing i with
  | zero =>
    rw [List.range'_zero, List.foldl_nil, setStatus, get?_modify]
    by_cases hi : id = i
    · subst hi
      simp only [failureFlag, Nat.add_zero, Nat.lt_succ_self, if_true]
      rfl
    · rw [if_neg hi]
      split_ifs with hlt
      · have hno : ¬ ix.Descends i id := fun h => by
          have := wf.lt_of_descends h
          omega
        rw [failureFlag_of_not (Ne.symm hi) hno]
        cases ix.get? i <;> simp
      · rfl
  | succ m ih =>
    have ih' := ih (by omega)
    rw [List.range'_concat, List.foldl_append, Nat.one_mul, List.foldl_cons, List.foldl_nil,
      get?_spreadFailure, ih']
    generalize (List.range' (id + 1) m).foldl spreadFailure
      (ix.setStatus id Status.failedValid) = marked at ih' ⊢
    by_cases hi : id + 1 + m = i
    · subst hi
      have hsize : id + 1 + m < ix.size := by omega
      obtain ⟨n, hn⟩ := get?_of_lt_size hsize
      have hk : marked.get? (id + 1 + m) = some n := by
        rw [ih', if_neg (Nat.lt_irrefl _), hn]
      have hlt : id < id + 1 + m := by omega
      have hflag := flag_of_parentFailed wf hclosed hlt hn hk fun p q hp hq => by
        rw [ih', if_pos hp, hq, Option.map_some]
      rw [if_neg (Nat.lt_irrefl _), if_pos (by omega : id + 1 + m < id + 1 + (m + 1)), hn,
        Option.map_some, Option.map_some, ← hflag]
      simp only [true_and]
      split_ifs <;> rfl
    · rw [if_neg fun h => hi h.1]
      split_ifs with h h' h' <;> first | rfl | omega

theorem ext_get? (hrule : ix.rule = ix'.rule) (hget : ∀ i, ix.get? i = ix'.get? i) : ix = ix' := by
  cases ix
  cases ix'
  congr
  exact Array.ext_getElem? hget

theorem rule_markFailed (ix : BlockIndex) (id : Nat) : (ix.markFailed id).rule = ix.rule := by
  have hspread : ∀ (ix : BlockIndex) k, (ix.spreadFailure k).rule = ix.rule := by
    intro ix k
    unfold spreadFailure
    split_ifs <;> rfl
  have hfold : ∀ (places : List Nat) (ix : BlockIndex),
      (places.foldl spreadFailure ix).rule = ix.rule := by
    intro places
    induction places with
    | nil => exact fun _ => rfl
    | cons k places ih => exact fun ix => (ih _).trans (hspread ix k)
  exact hfold _ _

/-- A failure sets one flag at its node, and another at each descendant, and changes nothing
else. -/
theorem WellFormed.get?_markFailed (wf : ix.WellFormed) (hclosed : ix.FailureClosed) (id i : Nat) :
    (ix.markFailed id).get? i = (ix.get? i).map (Node.flag (ix.failureFlag id i)) := by
  rw [markFailed]
  rcases Nat.lt_or_ge id ix.size with hid | hid
  · rw [wf.get?_spread hclosed id _ (by omega)]
    split_ifs with hi
    · rfl
    · have hnone : ix.get? i = none := Array.getElem?_eq_none (by rw [← size]; omega)
      rw [hnone, Option.map_none]
  · have hzero : ix.size - (id + 1) = 0 := by omega
    rw [hzero, List.range'_zero, List.foldl_nil, setStatus, get?_modify]
    cases hn : ix.get? i with
    | none => simp
    | some n =>
      have hlt := lt_size_of_get? hn
      have hno : ¬ ix.Descends i id := fun h => by
        have := wf.lt_of_descends h
        omega
      rw [if_neg (by omega), Option.map_some, failureFlag_of_not (by omega) hno, Node.flag_zero]

theorem FailureClosed.markFailed (h : ix.FailureClosed) (wf : ix.WellFormed) (id : Nat) :
    (ix.markFailed id).FailureClosed := by
  intro i x p y hx hp hy hfailed
  rw [wf.get?_markFailed h] at hx hy
  obtain ⟨n, hn, rfl⟩ := Option.map_eq_some_iff.1 hx
  obtain ⟨q, hq, rfl⟩ := Option.map_eq_some_iff.1 hy
  rw [Node.prev_flag] at hp
  change (n.status.set (ix.failureFlag id i)).has Status.failedChild = true
  rw [Status.has_set, Bool.or_eq_true]
  rcases isFailed_flag_iff.1 hfailed with hold | hnew
  · exact Or.inl (h i n p q hn hp hq hold)
  · have hdesc : ix.Descends i id := (wf.descends_iff hn).2 ⟨p, hp, hnew⟩
    rw [failureFlag_of_descends wf hdesc]
    exact Or.inr (by decide)

theorem WellFormed.markFailed_comm (wf : ix.WellFormed) (h : ix.FailureClosed) (a b : Nat) :
    (ix.markFailed a).markFailed b = (ix.markFailed b).markFailed a := by
  refine ext_get? ((rule_markFailed _ _).trans ?_) fun i => ?_
  · rw [rule_markFailed, rule_markFailed, rule_markFailed]
  · have hflag : ∀ c d, (ix.markFailed c).failureFlag d i = ix.failureFlag d i := fun c d => by
      simp only [failureFlag, (sameTree_markFailed ix c).descends_iff]
    have hstep : ∀ c d, ((ix.markFailed c).markFailed d).get? i =
        (ix.get? i).map fun n => (n.flag (ix.failureFlag c i)).flag (ix.failureFlag d i) := by
      intro c d
      rw [(wf.of_sameTree (sameTree_markFailed ix c)).get?_markFailed (h.markFailed wf c),
        wf.get?_markFailed h, Option.map_map, hflag]
      rfl
    rw [hstep, hstep]
    simp only [Node.flag_comm]

end BlockIndex

end MergedWork
