import MergedWork.Proofs.BlockIndex.Lasting
import MergedWork.Proofs.Sorting

/-!
# The median time

The median time of a block is taken over the last blocks up to it. There are at most eleven of them,
and they end early where the walk back leaves the time past the fork: with the first block before the
fork that has a block past it in front (`IsWindow`). The walk knows where it is by one flag, which
says whether a block past the fork has been seen (`WellFormed.regime_ends`). There is always a block
to look at, so that the middle of the sorted times exists (`median_of_run`).
-/

namespace MergedWork.BlockIndex

variable {rule : ForkRule} {ix : BlockIndex} {k limit : Nat} {n m : Node}
  {rest path window window' : List Node} {seen : Bool}

/-! ## Blocks past the fork -/

/-- A block past the fork is high enough, and enough of the last blocks before it have the base
version that the fork asks for. -/
def PastFork (rule : ForkRule) (ix : BlockIndex) (n : Node) : Prop :=
  rule.height ≤ n.height ∧ rule.required ≤ ((ix.pathFrom n.prev).take rule.window).countP
    fun m => rule.minVersion ≤ m.version.base.toNat

theorem WellFormed.onFork_iff (wf : ix.WellFormed) (n : Node) :
    ix.onFork n = true ↔ PastFork ix.rule ix n := by
  rw [onFork, Bool.and_eq_true, decide_eq_true_iff, wf.superMajority_iff]
  rfl

/-- A history does not change the rule. -/
theorem rule_run (rule : ForkRule) (history : List Change) :
    ((empty rule).run history).rule = rule :=
  (retains_run (empty rule) history).rule_eq

/-! ## Windows -/

/-- At a place of the path stands a block before the fork, with one past it in front. -/
def Crosses (rule : ForkRule) (ix : BlockIndex) (path : List Node) (k : Nat) : Prop :=
  ∃ n, path[k]? = some n ∧ ¬ PastFork rule ix n ∧ ∃ m ∈ path.take k, PastFork rule ix m

theorem Crosses.pos (h : Crosses rule ix path k) : 0 < k := by
  obtain ⟨n, -, -, m, hm, -⟩ := h
  rcases Nat.eq_zero_or_pos k with rfl | hpos
  · cases hm
  · exact hpos

theorem crosses_append_cons_iff {front : List Node} :
    Crosses rule ix (front ++ n :: rest) front.length ↔
      (∃ m ∈ front, PastFork rule ix m) ∧ ¬ PastFork rule ix n := by
  rw [Crosses, List.take_left, List.getElem?_append_right (Nat.le_refl _), Nat.sub_self,
    List.getElem?_cons_zero]
  constructor
  · rintro ⟨m, hm, hbefore, hpast⟩
    cases hm
    exact ⟨hpast, hbefore⟩
  · rintro ⟨hpast, hbefore⟩
    exact ⟨n, rfl, hbefore, hpast⟩

theorem crosses_take_iff (hlt : k < limit) :
    Crosses rule ix (path.take limit) k ↔ Crosses rule ix path k := by
  rw [Crosses, Crosses, List.getElem?_take_of_lt hlt, List.take_take,
    Nat.min_eq_left (Nat.le_of_lt hlt)]

/-- The first blocks of a path: eleven, or up to the first place where the path leaves the time past
the fork, whichever is shorter. -/
structure IsWindow (rule : ForkRule) (ix : BlockIndex) (path window : List Node) : Prop where
  front : window <+: path
  length_le : window.length ≤ 11
  not_crosses : ∀ k, k + 1 < window.length → ¬ Crosses rule ix path k
  ends : window = path ∨ window.length = 11 ∨ Crosses rule ix path (window.length - 1)

theorem IsWindow.length_le_length (h : IsWindow rule ix path window)
    (h' : IsWindow rule ix path window') : window'.length ≤ window.length := by
  refine Nat.le_of_not_lt fun hlt => ?_
  rcases h.ends with heq | heleven | hcross
  · have hle := h'.front.length_le
    rw [← heq] at hle
    exact Nat.not_le_of_lt hlt hle
  · have hle := h'.length_le
    omega
  · have hpos := hcross.pos
    exact h'.not_crosses _ (by omega) hcross

theorem IsWindow.unique (h : IsWindow rule ix path window) (h' : IsWindow rule ix path window') :
    window' = window := by
  have hlength := Nat.le_antisymm (h.length_le_length h') (h'.length_le_length h)
  rw [List.prefix_iff_eq_take.1 h.front, List.prefix_iff_eq_take.1 h'.front, hlength]

theorem IsWindow.length_pos (h : IsWindow rule ix (n :: rest) window) : 0 < window.length := by
  rcases h.ends with heq | heleven | hcross
  · rw [heq]
    exact Nat.succ_pos rest.length
  · omega
  · have hpos := hcross.pos
    omega

theorem IsWindow.getElem?_eq (h : IsWindow rule ix path window) (hlt : k < window.length) :
    window[k]? = path[k]? := by
  rw [List.prefix_iff_eq_take.1 h.front, List.getElem?_take_of_lt hlt]

/-- If the first block is past the fork, all but the last are. -/
theorem IsWindow.pastFork_of_mem (h : IsWindow rule ix (n :: rest) window)
    (hn : PastFork rule ix n) (hm : m ∈ window.dropLast) : PastFork rule ix m := by
  obtain ⟨k, hk⟩ := List.mem_iff_getElem?.1 hm
  rw [List.getElem?_dropLast] at hk
  split_ifs at hk with hlt
  rw [h.getElem?_eq (by omega)] at hk
  by_contra hbefore
  cases k with
  | zero =>
    cases hk
    exact hbefore hn
  | succ k =>
    refine h.not_crosses (k + 1) (by omega) ⟨m, hk, hbefore, n, ?_, hn⟩
    rw [List.take_succ_cons]
    exact List.mem_cons_self

/-! ## The walk -/

/-- Behind the nodes of `front`, the walk goes on up to the first place where the path leaves the
time past the fork. Its flag says whether it has seen a block past the fork. -/
theorem WellFormed.regime_ends (wf : ix.WellFormed) (front rest : List Node)
    (hseen : seen = true ↔ ∃ m ∈ front, PastFork ix.rule ix m) :
    ix.regime seen rest <+: rest ∧
      (∀ k, front.length ≤ k → k + 1 < front.length + (ix.regime seen rest).length →
        ¬ Crosses ix.rule ix (front ++ rest) k) ∧
      (ix.regime seen rest = rest ∨
        Crosses ix.rule ix (front ++ rest) (front.length + (ix.regime seen rest).length - 1)) := by
  induction rest generalizing front seen with
  | nil =>
    refine ⟨List.prefix_rfl, fun k hle hlt => ?_, Or.inl rfl⟩
    rw [regime, List.length_nil] at hlt
    omega
  | cons n rest ih =>
    have hhere : Crosses ix.rule ix (front ++ n :: rest) front.length ↔
        seen = true ∧ ¬ ix.onFork n = true := by
      rw [crosses_append_cons_iff, hseen, wf.onFork_iff]
    rw [regime]
    by_cases hcut : seen = true ∧ ¬ ix.onFork n = true
    · -- The path leaves the time past the fork with `n`, which is the last block of the walk.
      rw [if_pos (by simpa using hcut)]
      refine ⟨⟨rest, rfl⟩, fun k hle hlt => ?_, Or.inr ?_⟩
      · rw [List.length_singleton] at hlt
        omega
      · rw [List.length_singleton, Nat.add_sub_cancel]
        exact hhere.2 hcut
    · -- The walk goes on, with `n` among the blocks in front.
      have hseen' : (seen || ix.onFork n) = true ↔ ∃ m ∈ front ++ [n], PastFork ix.rule ix m := by
        rw [Bool.or_eq_true, hseen, wf.onFork_iff]
        simp [or_and_right, exists_or]
      obtain ⟨hfront, hwhole, hends⟩ := ih (front ++ [n]) hseen'
      rw [if_neg (by simpa using hcut), List.length_cons]
      rw [List.append_assoc, List.singleton_append, List.length_append, List.length_singleton]
        at hwhole hends
      refine ⟨(List.prefix_cons_inj n).2 hfront, fun k hle hlt => ?_, ?_⟩
      · rcases Nat.eq_or_lt_of_le hle with rfl | hbehind
        · exact fun hcross => hcut (hhere.1 hcross)
        · exact hwhole k hbehind (by omega)
      · rcases hends with heq | hcross
        · exact Or.inl (by rw [heq])
        · refine Or.inr ?_
          rwa [show front.length + ((ix.regime (seen || ix.onFork n) rest).length + 1) - 1 =
            front.length + 1 + (ix.regime (seen || ix.onFork n) rest).length - 1 by omega]

theorem WellFormed.isWindow_regime (wf : ix.WellFormed) (path : List Node) :
    IsWindow ix.rule ix path (ix.regime false (path.take 11)) := by
  have hstart : false = true ↔ ∃ m ∈ [], PastFork ix.rule ix m := by simp
  obtain ⟨hfront, hwhole, hends⟩ := wf.regime_ends [] (path.take 11) hstart
  rw [List.nil_append, List.length_nil, Nat.zero_add] at hwhole hends
  have hle : (ix.regime false (path.take 11)).length ≤ 11 :=
    Nat.le_trans hfront.length_le (List.length_take_le 11 path)
  refine ⟨hfront.trans (List.take_prefix 11 path), hle, fun k hk hcross => ?_, ?_⟩
  · exact hwhole k (Nat.zero_le k) hk ((crosses_take_iff (by omega)).2 hcross)
  · rcases hends with heq | hcross
    · rw [heq, List.length_take]
      rcases Nat.le_total path.length 11 with hshort | hlong
      · exact Or.inl (List.take_of_length_le hshort)
      · exact Or.inr (Or.inl (Nat.min_eq_left hlong))
    · exact Or.inr (Or.inr ((crosses_take_iff (by have := hcross.pos; omega)).1 hcross))

/-! ## The median -/

theorem upperMedian_eq (times : List Nat) (hpos : 0 < times.length) :
    ∃ sorted : List Nat, sorted.Perm times ∧ sorted.Pairwise (· ≤ ·) ∧
      sorted[times.length / 2]? = some (upperMedian times) := by
  have hperm := List.mergeSort_perm times fun a b => a ≤ b
  have hlt : times.length / 2 < (times.mergeSort fun a b => a ≤ b).length := by
    rw [hperm.length_eq]
    exact Nat.div_lt_self hpos (by decide)
  refine ⟨times.mergeSort fun a b => a ≤ b, hperm, pairwise_mergeSort_key id times, ?_⟩
  rw [upperMedian, List.getD_eq_getElem?_getD, List.getElem?_eq_getElem hlt, Option.getD_some]

/-- After every history, the median time of a block is the upper median of the times in the one
window of its path, which always has a block. The window of a block past the fork has no more than
one block before the fork, and that one comes last. -/
theorem median_of_run (rule : ForkRule) (history : List Change) {id : Nat} {n : Node}
    (hn : ((empty rule).run history).get? id = some n) :
    let ix := (empty rule).run history
    ∃ window, (∀ w, IsWindow rule ix (ix.ancestors id) w ↔ w = window) ∧ 0 < window.length ∧
      (∃ sorted : List Nat, sorted.Perm (window.map fun m => m.time.toNat) ∧
        sorted.Pairwise (· ≤ ·) ∧ sorted[window.length / 2]? = some (ix.medianTimePast id)) ∧
      (PastFork rule ix n → ∀ m ∈ window.dropLast, PastFork rule ix m) := by
  intro ix
  have wf : ix.WellFormed := wellFormed_run rule history
  have hwindow := wf.isWindow_regime (ix.ancestors id)
  rw [rule_run rule history, wf.ancestors_eq_cons hn] at hwindow
  rw [wf.ancestors_eq_cons hn]
  generalize hregime : ix.regime false ((n :: ix.pathFrom n.prev).take 11) = window at hwindow
  have hmedian : ix.medianTimePast id = upperMedian (window.map fun m => m.time.toNat) := by
    rw [medianTimePast, wf.recent_eq_take, pathFrom_some, wf.ancestors_eq_cons hn, ← hregime]
    rfl
  have hpos := hwindow.length_pos
  refine ⟨window, fun w => ⟨hwindow.unique, fun heq => heq ▸ hwindow⟩, hpos, ?_,
    fun hfork m hm => hwindow.pastFork_of_mem hfork hm⟩
  have hsorted := upperMedian_eq (window.map fun m => m.time.toNat) (by simpa using hpos)
  rwa [← hmedian, List.length_map] at hsorted

/-- A stored block with a version and a time. -/
def dated (k : Nat) (version time : UInt32) : Node :=
  { numbered k with version := ⟨version⟩, time }

/-- Five blocks, where one of the old version comes between those of the new one. -/
def relapse : List Change :=
  [.insertLoaded (dated 1 4 10) none, .insertLoaded (dated 2 1 5) (some (.ofNat 1)),
    .insertLoaded (dated 3 4 20) (some (.ofNat 2)), .insertLoaded (dated 4 4 40) (some (.ofNat 3)),
    .insertLoaded (dated 5 4 30) (some (.ofNat 4))]

/-- A block is past this fork right behind one of the new version. -/
def behindNew : ForkRule := ⟨0, 4, 1, 1⟩

/-- The third block is before the fork again, so that the window of the last block ends there. The
median of all five times would be 20. -/
theorem median_of_run_relapse :
    let ix := (empty behindNew).run relapse
    ∃ n window, ix.get? 4 = some n ∧ PastFork behindNew ix n ∧
      IsWindow behindNew ix (ix.ancestors 4) window ∧ window.map Node.id = [4, 3, 2] ∧
      (∀ m ∈ window.dropLast, PastFork behindNew ix m) ∧ ix.medianTimePast 4 = 30 := by
  intro ix
  have wf : ix.WellFormed := wellFormed_run behindNew relapse
  have hfork : (ix.get? 4).map ix.onFork = some true := by decide +kernel
  have hentries : (ix.regime false ((ix.ancestors 4).take 11)).map (fun m => (m.id, m.time.toNat)) =
      [(4, 30), (3, 40), (2, 20)] := by decide +kernel
  obtain ⟨n, hn, hpast⟩ := Option.map_eq_some_iff.1 hfork
  have hpast' := (wf.onFork_iff n).1 hpast
  have hwindow' := wf.isWindow_regime (ix.ancestors 4)
  rw [rule_run behindNew relapse] at hpast' hwindow'
  obtain ⟨window, hwindow, -, ⟨sorted, hperm, hsorted, hmiddle⟩, hlast⟩ :=
    median_of_run behindNew relapse hn
  have hregime : ix.regime false ((ix.ancestors 4).take 11) = window :=
    (hwindow _).1 hwindow'
  rw [hregime] at hentries
  have hids : window.map Node.id = [4, 3, 2] := by
    have hfirst := congrArg (List.map Prod.fst) hentries
    rwa [List.map_map] at hfirst
  have htimes : window.map (fun m => m.time.toNat) = [30, 40, 20] := by
    have hsecond := congrArg (List.map Prod.snd) hentries
    rwa [List.map_map] at hsecond
  have hlength : window.length = 3 := by rw [← List.length_map Node.id, hids]; rfl
  obtain rfl : sorted = [20, 30, 40] := by
    rw [htimes] at hperm
    exact (hperm.trans (by decide : [30, 40, 20].Perm [20, 30, 40])).eq_of_pairwise
      (fun _ _ _ _ => Nat.le_antisymm) hsorted (by decide)
  rw [hlength] at hmiddle
  exact ⟨n, window, hn, hpast', (hwindow window).2 rfl, hids, hlast hpast',
    (Option.some.inj hmiddle).symm⟩

end MergedWork.BlockIndex
