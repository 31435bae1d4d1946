import MergedWork.Proofs.ActiveChain.Locator

/-!
# How far a search overshoots

A locator that starts at any node finds a block of the active chain, if both have the same root. It
may lie below the last block that they share, where the entries of the locator have gaps. The gaps
grow with the distance from the start, and no faster: a gap is at most two blocks larger than the
distance before it (`exists_mem_descent`). So the way back to the block that is found is at most
twice as long as the way back to the last shared one, and as long as that is no longer than eleven
blocks, both are the same (`findFork_near`).
-/

namespace MergedWork.ActiveChain

open BlockIndex

variable {rule : ForkRule} {c : ActiveChain} {ix : BlockIndex} {start : Option Nat} {id tip : Nat}
  {n m e : Node} {limit count step height top x : Nat}

/-! ## Gaps -/

theorem head_mem_descent (hlimit : 0 < limit) : height ∈ descent limit count step height := by
  obtain ⟨limit, rfl⟩ := Nat.exists_eq_succ_of_ne_zero (Nat.ne_of_gt hlimit)
  rw [descent]
  split_ifs with hzero
  · simp [hzero]
  · exact List.mem_cons_self

/-- The first twelve entries stand one below the other. -/
theorem mem_descent_of_near (hcount : count ≤ 10) (hle : x ≤ height)
    (hnear : height - x + count ≤ 11) (hlimit : height < limit) :
    x ∈ descent limit count 1 height := by
  induction limit generalizing count height with
  | zero => exact absurd hlimit (Nat.not_lt_zero height)
  | succ limit ih =>
    rcases Nat.eq_or_lt_of_le hle with rfl | hlt
    · exact head_mem_descent (Nat.succ_pos limit)
    · rw [descent, if_neg (by omega)]
      refine List.mem_cons_of_mem height ?_
      by_cases hlast : count = 10
      · -- Behind the eleventh entry there is one more before the step has grown.
        obtain rfl : x = height - 1 := by omega
        exact head_mem_descent (by omega)
      · have hstep : nextStep count 1 = 1 := if_neg (by omega)
        rw [hstep]
        exact ih (by omega) (by omega) (by omega) (by omega)

/-- The step is at most two larger than the way that is left behind, and stays so as it doubles. So
the first entry from any height on is at most twice as far from the top. -/
theorem exists_mem_descent (hpos : 0 < step) (hstep : step ≤ top - height + 2) (htop : height ≤ top)
    (hle : x ≤ height) (hlimit : height < limit) :
    ∃ y ∈ descent limit count step height, y ≤ x ∧ top - y ≤ 2 * (top - x) := by
  induction limit generalizing count step height with
  | zero => exact absurd hlimit (Nat.not_lt_zero height)
  | succ limit ih =>
    rcases Nat.eq_or_lt_of_le hle with rfl | hlt
    · exact ⟨x, head_mem_descent (Nat.succ_pos limit), Nat.le_refl x, by omega⟩
    · rw [descent, if_neg (by omega)]
      by_cases hbelow : height - step ≤ x
      · exact ⟨height - step, List.mem_cons_of_mem height (head_mem_descent (by omega)), hbelow,
          by omega⟩
      · have hnext : nextStep count step ≤ 2 * step := by
          rw [nextStep]
          split_ifs <;> omega
        obtain ⟨y, hy, hyx, hnear⟩ : ∃ y ∈ descent limit (count + 1) (nextStep count step)
            (height - step), y ≤ x ∧ top - y ≤ 2 * (top - x) :=
          ih (nextStep_pos hpos) (by omega) (by omega) (by omega) (by omega)
        exact ⟨y, List.mem_cons_of_mem height hy, hyx, hnear⟩

/-! ## Entries on the path -/

/-- The entries are the hashes of nodes of the path, at the heights of the descent. -/
theorem Follows.hash_mem_locator_iff (h : c.Follows ix start) (wf : ix.WellFormed)
    (hn : ix.get? id = some n) (he : e ∈ ix.ancestors id) :
    e.hash ∈ c.locator ix (some id) ↔ e.height ∈ descent (id + 1) 0 1 n.height := by
  rw [h.locator_eq wf hn (by rw [Option.some_or]), List.mem_filterMap]
  constructor
  · rintro ⟨x, hx, hat⟩
    obtain ⟨k, hk, rfl, hhash⟩ := (pathHash?_eq_some_iff wf).1 hat
    have heq : k = e :=
      wf.eq_of_hash_eq (wf.split_ancestors hk).1 (wf.split_ancestors he).1 hhash
    rwa [heq] at hx
  · intro hx
    exact ⟨e.height, hx, (pathHash?_eq_some_iff wf).2 ⟨e, he, rfl, rfl⟩⟩

/-! ## The block that is found -/

/-- Entries of the path are in the chain up to the last common ancestor, and the search finds the
highest of these. -/
theorem Follows.exists_highest (h : c.Follows ix (some tip)) (wf : ix.WellFormed)
    (hn : ix.get? id = some n) (hm : ix.lastCommon? id tip = some m) :
    ∃ r ∈ ix.ancestors id, r ∈ ix.ancestors tip ∧
      c.findFork ix (c.locator ix (some id)) = some r.id ∧
      r.height ∈ descent (id + 1) 0 1 n.height ∧
      ∀ x ∈ descent (id + 1) 0 1 n.height, x ≤ m.height → x ≤ r.height := by
  have hentry : ∀ e ∈ ix.ancestors id, pathHash? ix id e.height = some e.hash :=
    fun e he => (pathHash?_eq_some_iff wf).2 ⟨e, he, rfl, rfl⟩
  have hchain : ∀ e ∈ ix.ancestors id, e ∈ ix.ancestors tip ↔ e.height ≤ m.height :=
    fun e he => wf.mem_ancestors_iff_of_lastCommon? hm he
  -- The last entry is the root, so that some entry is in the chain.
  obtain ⟨g, hg, hzero⟩ := wf.exists_height_eq hn (Nat.zero_le n.height)
  have hlast : g.height ∈ descent (id + 1) 0 1 n.height := by
    rw [hzero]
    exact zero_mem_descent Nat.one_pos (Nat.lt_succ_of_le (wf.height_le hn))
  obtain ⟨x, hx, r, hr, hat, hfind, habove⟩ := h.findFork_of_falling wf
    (pairwise_descent Nat.one_pos) hlast (hentry g hg) ((hchain g hg).2 (by omega)) rfl
  obtain ⟨r', hr', rfl, hhash⟩ := (pathHash?_eq_some_iff wf).1 hat
  obtain rfl : r' = r :=
    wf.eq_of_hash_eq (wf.split_ancestors hr').1 (wf.split_ancestors hr).1 hhash
  rw [← h.locator_eq wf hn Option.some_or] at hfind
  refine ⟨r', hr', hr, hfind, hx, fun y hy hle => Nat.le_of_not_lt fun hlt => ?_⟩
  have hyn : y ≤ n.height := le_of_mem_descent hy
  obtain ⟨e, he, rfl⟩ := wf.exists_height_eq hn hyn
  exact habove e.height hy hlt e.hash (hentry e he) e ((hchain e he).2 hle) rfl

/-- From any node with the root of the tip, the search with its locator finds a block of the chain
that is the last common ancestor `m` of the node and the tip, or an ancestor of it. It is the highest
entry up to there. It is `m` itself if that is at most eleven blocks back, and never more than twice
as far back. -/
theorem findFork_near (h : Reached rule ix c (some tip)) (hn : ix.get? id = some n)
    (hroot : ix.root? id = ix.root? tip) :
    ∃ m r, ix.lastCommon? id tip = some m ∧ m.height ≤ n.height ∧
      c.findFork ix (c.locator ix (some id)) = some r.id ∧ c.contains ix r.id = true ∧
      r ∈ ix.ancestors m.id ∧
      (r.hash ∈ c.locator ix (some id) ∧ ∀ e ∈ ix.ancestors id,
        e.hash ∈ c.locator ix (some id) → e.height ≤ m.height → e.height ≤ r.height) ∧
      (n.height - m.height ≤ 11 → r = m) ∧
      n.height - r.height ≤ 2 * (n.height - m.height) := by
  obtain ⟨wf, -, hfollows⟩ := h.sound
  obtain ⟨m, hm⟩ : ∃ m, ix.lastCommon? id tip = some m := by
    rw [← Option.ne_none_iff_exists', ne_eq, wf.lastCommon?_eq_none_iff hn, not_not]
    exact hroot
  obtain ⟨hmid, -, hcommon⟩ := wf.mem_of_lastCommon? hm
  have hmn : m.height ≤ n.height := wf.height_le_of_mem hn hmid
  have hlimit : n.height < id + 1 := Nat.lt_succ_of_le (wf.height_le hn)
  obtain ⟨r, hr, hrtip, hfind, hentry, hhighest⟩ := hfollows.exists_highest wf hn hm
  have hrm : r ∈ ix.ancestors m.id := hcommon r hr hrtip
  refine ⟨m, r, hm, hmn, hfind, (hfollows.contains_iff wf r.id).2 ⟨r, hrtip, rfl⟩, hrm,
    ⟨(hfollows.hash_mem_locator_iff wf hn hr).2 hentry, fun e he hmem hle => ?_⟩,
    fun hshort => ?_, ?_⟩
  · exact hhighest e.height ((hfollows.hash_mem_locator_iff wf hn he).1 hmem) hle
  · have hmentry : m.height ∈ descent (id + 1) 0 1 n.height :=
      mem_descent_of_near (by omega) hmn hshort hlimit
    have hle := wf.height_le_of_mem (wf.split_ancestors hmid).1 hrm
    exact wf.eq_of_height_eq hr hmid
      (Nat.le_antisymm hle (hhighest m.height hmentry (Nat.le_refl _)))
  · obtain ⟨y, hy, hym, hnear⟩ : ∃ y ∈ descent (id + 1) 0 1 n.height,
        y ≤ m.height ∧ n.height - y ≤ 2 * (n.height - m.height) :=
      exists_mem_descent Nat.one_pos (by omega) (Nat.le_refl _) hmn hlimit
    have hle := hhighest y hy hym
    omega

/-- A path of nine blocks, and another twelve that leave it below the last. -/
def branched : BlockIndex :=
  (BlockIndex.empty .standard).run
    (((List.range 9).map fun k =>
        .insertLoaded (stored (k + 1)) (if k = 0 then none else some (.ofNat k))) ++
      (List.range 12).map fun k =>
        .insertLoaded (stored (k + 10)) (some (.ofNat (if k = 0 then 8 else k + 9))))

/-- The last common ancestor is twelve blocks back, where the locator has its first gap. What is
found is one block further back. -/
theorem findFork_near_gap :
    Reached .standard branched (empty.setTip branched (some 8)).1 (some 8) ∧
      branched.root? 20 = branched.root? 8 ∧
      ∃ n m r, branched.get? 20 = some n ∧ branched.lastCommon? 20 8 = some m ∧
        (empty.setTip branched (some 8)).1.findFork branched
          ((empty.setTip branched (some 8)).1.locator branched (some 20)) = some r.id ∧
        m.id = 7 ∧ r.id = 6 ∧ r ∈ branched.ancestors m.id ∧
        n.height - r.height ≤ 2 * (n.height - m.height) := by
  have hsize : branched.size = 21 := by decide +kernel
  have hroot : branched.root? 20 = branched.root? 8 := by decide +kernel
  have hcommon : (branched.lastCommon? 20 8).map Node.id = some 7 := by decide +kernel
  have hfound : (empty.setTip branched (some 8)).1.findFork branched
      ((empty.setTip branched (some 8)).1.locator branched (some 20)) = some 6 := by decide +kernel
  have hreached : Reached .standard branched (empty.setTip branched (some 8)).1 (some 8) :=
    reached_setTip .standard _ (show 8 < branched.size by omega)
  obtain ⟨n, hn⟩ := get?_of_lt_size (show 20 < branched.size by omega)
  obtain ⟨m, r, hm, -, hfind, -, hrm, -, -, hnear⟩ := findFork_near hreached hn hroot
  rw [hm, Option.map_some, Option.some.injEq] at hcommon
  have hr : r.id = 6 := Option.some.inj (hfind.symm.trans hfound)
  exact ⟨hreached, hroot, n, m, r, hn, hm, hfind, hcommon, hr, hrm, hnear⟩

end MergedWork.ActiveChain
