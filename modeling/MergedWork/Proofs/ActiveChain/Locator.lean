import MergedWork.Proofs.ActiveChain.Run

/-!
# Locators

The heights of the entries of a locator depend only on the height at which it starts: they fall from
there to zero (`descent`). The entries are the hashes of the path at these heights, whether they are
found in the active chain or by walks back (`Follows.locator_eq`). The search for a common block
goes by falling heights as well, so that it finds the highest entry that is in the chain
(`Follows.findFork_of_falling`).
-/

namespace MergedWork.ActiveChain

open BlockIndex

variable {c : ActiveChain} {ix : BlockIndex} {tip start : Option Nat} {id : Nat} {n m : Node}
  {limit count step height : Nat}

/-! ## Heights of entries -/

/-- The step behind an entry, of which `count` come before it. -/
def nextStep (count step : Nat) : Nat := if 10 < count + 1 then 2 * step else step

/-- The heights of the entries that `locate` lists from a node of the given height on. -/
def descent : (limit count step height : Nat) → List Nat
  | 0, _, _, _ => []
  | limit + 1, count, step, height =>
    if height = 0 then [0]
    else height :: descent limit (count + 1) (nextStep count step) (height - step)

theorem nextStep_pos (hstep : 0 < step) : 0 < nextStep count step := by
  rw [nextStep]
  split_ifs <;> omega

theorem le_of_mem_descent {h : Nat} (hmem : h ∈ descent limit count step height) : h ≤ height := by
  induction limit generalizing count step height with
  | zero => cases hmem
  | succ limit ih =>
    rw [descent] at hmem
    split_ifs at hmem with hzero
    · rw [List.mem_singleton.1 hmem]
      exact Nat.zero_le height
    · rcases List.mem_cons.1 hmem with rfl | hmem
      · exact Nat.le_refl h
      · exact Nat.le_trans (ih hmem) (Nat.sub_le height step)

/-- Heights fall from entry to entry. -/
theorem pairwise_descent (hstep : 0 < step) :
    (descent limit count step height).Pairwise (· > ·) := by
  induction limit generalizing count step height with
  | zero => exact List.Pairwise.nil
  | succ limit ih =>
    rw [descent]
    split_ifs with hzero
    · exact List.pairwise_singleton _ _
    · refine List.pairwise_cons.2 ⟨fun h hmem => ?_, ih (nextStep_pos hstep)⟩
      have hle := le_of_mem_descent hmem
      omega

/-- If there may be enough entries, the last one has height zero. -/
theorem zero_mem_descent (hstep : 0 < step) (hlimit : height < limit) :
    0 ∈ descent limit count step height := by
  induction limit generalizing count step height with
  | zero => exact absurd hlimit (Nat.not_lt_zero height)
  | succ limit ih =>
    rw [descent]
    split_ifs with hzero
    · exact List.mem_singleton_self 0
    · refine List.mem_cons_of_mem height (ih (nextStep_pos hstep) ?_)
      omega

/-! ## Entries -/

/-- In the chain and by a walk, the same node is found at a height. -/
theorem Follows.ancestorOf?_eq (h : c.Follows ix tip) (wf : ix.WellFormed)
    (hn : ix.get? n.id = some n) (hle : height ≤ n.height) :
    c.ancestorOf? ix n height = (ix.ancestors n.id).reverse[height]?.map Node.id := by
  rw [ancestorOf?]
  split_ifs with hholds
  · rw [h.at?_eq, wf.getElem?_reverse_pathFrom ((h.holds_iff wf hn).1 hholds) hle]
  · rw [wf.ancestor?_eq]

/-- The hash at a height of the path to a node. -/
def pathHash? (ix : BlockIndex) (id height : Nat) : Option Digest :=
  ((ix.ancestors id).map Node.hash).reverse[height]?

theorem pathHash?_eq_some_iff (wf : ix.WellFormed) {hash : Digest} :
    pathHash? ix id height = some hash ↔
      ∃ n ∈ ix.ancestors id, n.height = height ∧ n.hash = hash := by
  rw [pathHash?, ← List.map_reverse, List.getElem?_map, Option.map_eq_some_iff]
  simp only [wf.getElem?_reverse_ancestors, and_assoc]

theorem Follows.locate_eq (h : c.Follows ix tip) (wf : ix.WellFormed) (hm : m ∈ ix.ancestors id) :
    c.locate ix limit count step (some m.id) =
      (descent limit count step m.height).filterMap (pathHash? ix id) := by
  induction limit generalizing count step m with
  | zero => rfl
  | succ limit ih =>
    obtain ⟨hget, front, hsplit⟩ := wf.split_ancestors hm
    have hhash : pathHash? ix id m.height = some m.hash :=
      (pathHash?_eq_some_iff wf).2 ⟨m, hm, rfl, rfl⟩
    rw [locate, hget, descent]
    dsimp only
    by_cases hzero : m.height = 0
    · rw [hzero] at hhash
      rw [if_pos hzero, if_pos hzero, List.filterMap_cons_some hhash, List.filterMap_nil]
    · obtain ⟨k, hk, hheight⟩ := wf.exists_height_eq hget (Nat.sub_le m.height step)
      have hmem : k ∈ ix.ancestors id := by
        rw [hsplit]
        exact List.mem_append_right front hk
      rw [if_neg hzero, if_neg hzero, List.filterMap_cons_some hhash,
        h.ancestorOf?_eq wf hget (Nat.sub_le m.height step),
        (wf.getElem?_reverse_ancestors _).2 ⟨hk, hheight⟩, Option.map_some, ih hmem, hheight,
        nextStep]

/-- The entries of a locator are the hashes of the path at falling heights. -/
theorem Follows.locator_eq (h : c.Follows ix tip) (wf : ix.WellFormed) (hn : ix.get? id = some n)
    (hstart : start.or c.tip? = some id) :
    c.locator ix start = (descent (id + 1) 0 1 n.height).filterMap (pathHash? ix id) := by
  have hid : n.id = id := (wf.placed id n hn).id_eq
  rw [locator, hstart, Option.map_some, Option.getD_some,
    ← h.locate_eq wf (wf.mem_ancestors_self hn), hid]

/-! ## The common block -/

/-- What a list along falling heights finds first, it finds at the greatest height. -/
theorem findSome?_filterMap_of_falling {α β : Type} {heights : List Nat} {f : Nat → Option α}
    {g : α → Option β} {b : β} (hfall : heights.Pairwise (· > ·))
    (hfound : (heights.filterMap f).findSome? g = some b) :
    ∃ h ∈ heights, ∃ a, f h = some a ∧ g a = some b ∧
      ∀ h' ∈ heights, h < h' → ∀ a', f h' = some a' → g a' = none := by
  induction heights with
  | nil => cases hfound
  | cons x heights ih =>
    obtain ⟨hlt, hfall⟩ := List.pairwise_cons.1 hfall
    -- Where the first height gives nothing, the search goes on, and it stays true of this height.
    have hlater (hskip : ∀ a', f x = some a' → g a' = none)
        (hfound : (heights.filterMap f).findSome? g = some b) :
        ∃ h ∈ x :: heights, ∃ a, f h = some a ∧ g a = some b ∧
          ∀ h' ∈ x :: heights, h < h' → ∀ a', f h' = some a' → g a' = none := by
      obtain ⟨h, hmem, a, hf, hg, habove⟩ := ih hfall hfound
      refine ⟨h, List.mem_cons_of_mem x hmem, a, hf, hg, fun h' hmem' hlt' a' hf' => ?_⟩
      rcases List.mem_cons.1 hmem' with rfl | hmem'
      · exact hskip a' hf'
      · exact habove h' hmem' hlt' a' hf'
    cases hf : f x with
    | none =>
      rw [List.filterMap_cons_none hf] at hfound
      refine hlater (fun a' hf' => ?_) hfound
      rw [hf] at hf'
      cases hf'
    | some a =>
      rw [List.filterMap_cons_some hf, List.findSome?_cons] at hfound
      cases hg : g a with
      | none =>
        rw [hg] at hfound
        refine hlater (fun a' hf' => ?_) hfound
        rw [hf, Option.some.injEq] at hf'
        rw [← hf', hg]
      | some b' =>
        rw [hg, Option.some.injEq] at hfound
        rw [hfound] at hg
        refine ⟨x, List.mem_cons_self, a, hf, hg, fun h' hmem hlt' => ?_⟩
        rcases List.mem_cons.1 hmem with rfl | hmem
        · exact absurd hlt' (Nat.lt_irrefl _)
        · exact absurd (hlt h' hmem) (Nat.not_lt.2 (Nat.le_of_lt hlt'))

/-- A hash leads to a node of the chain exactly if a node of the path has it. -/
theorem Follows.filter_lookup?_eq_some_iff (h : c.Follows ix tip) (wf : ix.WellFormed)
    {hash : Digest} :
    (ix.lookup? hash).filter (c.contains ix) = some id ↔
      ∃ n ∈ ix.pathFrom tip, n.id = id ∧ n.hash = hash := by
  rw [Option.filter_eq_some_iff, wf.lookup?_eq_some_iff, h.contains_iff wf]
  constructor
  · rintro ⟨⟨n, hn, hhash⟩, m, hm, rfl⟩
    have hget := (wf.split_pathFrom hm).1
    rw [hn, Option.some.injEq] at hget
    exact ⟨m, hm, rfl, hget ▸ hhash⟩
  · rintro ⟨n, hn, rfl, hhash⟩
    exact ⟨⟨n, (wf.split_pathFrom hn).1, hhash⟩, n, hn, rfl⟩

/-- Of the hashes along falling heights, the search for a common block finds the highest that is in
the chain, if there is one. -/
theorem Follows.findFork_of_falling (h : c.Follows ix tip) (wf : ix.WellFormed)
    {heights : List Nat} {hashAt : Nat → Option Digest} (hfall : heights.Pairwise (· > ·))
    (hheight : height ∈ heights) {hash : Digest} (hhash : hashAt height = some hash)
    (hm : m ∈ ix.pathFrom tip) (heq : m.hash = hash) :
    ∃ x ∈ heights, ∃ n ∈ ix.pathFrom tip, hashAt x = some n.hash ∧
      c.findFork ix (heights.filterMap hashAt) = some n.id ∧
      ∀ x' ∈ heights, x < x' → ∀ hash', hashAt x' = some hash' →
        ∀ k ∈ ix.pathFrom tip, k.hash ≠ hash' := by
  have hmem : hash ∈ heights.filterMap hashAt := List.mem_filterMap.2 ⟨height, hheight, hhash⟩
  have hsome : ((heights.filterMap hashAt).findSome? fun hash =>
      (ix.lookup? hash).filter (c.contains ix)).isSome = true := by
    rw [List.findSome?_isSome_iff]
    exact ⟨hash, hmem, Option.isSome_iff_exists.2
      ⟨m.id, (h.filter_lookup?_eq_some_iff wf).2 ⟨m, hm, rfl, heq⟩⟩⟩
  obtain ⟨id, hfound⟩ := Option.isSome_iff_exists.1 hsome
  obtain ⟨x, hx, hash', hat, hlookup, habove⟩ := findSome?_filterMap_of_falling hfall hfound
  obtain ⟨n, hn, rfl, rfl⟩ := (h.filter_lookup?_eq_some_iff wf).1 hlookup
  refine ⟨x, hx, n, hn, hat, ?_, fun x' hx' hlt hash' hat' k hk heq' => ?_⟩
  · rw [findFork, hfound, Option.some_or]
  · have hnone := habove x' hx' hlt hash' hat'
    rw [(h.filter_lookup?_eq_some_iff wf).2 ⟨k, hk, rfl, heq'⟩] at hnone
    cases hnone

end MergedWork.ActiveChain
