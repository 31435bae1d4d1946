import MergedWork.Proofs.ActiveChain.ForkPoint
import Mathlib.Algebra.Group.Nat.Defs
import Mathlib.Data.List.Basic
import Mathlib.Data.Nat.Find
import Mathlib.Order.Monotone.Basic

/-!
# The spacing of locators

How far the entries of a locator lie below its start depends on nothing but their number (`depth`):
the first twelve stand one below the other, and behind them each gap is twice the gap before it. The
loop that counts its entries and doubles its step goes down by just that, since its step is a power
of two that follows from the count (`descent_eq`). So the entries are the ancestors at these depths,
up to the first that has reached the root, and it is the same whether they are looked up in the
active chain or by walks back (`locator_spaced`).
-/

namespace MergedWork.ActiveChain

open BlockIndex

variable {rule : ForkRule} {c : ActiveChain} {ix : BlockIndex} {tip : Option Nat} {id : Nat}
  {n : Node} {limit count top last k : Nat} {entry : Nat → Node}

/-! ## Depths -/

/-- How many blocks the entry behind `k` others lies below the start, if there are that many. -/
def depth : (k : Nat) → Nat
  | 0 => 0
  | k + 1 => depth k + 2 ^ (k - 10)

theorem depth_succ (k : Nat) : depth (k + 1) = depth k + 2 ^ (k - 10) := rfl

theorem depth_of_le (hle : k ≤ 11) : depth k = k := by
  induction k with
  | zero => rfl
  | succ k ih => rw [depth_succ, ih (by omega), Nat.sub_eq_zero_of_le (by omega), pow_zero]

theorem strictMono_depth : StrictMono depth :=
  strictMono_nat_of_lt_succ fun k => Nat.lt_add_of_pos_right (Nat.two_pow_pos (k - 10))

theorem le_depth (k : Nat) : k ≤ depth k := by
  induction k with
  | zero => exact Nat.zero_le _
  | succ k ih => exact Nat.succ_le_of_lt (Nat.lt_of_le_of_lt ih (strictMono_depth k.lt_succ_self))

/-- There is a first entry that has reached the root, with no more entries than heights before. -/
theorem exists_last (top : Nat) :
    ∃ last ≤ top, top ≤ depth last ∧ ∀ k < last, depth k < top := by
  have hreach : ∃ k, top ≤ depth k := ⟨top, le_depth top⟩
  refine ⟨Nat.find hreach, Nat.find_min' hreach (le_depth top), Nat.find_spec hreach,
    fun k hk => ?_⟩
  exact Nat.lt_of_not_le (Nat.find_min hreach hk)

/-! ## The loop goes down by depths -/

/-- The step is a power of two that follows from the count. -/
theorem nextStep_pow (count : Nat) : nextStep count (2 ^ (count - 10)) = 2 ^ (count + 1 - 10) := by
  rw [nextStep]
  split_ifs with hmany
  · rw [show count + 1 - 10 = count - 10 + 1 by omega, pow_succ, Nat.mul_comm]
  · rw [show count + 1 - 10 = count - 10 by omega]

/-- Behind `count` entries, the loop goes on with the depths from there on. -/
theorem descent_eq (hreach : top ≤ depth last) (hbefore : ∀ k < last, depth k < top)
    (hcount : count ≤ last) (hlimit : last < count + limit) :
    descent limit count (2 ^ (count - 10)) (top - depth count) =
      (List.range' count (last + 1 - count)).map fun k => top - depth k := by
  induction limit generalizing count with
  | zero => exact absurd hcount (Nat.not_le_of_lt hlimit)
  | succ limit ih =>
    rw [descent]
    rcases Nat.eq_or_lt_of_le hcount with rfl | hlt
    · have hzero : top - depth count = 0 := Nat.sub_eq_zero_of_le hreach
      rw [if_pos hzero, Nat.add_sub_cancel_left, List.range'_one, List.map_singleton, hzero]
    · have habove := hbefore count hlt
      rw [if_neg (by omega), nextStep_pow, Nat.sub_sub, ← depth_succ, ih hlt (by omega),
        show last + 1 - count = last + 1 - (count + 1) + 1 by omega, List.range'_succ,
        List.map_cons]

/-! ## Entries -/

/-- A locator lists the ancestors at the depths. -/
theorem Follows.locator_eq_map (h : c.Follows ix tip) (wf : ix.WellFormed)
    (hn : ix.get? id = some n) (hlast : last ≤ n.height) (hreach : n.height ≤ depth last)
    (hbefore : ∀ k < last, depth k < n.height)
    (hentry : ∀ k ≤ last, ix.ancestor? id (n.height - depth k) = some (entry k)) :
    c.locator ix (some id) = (List.range (last + 1)).map fun k => (entry k).hash := by
  have hheight := wf.height_le hn
  have hheights : descent (id + 1) 0 1 n.height =
      (List.range (last + 1)).map fun k => n.height - depth k := by
    rw [List.range_eq_range']
    exact descent_eq hreach hbefore (Nat.zero_le last) (by omega)
  rw [h.locator_eq wf hn Option.some_or, hheights, List.filterMap_map,
    List.filterMap_eq_map_iff_forall_eq_some]
  intro k hk
  have hle : k ≤ last := Nat.le_of_lt_succ (List.mem_range.1 hk)
  rw [Function.comp_apply, pathHash?, ← List.map_reverse, List.getElem?_map, ← wf.ancestor?_eq,
    hentry k hle, Option.map_some]

/-- Whatever chain is active, the locator from a node lists its ancestors at the depths, up to the
first that is the root: the `k`-th entry is the ancestor `depth k` blocks below, or the root. The
heights of the entries fall. Each lookup finds what a walk back finds, so that the list is the same
where there is no chain and every lookup is a walk. -/
theorem locator_spaced (h : Reached rule ix c tip) (hn : ix.get? id = some n) :
    (∀ k ≤ 11, depth k = k) ∧ (∀ k, 11 ≤ k → depth (k + 1) = depth k + 2 ^ (k - 10)) ∧
      ∃ (last : Nat) (entry : Nat → Node),
        c.locator ix (some id) = ((List.range (last + 1)).map fun k => (entry k).hash) ∧
        (∀ k ≤ last, ix.ancestor? id (n.height - depth k) = some (entry k) ∧
          entry k ∈ ix.ancestors id ∧ (entry k).height = n.height - depth k) ∧
        (∀ k ≤ last, (entry k).height = 0 ↔ k = last) ∧
        (∀ k ≤ last, ∀ j < k, (entry k).height < (entry j).height) ∧
        entry 0 = n ∧ ix.root? id = some (entry last) ∧
        (∀ m height, ix.get? m.id = some m → height ≤ m.height →
          c.ancestorOf? ix m height = (ix.ancestor? m.id height).map Node.id) ∧
        c.locator ix (some id) = empty.locator ix (some id) := by
  obtain ⟨wf, -, hfollows⟩ := h.sound
  obtain ⟨last, hlast, hreach, hbefore⟩ := exists_last n.height
  have hfound : ∀ k, ∃ m ∈ ix.ancestors id, m.height = n.height - depth k :=
    fun k => wf.exists_height_eq hn (Nat.sub_le n.height (depth k))
  choose entry hmem hheight using hfound
  have hentry : ∀ k, ix.ancestor? id (n.height - depth k) = some (entry k) :=
    fun k => wf.ancestor?_eq_some_iff.2 ⟨hmem k, hheight k⟩
  have hlocator := hfollows.locator_eq_map wf hn hlast hreach hbefore fun k _ => hentry k
  refine ⟨fun k => depth_of_le, fun k _ => depth_succ k, last, entry, hlocator,
    fun k _ => ⟨hentry k, hmem k, hheight k⟩, fun k hk => ?_, fun k hk j hj => ?_, ?_, ?_,
    fun m height hm hle => ?_, ?_⟩
  · rw [hheight, Nat.sub_eq_zero_iff_le]
    refine ⟨fun hle => Nat.le_antisymm hk (Nat.le_of_not_lt fun hlt => ?_), fun heq => heq ▸ hreach⟩
    exact Nat.not_le_of_lt (hbefore k hlt) hle
  · have habove := hbefore j (Nat.lt_of_lt_of_le hj hk)
    have hdeeper := strictMono_depth hj
    rw [hheight, hheight]
    omega
  · exact wf.eq_of_height_eq (hmem 0) (wf.mem_ancestors_self hn) (hheight 0)
  · rw [wf.root?_eq_some_iff, hheight, Nat.sub_eq_zero_of_le hreach]
    exact ⟨hmem last, rfl⟩
  · rw [hfollows.ancestorOf?_eq wf hm hle, wf.ancestor?_eq]
  · rw [hlocator, (follows_empty ix).locator_eq_map wf hn hlast hreach hbefore fun k _ => hentry k]

/-- From the end of the longer branch, the twelfth entry is at height eight. Two more gaps lead to
heights that are in the active chain, and the next one would go beyond the root. -/
theorem locator_spaced_branched :
    Reached .standard branched (empty.setTip branched (some 8)).1 (some 8) ∧
      (branched.get? 20).map Node.height = some 19 ∧
      ∃ entry : Nat → Node, (empty.setTip branched (some 8)).1.locator branched (some 20) =
          ((List.range 15).map fun k => (entry k).hash) ∧
        (entry 11).height = 8 ∧ (entry 12).height = 6 ∧ (entry 13).height = 2 ∧
        (entry 14).height = 0 ∧ branched.root? 20 = some (entry 14) := by
  have hsize : branched.size = 21 := by decide +kernel
  have htop : (branched.get? 20).map Node.height = some 19 := by decide +kernel
  have hlength : ((empty.setTip branched (some 8)).1.locator branched (some 20)).length = 15 := by
    decide +kernel
  have hreached : Reached .standard branched (empty.setTip branched (some 8)).1 (some 8) :=
    reached_setTip .standard _ (show 8 < branched.size by omega)
  obtain ⟨n, hn, hheight⟩ := Option.map_eq_some_iff.1 htop
  obtain ⟨-, -, last, entry, hlocator, hentry, -, -, -, hroot, -, -⟩ := locator_spaced hreached hn
  obtain rfl : last = 14 := by
    rw [hlocator, List.length_map, List.length_range] at hlength
    exact Nat.succ.inj hlength
  have hat : ∀ k ≤ 14, (entry k).height = 19 - depth k := fun k hk => by
    rw [(hentry k hk).2.2, hheight]
  exact ⟨hreached, htop, entry, hlocator, hat 11 (by decide), hat 12 (by decide), hat 13 (by decide),
    hat 14 (by decide), hroot⟩

end MergedWork.ActiveChain
