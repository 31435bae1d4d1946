import MergedWork.Proofs.ChainState.ForkChoice
import MergedWork.Proofs.ChainState.Verdict
import Mathlib.Data.List.Basic

/-!
# The order of arrival

Two headers of which neither names the other can come in either order: each gets the same verdict,
and the same is known of blocks behind them (`Params.learn_comm`). All orders in which parents come
first arise from one another by such swaps, so that the verdicts, the known blocks and the work of
the tip do not depend on the order (`order_independent`).
-/

namespace MergedWork

/-- Each header comes behind the one that it names, if that comes at all. -/
def ParentsFirst (subs : List Submission) : Prop :=
  subs.Pairwise fun a b => a.header.previous ≠ b.header.hash

def Distinct (subs : List Submission) : Prop :=
  subs.Pairwise fun a b => a.header.hash ≠ b.header.hash

instance (subs : List Submission) : Decidable (ParentsFirst subs) :=
  inferInstanceAs (Decidable (List.Pairwise _ subs))

instance (subs : List Submission) : Decidable (Distinct subs) :=
  inferInstanceAs (Decidable (List.Pairwise _ subs))

/-- Two headers are different blocks, of which neither is the parent of the other. -/
structure Apart (a b : Submission) : Prop where
  hash_ne : a.header.hash ≠ b.header.hash
  previous_ne : a.header.previous ≠ b.header.hash
  previous_ne' : b.header.previous ≠ a.header.hash

theorem Apart.symm {a b : Submission} (h : Apart a b) : Apart b a :=
  ⟨h.hash_ne.symm, h.previous_ne', h.previous_ne⟩

/-! ## Swapping headers -/

namespace Params

variable {p : Params} {known : Digest → Option KnownBlock} {a b : Submission}
  {front back subs subs' : List Submission}

/-- What is known of blocks after submissions in the given order. -/
def learnAll (p : Params) (known : Digest → Option KnownBlock) (subs : List Submission) :
    Digest → Option KnownBlock :=
  subs.foldl p.learn known

/-- The submissions in the given order, each with its verdict. -/
def verdicts (p : Params) (known : Digest → Option KnownBlock) :
    List Submission → List (Submission × Except Rejection Unit)
  | [] => []
  | sub :: subs => (sub, p.judge known sub) :: verdicts p (p.learn known sub) subs

theorem verdicts_cons (p : Params) (known : Digest → Option KnownBlock) (sub : Submission)
    (subs : List Submission) :
    p.verdicts known (sub :: subs) =
      (sub, p.judge known sub) :: p.verdicts (p.learn known sub) subs := rfl

theorem judge_learn (h : Apart a b) : p.judge (p.learn known b) a = p.judge known a :=
  judge_congr (learn_of_ne h.hash_ne.symm) (learn_of_ne h.previous_ne.symm)

theorem newBlock?_learn (h : Apart a b) : p.newBlock? (p.learn known b) a = p.newBlock? known a :=
  newBlock?_congr (learn_of_ne h.hash_ne.symm) (learn_of_ne h.previous_ne.symm)

theorem learn_comm (h : Apart a b) : p.learn (p.learn known a) b = p.learn (p.learn known b) a := by
  funext hash
  by_cases ha : a.header.hash = hash
  · subst ha
    rw [learn_of_ne h.hash_ne.symm, learn_self, learn_self, newBlock?_learn h,
      learn_of_ne h.hash_ne.symm]
  · by_cases hb : b.header.hash = hash
    · subst hb
      rw [learn_of_ne ha, learn_self, learn_self, newBlock?_learn h.symm, learn_of_ne ha]
    · rw [learn_of_ne ha, learn_of_ne hb, learn_of_ne hb, learn_of_ne ha]

/-- A header may come before others from which it is apart. -/
theorem move_to_front (known : Digest → Option KnownBlock) (back : List Submission)
    (h : ∀ b ∈ front, Apart a b) :
    p.learnAll known (front ++ a :: back) = p.learnAll known (a :: (front ++ back)) ∧
      (p.verdicts known (front ++ a :: back)).Perm (p.verdicts known (a :: (front ++ back))) := by
  induction front generalizing known with
  | nil => exact ⟨rfl, List.Perm.refl _⟩
  | cons b front ih =>
    have hab : Apart a b := h b List.mem_cons_self
    obtain ⟨hlearn, hverdicts⟩ :=
      ih (p.learn known b) fun b' hb' => h b' (List.mem_cons_of_mem b hb')
    constructor
    · change p.learnAll (p.learn known b) (front ++ a :: back) =
        p.learnAll (p.learn (p.learn known a) b) (front ++ back)
      rw [hlearn, learn_comm hab]
      rfl
    · change ((b, p.judge known b) :: p.verdicts (p.learn known b) (front ++ a :: back)).Perm
        ((a, p.judge known a) :: (b, p.judge (p.learn known a) b) ::
          p.verdicts (p.learn (p.learn known a) b) (front ++ back))
      refine (hverdicts.cons _).trans ?_
      rw [verdicts_cons, judge_learn hab.symm, judge_learn hab, learn_comm hab]
      exact List.Perm.swap _ _ _

theorem learnAll_of_perm (known : Digest → Option KnownBlock) (hperm : subs.Perm subs')
    (hdistinct : Distinct subs) (hfirst : ParentsFirst subs) (hfirst' : ParentsFirst subs') :
    p.learnAll known subs = p.learnAll known subs' ∧
      (p.verdicts known subs).Perm (p.verdicts known subs') := by
  induction subs generalizing known subs' with
  | nil =>
    obtain rfl := hperm.nil_eq
    exact ⟨rfl, List.Perm.refl _⟩
  | cons a subs ih =>
    obtain ⟨front, back, rfl⟩ := List.append_of_mem (hperm.subset List.mem_cons_self)
    have htail : subs.Perm (front ++ back) := (hperm.trans List.perm_middle).cons_inv
    obtain ⟨hhash, hdistinct⟩ := List.pairwise_cons.1 hdistinct
    obtain ⟨hprevious, hfirst⟩ := List.pairwise_cons.1 hfirst
    obtain ⟨hfront, hback, hcross⟩ := List.pairwise_append.1 hfirst'
    -- What comes before `a` in the one order comes behind it in the other, so that neither can be
    -- the parent of the other.
    have hapart : ∀ b ∈ front, Apart a b := by
      intro b hb
      have hmem : b ∈ subs := htail.symm.subset (List.mem_append_left back hb)
      exact ⟨hhash b hmem, hprevious b hmem, hcross b hb a List.mem_cons_self⟩
    have hrest : ParentsFirst (front ++ back) :=
      List.pairwise_append.2 ⟨hfront, (List.pairwise_cons.1 hback).2,
        fun b hb b' hb' => hcross b hb b' (List.mem_cons_of_mem a hb')⟩
    obtain ⟨hlearn, hverdicts⟩ := ih (p.learn known a) htail hdistinct hfirst hrest
    obtain ⟨hlearn', hverdicts'⟩ := p.move_to_front known back hapart
    exact ⟨hlearn.trans hlearn'.symm, (hverdicts.cons _).trans hverdicts'.symm⟩

end Params

/-! ## Trees in different orders -/

namespace BlockIndex

variable {ix ix' : BlockIndex} {id tip tip' : Nat} {n t t' : Node}

theorem WellFormed.exists_same (wf : ix.WellFormed)
    (hsame : ∀ hash, ix.block? hash = ix'.block? hash) (hn : ix.get? id = some n) :
    ∃ id' n', ix'.get? id' = some n' ∧ n'.hash = n.hash ∧ n'.chainWork = n.chainWork := by
  have hblock := wf.block?_of_get? hn
  rw [hsame] at hblock
  obtain ⟨id', n', hn', hhash, hknown⟩ := get?_of_block? hblock
  exact ⟨id', n', hn', hhash, congrArg KnownBlock.chainWork hknown⟩

theorem Heaviest.chainWork_le (h : ix'.Heaviest tip') (ht' : ix'.get? tip' = some t')
    (wf : ix.WellFormed) (hsame : ∀ hash, ix.block? hash = ix'.block? hash)
    (hn : ix.get? id = some n) : n.chainWork ≤ t'.chainWork := by
  obtain ⟨id', n', hn', -, hwork⟩ := wf.exists_same hsame hn
  obtain ⟨u, hu, hmax⟩ := h
  cases ht'.symm.trans hu
  rw [← hwork]
  exact (hmax id' n' hn').1

theorem Heaviest.chainWork_eq (h : ix.Heaviest tip) (h' : ix'.Heaviest tip')
    (ht : ix.get? tip = some t) (ht' : ix'.get? tip' = some t') (wf : ix.WellFormed)
    (wf' : ix'.WellFormed) (hsame : ∀ hash, ix.block? hash = ix'.block? hash) :
    t.chainWork = t'.chainWork :=
  Nat.le_antisymm (h'.chainWork_le ht' wf hsame ht)
    (h.chainWork_le ht wf' (fun hash => (hsame hash).symm) ht')

/-- The node at a place has more work than each other. -/
def SoleHeaviest (ix : BlockIndex) (best : Nat) : Prop :=
  ∃ n, ix.get? best = some n ∧ ∀ i m, ix.get? i = some m → i ≠ best → m.chainWork < n.chainWork

instance (ix : BlockIndex) (best : Nat) : Decidable (ix.SoleHeaviest best) :=
  decidable_of_iff ((ix.get? best).any fun n =>
    (List.range ix.size).all fun i =>
      i = best || (ix.get? i).all fun m => m.chainWork < n.chainWork) <| by
    simp only [SoleHeaviest, Option.any_eq_true, List.all_eq_true, List.mem_range, Bool.or_eq_true,
      decide_eq_true_eq, Option.all_eq_true]
    refine exists_congr fun n => and_congr_right fun _ => ⟨fun h i m hm hne => ?_, fun h i _ => ?_⟩
    · exact (h i (lt_size_of_get? hm)).resolve_left hne m hm
    · by_cases hi : i = best
      · exact Or.inl hi
      · exact Or.inr fun m hm => h i m hm hi

theorem SoleHeaviest.hash_eq {best : Nat} (hsole : ix.SoleHeaviest best) (h : ix.Heaviest tip)
    (ht : ix.get? tip = some t) (hn : ix.get? id = some n) (hwork : n.chainWork = t.chainWork) :
    n.hash = t.hash := by
  obtain ⟨b, hb, hlt⟩ := hsole
  obtain ⟨u, hu, hmax⟩ := h
  cases ht.symm.trans hu
  have hle := (hmax best b hb).1
  have htip : tip = best := by
    by_contra hne
    exact absurd (hlt tip t ht hne) (Nat.not_lt.2 hle)
  have hid : id = best := by
    by_contra hne
    exact absurd (hlt id n hn hne) (Nat.not_lt.2 (hwork ▸ hle))
  rw [hid, ← htip, ht, Option.some.injEq] at hn
  rw [hn]

end BlockIndex

/-! ## Runs -/

namespace ChainState

open BlockIndex

variable {s s' : ChainState} {params : Params} {subs subs' : List Submission} {tip tip' : Nat}

/-- The submissions in the given order, each with the verdict of the state that it comes to. -/
def verdicts (s : ChainState) : List Submission → List (Submission × Except Rejection Unit)
  | [] => []
  | sub :: subs => (sub, s.verdict sub) :: verdicts (s.next sub) subs

/-- The hashes of the active chain, first block first. -/
def activeHashes (s : ChainState) : List Digest :=
  s.chain.ids.toList.filterMap fun id => (s.index.get? id).map Node.hash

theorem Clean.run_spec (hs : s.Clean) (subs : List Submission) :
    s.verdicts subs = s.params.verdicts s.index.block? subs ∧
      (s.run subs).index.block? = s.params.learnAll s.index.block? subs := by
  induction subs generalizing s with
  | nil => exact ⟨rfl, rfl⟩
  | cons sub subs ih =>
    obtain ⟨hverdict, hlearn⟩ := hs.submit_spec sub
    obtain ⟨hverdicts, hlearnAll⟩ := ih (hs.next sub)
    rw [params_next, hlearn] at hverdicts hlearnAll
    exact ⟨by rw [verdicts, Params.verdicts_cons, hverdict, hverdicts], hlearnAll⟩

theorem start_of_previous_ne_zero (h : params.genesis.previous ≠ .zero) :
    start params = ⟨BlockIndex.empty params.forkRule, .empty, params⟩ := by
  simp only [start, BlockIndex.insert, lookup?_empty, if_neg h]

/-- Nothing can be added to a state without a first block. -/
theorem run_of_previous_ne_zero (h : params.genesis.previous ≠ .zero) (subs : List Submission) :
    (start params).run subs = start params := by
  refine run_induction (P := fun s => s = start params) (fun s sub hs => ?_) rfl subs
  have hempty : ∀ hash, s.index.lookup? hash = none := fun hash => by
    rw [hs, start_of_previous_ne_zero h]
    exact lookup?_empty _ hash
  rcases s.next_cases sub with heq | ⟨prev, -, hprev, hroot, -⟩
  · rw [heq, hs]
  · cases prev with
    | none =>
      have hzero := hroot rfl
      rw [BlockIndex.contains, hempty] at hzero
      cases hzero
    | some p =>
      have hp := hprev p rfl
      rw [hempty] at hp
      cases hp

theorem clean_start (params : Params) : (start params).Clean := by
  by_cases hzero : params.genesis.previous = .zero
  · have hclean : Clean ⟨BlockIndex.empty params.forkRule, .empty, params⟩ :=
      ⟨wellFormed_empty _, nofun⟩
    have hpush : Clean ⟨((BlockIndex.empty params.forkRule).push (freshNode params.genesis) none).1,
        .empty, params⟩ := hclean.push (lookup?_empty _ _) nofun
    rw [start_eq hzero]
    exact ⟨hpush.wellFormed, hpush.unfailed⟩
  · rw [start_of_previous_ne_zero hzero]
    exact ⟨wellFormed_empty _, nofun⟩

theorem activeHashes_eq (wf : s.index.WellFormed) (h : s.chain.Follows s.index (some tip)) :
    s.activeHashes = ((s.index.ancestors tip).map Node.hash).reverse := by
  have hhashes : (((s.index.ancestors tip).map Node.id).filterMap fun id =>
      (s.index.get? id).map Node.hash) = (s.index.ancestors tip).map Node.hash := by
    rw [List.filterMap_map, List.filterMap_eq_map_iff_forall_eq_some]
    intro n hn
    obtain ⟨hget, -⟩ := wf.split_pathFrom (pathFrom_some ▸ hn)
    rw [Function.comp_apply, hget, Option.map_some]
  rw [activeHashes, h, pathFrom_some, List.filterMap_reverse, hhashes]

/-- The hash of the block of the active chain that stands at a height. -/
def hashAt? (s : ChainState) (height : Nat) : Option Digest :=
  ((s.chain.at? height).bind s.index.get?).map Node.hash

theorem hashAt?_eq (wf : s.index.WellFormed) (h : s.chain.Follows s.index (some tip))
    (height : Nat) :
    s.hashAt? height = ((s.index.ancestors tip).map Node.hash).reverse[height]? := by
  rw [hashAt?, h.at?_eq, pathFrom_some, ← List.map_reverse, List.getElem?_map]
  cases hn : (s.index.ancestors tip).reverse[height]? with
  | none => rfl
  | some n =>
    have hmem := List.mem_reverse.1 (List.mem_of_getElem? hn)
    have hget := (wf.split_pathFrom (pathFrom_some ▸ hmem)).1
    rw [Option.map_some, Option.bind_some, hget]

/-- States that know the same blocks have tips of the same work, and if one block alone has the most
work, they have the same active chain. -/
theorem Coherent.same_choice (hs : s.Coherent) (hs' : s'.Coherent)
    (hsame : ∀ hash, s.index.block? hash = s'.index.block? hash) :
    s.tipNode?.map Node.chainWork = s'.tipNode?.map Node.chainWork ∧
      ∀ best, s.index.SoleHeaviest best → s.activeHashes = s'.activeHashes := by
  obtain ⟨tip, hheavy, hfollows⟩ := hs.active
  obtain ⟨tip', hheavy', hfollows'⟩ := hs'.active
  obtain ⟨t, ht, -⟩ := id hheavy
  obtain ⟨t', ht', -⟩ := id hheavy'
  have hwork := hheavy.chainWork_eq hheavy' ht ht' hs.wellFormed hs'.wellFormed hsame
  constructor
  · rw [tipNode?, tipNode?, hs.tip?_eq hfollows hheavy, hs'.tip?_eq hfollows' hheavy',
      Option.bind_some, Option.bind_some, ht, ht', Option.map_some, Option.map_some, hwork]
  · intro best hsole
    obtain ⟨id, n, hn, hhash, hwork'⟩ :=
      hs'.wellFormed.exists_same (fun hash => (hsame hash).symm) ht'
    have hhash' : t.hash = t'.hash :=
      (hsole.hash_eq hheavy ht hn (hwork'.trans hwork.symm)).symm.trans hhash
    rw [activeHashes_eq hs.wellFormed hfollows, activeHashes_eq hs'.wellFormed hfollows',
      hs.wellFormed.path_hashes_eq hs'.wellFormed hsame ht ht' hhash']

/-- Headers of different blocks, in any two orders in which parents come first, get the same
verdicts from the first block on. In the end the same is known of each block, the tips have the
same work, and if one block alone has the most work, the active chains are the same. -/
theorem order_independent (params : Params) {subs subs' : List Submission}
    (hperm : subs.Perm subs') (hdistinct : Distinct subs) (hfirst : ParentsFirst subs)
    (hfirst' : ParentsFirst subs') :
    let s := (start params).run subs
    let s' := (start params).run subs'
    ((start params).verdicts subs).Perm ((start params).verdicts subs') ∧
      (∀ hash, s.index.block? hash = s'.index.block? hash) ∧
      s.tipNode?.map Node.chainWork = s'.tipNode?.map Node.chainWork ∧
      ∀ best, s.index.SoleHeaviest best → s.activeHashes = s'.activeHashes := by
  intro s s'
  obtain ⟨hverdicts, hlearn⟩ := (clean_start params).run_spec subs
  obtain ⟨hverdicts', hlearn'⟩ := (clean_start params).run_spec subs'
  obtain ⟨hsame, hsame'⟩ := Params.learnAll_of_perm _ hperm hdistinct hfirst hfirst'
  have hblocks : ∀ hash, s.index.block? hash = s'.index.block? hash :=
    congrFun (hlearn.trans (hsame.trans hlearn'.symm))
  rw [hverdicts, hverdicts']
  refine ⟨hsame', hblocks, ?_⟩
  by_cases hzero : params.genesis.previous = .zero
  · exact (coherent_run hzero subs).same_choice (coherent_run hzero subs') hblocks
  · have hrun : s = s' :=
      (run_of_previous_ne_zero hzero subs).trans (run_of_previous_ne_zero hzero subs').symm
    rw [hrun]
    exact ⟨rfl, fun _ _ => rfl⟩

/-- A block behind one of the two that follow the first block of the test network. -/
def third : Submission :=
  { second 0 with header := { (second 0).header with previous := (second 0).header.hash } }

/-- The shorter side of a fork may come first or second. -/
theorem order_independent_fork :
    [second 0, second 1, third].Perm [second 1, second 0, third] ∧
      Distinct [second 0, second 1, third] ∧ ParentsFirst [second 0, second 1, third] ∧
      ParentsFirst [second 1, second 0, third] ∧
      ((start Network.regtest.params).run [second 0, second 1, third]).index.SoleHeaviest 3 ∧
      ((start Network.regtest.params).run [second 0, second 1, third]).activeHashes =
        ((start Network.regtest.params).run [second 1, second 0, third]).activeHashes := by
  have hperm : [second 0, second 1, third].Perm [second 1, second 0, third] := List.Perm.swap _ _ _
  have hsubs : Distinct [second 0, second 1, third] ∧ ParentsFirst [second 0, second 1, third] ∧
      ParentsFirst [second 1, second 0, third] ∧
      ((start Network.regtest.params).run
        [second 0, second 1, third]).index.SoleHeaviest 3 := by
    decide +kernel
  obtain ⟨hdistinct, hfirst, hfirst', hsole⟩ := hsubs
  obtain ⟨-, -, -, hactive⟩ :=
    order_independent Network.regtest.params hperm hdistinct hfirst hfirst'
  exact ⟨hperm, hdistinct, hfirst, hfirst', hsole, hactive 3 hsole⟩

end ChainState

end MergedWork
