import MergedWork.Proofs.ActiveChain.Path
import MergedWork.Proofs.ChainState.Run

/-!
# Fork choice

After every run from the first block, the active chain is the path to the node with the most work,
and to the first of those if several have it (`fork_choice`). One invariant carries the run
(`Coherent`): the index is a tree, the tip is the first of the heaviest nodes, and the chain
follows it. A new node is the last in its index, so that it is the first of the heaviest exactly if
it has more work than the tip, which is when the tip moves.
-/

namespace MergedWork

namespace BlockIndex

variable {ix ix' : BlockIndex} {tip : Nat} {n : Node} {hash : Digest}

/-- The node at the place has the most work of all, and comes before all others that have as
much. -/
def Heaviest (ix : BlockIndex) (tip : Nat) : Prop :=
  ∃ n, ix.get? tip = some n ∧
    ∀ i m, ix.get? i = some m → m.chainWork ≤ n.chainWork ∧ (m.chainWork = n.chainWork → tip ≤ i)

/-- A new node with more work than the heaviest is the heaviest. -/
theorem Heaviest.push_of_lt (h : ix.Heaviest tip) {prev : Option Nat} {t x : Node}
    (ht : ix.get? tip = some t) (hx : (ix.push n prev).1.get? ix.size = some x)
    (hlt : t.chainWork < x.chainWork) : (ix.push n prev).1.Heaviest ix.size := by
  obtain ⟨t', ht', hmax⟩ := h
  cases ht'.symm.trans ht
  refine ⟨x, hx, fun i m hm => ?_⟩
  rcases get?_push_cases hm with ⟨rfl, -⟩ | hold
  · cases hx.symm.trans hm
    exact ⟨Nat.le_refl _, fun _ => Nat.le_refl _⟩
  · have hle := (hmax i m hold).1
    exact ⟨by omega, by omega⟩

/-- A new node with no more work than the heaviest leaves that the first. -/
theorem Heaviest.push_of_le (h : ix.Heaviest tip) {prev : Option Nat} {t x : Node}
    (ht : ix.get? tip = some t) (hx : (ix.push n prev).1.get? ix.size = some x)
    (hle : x.chainWork ≤ t.chainWork) : (ix.push n prev).1.Heaviest tip := by
  obtain ⟨t', ht', hmax⟩ := h
  cases ht'.symm.trans ht
  refine ⟨t, extends_push ix n prev tip t ht, fun i m hm => ?_⟩
  rcases get?_push_cases hm with ⟨rfl, -⟩ | hold
  · cases hx.symm.trans hm
    exact ⟨hle, fun _ => Nat.le_of_lt (lt_size_of_get? ht)⟩
  · exact hmax i m hold

/-- A node without a parent is the first, or a block of zero hash is known, which its header names
as its predecessor. -/
def Rooted (ix : BlockIndex) : Prop :=
  ∀ i n, ix.get? i = some n → n.prev = none → i = 0 ∨ ix.contains .zero = true

theorem Rooted.push (h : ix.Rooted) {prev : Option Nat}
    (hroot : prev = none → ix.contains .zero = true) : (ix.push n prev).1.Rooted := by
  intro i m hm hnone
  rcases get?_push_cases hm with ⟨rfl, rfl⟩ | hold
  · rw [Node.prev_linked] at hnone
    exact Or.inr (contains_of_extends (extends_push ix n prev) (hroot hnone))
  · exact (h i m hold hnone).imp_right (contains_of_extends (extends_push ix n prev))

end BlockIndex

namespace ChainState

open BlockIndex

variable {s : ChainState} {sub : Submission} {tip : Nat} {params : Params}

/-! ## The invariant -/

/-- The node of the first block. -/
def genesisNode (params : Params) : Node := (freshNode params.genesis).linked 0 none none

/-- What holds of a state after every run from the first block. -/
structure Coherent (s : ChainState) : Prop where
  wellFormed : s.index.WellFormed
  genesis : s.index.get? 0 = some (genesisNode s.params)
  rooted : s.index.Rooted
  active : ∃ tip, s.index.Heaviest tip ∧ s.chain.Follows s.index (some tip)

theorem start_eq (hgenesis : params.genesis.previous = .zero) :
    start params =
      let index := ((BlockIndex.empty params.forkRule).push (freshNode params.genesis) none).1
      ⟨index, (ActiveChain.empty.setTip index (some 0)).1, params⟩ := by
  have hinsert : (BlockIndex.empty params.forkRule).insert params.genesis =
      .ok ((BlockIndex.empty params.forkRule).push (freshNode params.genesis) none) := by
    simp only [BlockIndex.insert, lookup?_empty, hgenesis, if_true]
    rfl
  simp only [start, hinsert]
  rfl

theorem coherent_start (hgenesis : params.genesis.previous = .zero) :
    (start params).Coherent := by
  rw [start_eq hgenesis]
  generalize hix : (BlockIndex.empty params.forkRule).push (freshNode params.genesis) none = added
  have hempty := wellFormed_empty params.forkRule
  have wf : added.1.WellFormed := hix ▸ hempty.push (lookup?_empty _ _) nofun
  have hget : added.1.get? 0 = some (genesisNode params) := by
    rw [← hix]
    exact get?_push_size _ _ _
  have honly : ∀ i m, added.1.get? i = some m → i = 0 := by
    intro i m hm
    rw [← hix] at hm
    rcases get?_push_cases hm with ⟨hi, -⟩ | hold
    · exact hi
    · cases hold
  refine ⟨wf, hget, fun i m hm _ => Or.inl (honly i m hm), 0, ⟨_, hget, ?_⟩, ?_⟩
  · intro i m hm
    obtain rfl := honly i m hm
    cases hget.symm.trans hm
    exact ⟨Nat.le_refl _, fun _ => Nat.le_refl _⟩
  · exact (ActiveChain.follows_empty added.1).setTip wf (some 0)

theorem Coherent.tip?_eq (hs : s.Coherent) (h : s.chain.Follows s.index (some tip))
    (hheavy : s.index.Heaviest tip) : s.tip? = some tip := by
  obtain ⟨n, hn, -⟩ := hheavy
  exact h.tip?_eq hs.wellFormed hn

theorem improves_iff {t x : Node} (htip : s.tip? = some tip) (ht : s.index.get? tip = some t)
    (hx : x.status.isFailed = false) : s.improves x = true ↔ t.chainWork < x.chainWork := by
  simp [improves, tipNode?, htip, ht, hx]

/-- A new node takes the tip if it has more work, and else the tip stays where it is. Either way,
the chain follows the heaviest node. -/
theorem updateTip_push_cases (wf : s.index.WellFormed) (hheavy : s.index.Heaviest tip)
    (hfollows : s.chain.Follows s.index (some tip)) {n : Node} {prev : Option Nat}
    (hnew : s.index.lookup? n.hash = none) (hfresh : n.status.isFailed = false)
    (hprev : ∀ p, prev = some p → p < s.index.size) :
    ∃ tip' chain, (tip' = tip ∨ tip' = s.index.size) ∧
      (s.index.push n prev).1.Heaviest tip' ∧ chain.Follows (s.index.push n prev).1 (some tip') ∧
      (updateTip { s with index := (s.index.push n prev).1 } s.index.size).1 =
        { s with index := (s.index.push n prev).1, chain } := by
  obtain ⟨t, ht, -⟩ := id hheavy
  have wf' := wf.push hnew hprev
  have hext := extends_push s.index n prev
  have hx := get?_push_size s.index n prev
  have hxfailed : (n.linked s.index.size prev (prev.bind s.index.get?)).status.isFailed = false := by
    rw [Node.status_linked, hfresh]
  generalize n.linked s.index.size prev (prev.bind s.index.get?) = x at hx hxfailed
  have hkept : s.chain.Follows (s.index.push n prev).1 (some tip) :=
    hfollows.of_extends wf wf' hext ht
  have himproves : improves { s with index := (s.index.push n prev).1 } x = true ↔
      t.chainWork < x.chainWork :=
    improves_iff (hfollows.tip?_eq wf ht) (hext tip t ht) hxfailed
  rw [updateTip_fst]
  simp only [hx, Option.any_some]
  split_ifs with hbetter
  · exact ⟨s.index.size, _, Or.inr rfl, hheavy.push_of_lt ht hx (himproves.1 hbetter),
      hkept.setTip wf' (some s.index.size), rfl⟩
  · exact ⟨tip, s.chain, Or.inl rfl,
      hheavy.push_of_le ht hx (Nat.le_of_not_lt (mt himproves.2 hbetter)), hkept, rfl⟩

/-- Adding a node, and moving the tip to it if that has more work, keeps the invariant. -/
theorem Coherent.push (hs : s.Coherent) {n : Node} {prev : Option Nat}
    (hnew : s.index.lookup? n.hash = none) (hfresh : n.status.isFailed = false)
    (hprev : ∀ p, prev = some p → p < s.index.size)
    (hroot : prev = none → s.index.contains .zero = true) :
    (updateTip { s with index := (s.index.push n prev).1 } s.index.size).1.Coherent := by
  obtain ⟨tip, hheavy, hfollows⟩ := hs.active
  obtain ⟨tip', chain, -, hheavy', hfollows', heq⟩ :=
    updateTip_push_cases hs.wellFormed hheavy hfollows hnew hfresh hprev
  rw [heq]
  constructor
  case wellFormed => exact hs.wellFormed.push hnew hprev
  case genesis => exact extends_push s.index n prev 0 _ hs.genesis
  case rooted => exact hs.rooted.push hroot
  case active => exact ⟨tip', hheavy', hfollows'⟩

theorem Coherent.next (hs : s.Coherent) (sub : Submission) : (s.next sub).Coherent := by
  rcases s.next_cases sub with heq | ⟨prev, hnew, hprev, hroot, heq⟩
  · rw [heq]
    exact hs
  · rw [heq]
    exact hs.push hnew (isFailed_freshNode _) (fun p hp => lt_size_of_lookup? (hprev p hp)) hroot

theorem coherent_run (hgenesis : params.genesis.previous = .zero) (subs : List Submission) :
    ((start params).run subs).Coherent :=
  run_induction (fun _ sub hs => hs.next sub) (coherent_start hgenesis) subs

theorem params_start (params : Params) : (start params).params = params := by
  rw [start]
  cases (BlockIndex.empty params.forkRule).insert params.genesis with
  | error rejection => rfl
  | ok added => rfl

theorem params_next (s : ChainState) (sub : Submission) : (s.next sub).params = s.params := by
  rcases s.next_cases sub with heq | ⟨prev, -, -, -, heq⟩
  · rw [heq]
  · rw [heq, updateTip_fst]
    split_ifs <;> rfl

theorem params_run (s : ChainState) (subs : List Submission) : (s.run subs).params = s.params :=
  run_induction (P := fun s' => s'.params = s.params)
    (fun s' sub hs' => (params_next s' sub).trans hs') rfl subs

/-! ## The choice -/

theorem header_genesisNode (ix : BlockIndex) (hgenesis : params.genesis.previous = .zero) :
    ix.header (genesisNode params) = params.genesis := by
  change ({ params.genesis.toHeaderFields with previous := .zero } : Header) = params.genesis
  rw [← hgenesis]

/-- After a run, the tip is the first of the nodes with the most work, and the active chain is the
path to it, each node at its height behind its parent. It starts with the first block, unless a
block is known whose hash is the zero digest, which a root names as its predecessor. -/
theorem fork_choice (params : Params) (hgenesis : params.genesis.previous = .zero)
    (subs : List Submission) :
    let s := (start params).run subs
    ∃ tip, s.tip? = some tip ∧ s.index.Heaviest tip ∧
      s.chain.ids.toList = ((s.index.ancestors tip).map Node.id).reverse ∧
      (∀ height id, s.chain.at? height = some id → ∃ n, s.index.get? id = some n ∧
        n.height = height ∧ n.prev = if height = 0 then none else s.chain.at? (height - 1)) ∧
      ∃ g, s.index.get? 0 = some g ∧ s.index.header g = params.genesis ∧
        (s.chain.genesis? = some 0 ∨ s.index.contains .zero = true) := by
  intro s
  have hs : s.Coherent := coherent_run hgenesis subs
  have hparams : s.params = params :=
    (params_run (start params) subs).trans (params_start params)
  obtain ⟨tip, hheavy, hfollows⟩ := hs.active
  obtain ⟨n, hn, -⟩ := id hheavy
  obtain ⟨r, hfirst, hr, hroot⟩ := hfollows.exists_genesis hs.wellFormed hn
  refine ⟨tip, hs.tip?_eq hfollows hheavy, hheavy, hfollows,
    fun _ _ => hfollows.linked hs.wellFormed, genesisNode params, ?_, ?_, ?_⟩
  · rw [hs.genesis, hparams]
  · exact header_genesisNode s.index hgenesis
  · rw [hfirst]
    exact (hs.rooted r.id r hr hroot).imp_left fun hzero => by rw [hzero]

/-- An engine under which every hash meets every target. -/
def lenient : Engine where
  powHash _ _ := .zero
  verify _ _ _ _ := true

/-- A block behind the first one of the test network. -/
def second (nonce : UInt32) : Submission where
  engine := lenient
  header :=
    { version := ⟨1⟩
      previous := Network.regtest.genesisHash
      merkleRoot := .zero
      time := 1405274401
      bits := ⟨0x207fffff⟩
      nonce := .compact nonce }
  proof := none

/-- Of two blocks of equal work, the one that came first is the tip. -/
theorem fork_choice_rivals :
    Network.regtest.params.genesis.previous = .zero ∧
      ((start Network.regtest.params).run [second 0, second 1]).index.size = 3 ∧
      ((start Network.regtest.params).run [second 0, second 1]).tip? = some 1 ∧
      ((start Network.regtest.params).run [second 0, second 1]).index.Heaviest 1 := by
  have hrun : ((start Network.regtest.params).run [second 0, second 1]).index.size = 3 ∧
      ((start Network.regtest.params).run [second 0, second 1]).tip? = some 1 := by
    decide +kernel
  obtain ⟨tip, htip', hheavy, -⟩ := fork_choice Network.regtest.params rfl [second 0, second 1]
  cases htip'.symm.trans hrun.2
  exact ⟨rfl, hrun.1, hrun.2, hheavy⟩

end ChainState

end MergedWork
