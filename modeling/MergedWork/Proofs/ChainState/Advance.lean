import MergedWork.Proofs.ChainState.Admission

/-!
# Accepted blocks add work

A header is only accepted if its hash meets its target, and a target that some hash meets counts as
work. So the chain of a new block has more work than that of its parent, as long as 256 bits hold
the sum, and a block behind the tip becomes the tip (`advance_of_run`).
-/

namespace MergedWork

theorem addWork_of_lt {a b : Nat} (h : a + b < 2 ^ 256) : addWork a b = a + b := by
  have hmax : maxWord = 2 ^ 256 - 1 := by decide
  rw [addWork, Nat.min_eq_right (by omega)]

namespace ChainState

open BlockIndex

variable {s s' : ChainState} {sub : Submission} {p id : Nat} {parent : Node}

/-! ## One step -/

/-- The node of a header that was connected, behind its parent. -/
theorem Connects.exists_node (h : s.Connects sub p parent) (hzero : s.index.contains .zero = false) :
    ∃ n, (s.extended sub.header p).index.get? s.index.size = some n ∧
      (s.extended sub.header p).index.header n = sub.header ∧ n.prev = some p ∧
      n.status.isFailed = false ∧ n.chainWork = addWork parent.chainWork sub.header.work := by
  have hplace : parentPlace sub.header p = some p := if_neg (h.previous_ne_zero hzero)
  refine ⟨_, get?_push_size _ _ _, header_pushed h.get?_parent h.hash_parent, ?_, ?_, ?_⟩
  · rw [Node.prev_linked, hplace]
  · rw [Node.status_linked]
    exact isFailed_freshNode _
  · rw [hplace, Option.bind_some, h.get?_parent]
    rfl

/-- Behind the tip, a node of more work takes the tip, and the chain goes on with it. -/
theorem updateTip_of_behind_tip (wf : s.index.WellFormed) (hfollows : s.chain.Follows s.index (some p))
    {n : Node} (hparent : s.index.get? p = some parent) (hn : s.index.get? id = some n)
    (hprev : n.prev = some p) (hfailed : n.status.isFailed = false)
    (hlt : parent.chainWork < n.chainWork) :
    (s.updateTip id).1 = { s with chain := ⟨s.chain.ids.push id⟩ } := by
  have himproves : s.improves n = true :=
    (improves_iff (hfollows.tip?_eq wf hparent) hparent hfailed).2 hlt
  rw [updateTip_fst, hn, Option.any_some, if_pos himproves]
  exact congrArg (fun chain => { s with chain })
    ((hfollows.setTip wf (some id)).unique (hfollows.push wf hn hprev))

/-- A submission adds a node behind a parent, and the work of its header, at least one, to the work
of the parent. -/
structure AddsBehind (s s' : ChainState) (sub : Submission) (id : Nat) (n : Node) (p : Nat)
    (parent : Node) : Prop where
  get?_node : s'.index.get? id = some n
  header_eq : s'.index.header n = sub.header
  prev_eq : n.prev = some p
  get?_parent : s.index.get? p = some parent
  hash_parent : parent.hash = sub.header.previous
  one_le_work : 1 ≤ sub.header.work
  chainWork_eq : n.chainWork = addWork parent.chainWork sub.header.work

theorem AddsBehind.chainWork_lt {n : Node} (h : s.AddsBehind s' sub id n p parent)
    (hfits : parent.chainWork + sub.header.work < 2 ^ 256) : parent.chainWork < n.chainWork := by
  have hone := h.one_le_work
  rw [h.chainWork_eq, addWork_of_lt hfits]
  omega

/-- What a new header does that is accepted: its work is added to that of its parent, and if 256
bits hold the sum, a header behind the tip takes the tip. -/
theorem Coherent.advance (hs : s.Coherent) (hzero : s.index.contains .zero = false)
    (hnew : s.index.lookup? sub.header.hash = none) (hok : s.submit sub = .ok (s', id)) :
    ∃ n p parent, s.AddsBehind s' sub id n p parent ∧
      (parent.chainWork + sub.header.work < 2 ^ 256 → parent.chainWork < n.chainWork ∧
        (s.tip? = some p → s'.tip? = some id ∧ s'.chain.ids = s.chain.ids.push id)) := by
  obtain ⟨p, parent, hconnects, rfl, rfl⟩ := exists_connects_of_submit hnew hok
  obtain ⟨n, hn, hheader, hprev, hfailed, hwork⟩ := hconnects.exists_node hzero
  have hparent := hconnects.get?_parent
  have hadds : s.AddsBehind ((s.extended sub.header p).updateTip s.index.size).1 sub s.index.size n
      p parent := by
    constructor
    case get?_node => rwa [index_updateTip]
    case header_eq => rwa [index_updateTip]
    case prev_eq => exact hprev
    case get?_parent => exact hparent
    case hash_parent => exact hconnects.hash_parent
    case one_le_work => exact hconnects.accepts.one_le_work
    case chainWork_eq => exact hwork
  refine ⟨n, p, parent, hadds, fun hfits => ⟨hadds.chainWork_lt hfits, fun htip => ?_⟩⟩
  obtain ⟨tip, hheavy, hfollows⟩ := hs.active
  obtain rfl : tip = p := Option.some.inj ((hs.tip?_eq hfollows hheavy).symm.trans htip)
  -- The new node leaves the path to the tip as it was.
  have hext : Extends s.index (s.extended sub.header tip).index := extends_push s.index _ _
  have wf : (s.extended sub.header tip).index.WellFormed :=
    hs.wellFormed.push hconnects.unknown hconnects.parentPlace_lt
  have hkept : (s.extended sub.header tip).chain.Follows (s.extended sub.header tip).index
      (some tip) :=
    hfollows.of_extends hs.wellFormed wf hext hparent
  rw [updateTip_of_behind_tip wf hkept (hext tip parent hparent) hn hprev hfailed
    (hadds.chainWork_lt hfits)]
  exact ⟨Array.back?_push, rfl⟩

/-! ## Runs -/

/-- If no header has the zero hash, each new header that is accepted after a run adds its work, at
least one, to the work of its parent. If the sum is less than `2 ^ 256`, the chain of the new block
has more work than that of its parent, and if the parent was the tip, the new block is the tip, and
the active chain has become longer by this one block. -/
theorem advance_of_run (params : Params) (subs : List Submission)
    (hzero : ∀ hash ∈ params.genesis.hash :: subs.map fun sub => sub.header.hash, hash ≠ .zero)
    {sub : Submission} {s' : ChainState} {id : Nat}
    (hnew : ((start params).run subs).index.lookup? sub.header.hash = none)
    (hok : ((start params).run subs).submit sub = .ok (s', id)) :
    let s := (start params).run subs
    ∃ n p parent, s.AddsBehind s' sub id n p parent ∧
      (parent.chainWork + sub.header.work < 2 ^ 256 → parent.chainWork < n.chainWork ∧
        (s.tip? = some p → s'.tip? = some id ∧ s'.chain.ids = s.chain.ids.push id)) := by
  by_cases hgenesis : params.genesis.previous = .zero
  · exact (coherent_run hgenesis subs).advance (not_contains_zero_of_run hgenesis hzero) hnew hok
  · -- Without a first block, no header has a parent.
    obtain ⟨p, parent, hconnects, -, -⟩ := exists_connects_of_submit hnew hok
    have hparent := hconnects.get?_parent
    rw [run_of_previous_ne_zero hgenesis, start_of_previous_ne_zero hgenesis] at hparent
    cases hparent

/-- A block behind the tip of the test network takes the tip. -/
theorem advance_of_run_third :
    let s := (start Network.regtest.params).run [second 0]
    (∀ hash ∈ Network.regtest.params.genesis.hash :: [second 0].map fun sub => sub.header.hash,
      hash ≠ .zero) ∧
      s.index.lookup? third.header.hash = none ∧ s.tip? = some 1 ∧
      ∃ s', s.submit third = .ok (s', 2) ∧ s'.tip? = some 2 ∧
        s'.chain.ids = s.chain.ids.push 2 := by
  intro s
  have hzero : ∀ hash ∈ Network.regtest.params.genesis.hash ::
      [second 0].map fun sub => sub.header.hash, hash ≠ .zero := by
    decide +kernel
  have hstate : s.index.lookup? third.header.hash = none ∧ s.tip? = some 1 ∧
      (s.submit third).toOption.map Prod.snd = some 2 ∧
      (∀ node ∈ s.index.nodes, node.chainWork + third.header.work < 2 ^ 256) ∧
      s.index.lookup? third.header.previous = some 1 := by
    decide +kernel
  obtain ⟨hnew, htip, hplace, hfits, hprevious⟩ := hstate
  refine ⟨hzero, hnew, htip, ?_⟩
  cases hsubmit : s.submit third with
  | error rejection =>
    rw [hsubmit] at hplace
    cases hplace
  | ok result =>
    obtain ⟨s', id⟩ := result
    rw [hsubmit] at hplace
    cases hplace
    obtain ⟨n, p, parent, hadds, hadvance⟩ :=
      advance_of_run Network.regtest.params [second 0] hzero hnew hsubmit
    have wf : s.index.WellFormed := (coherent_run rfl [second 0]).wellFormed
    have hlookup := wf.lookup?_eq_some_iff.2 ⟨parent, hadds.get?_parent, hadds.hash_parent⟩
    cases hlookup.symm.trans hprevious
    exact ⟨s', rfl, (hadvance (hfits parent (Array.mem_of_getElem? hadds.get?_parent))).2 htip⟩

end ChainState

end MergedWork
