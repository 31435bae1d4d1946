import MergedWork.Proofs.BlockIndex.Table
import MergedWork.Proofs.ChainState.Events

/-!
# A state that is changed in place

A state may keep a table of its hashes and be changed step by step, by programs that read and write
it (`Update`). What such a program has changed when it meets a rejection, it has changed: nothing
takes it back. The programs do what the functions on states do (`exists_after`), and that of
accepting a header is all or nothing (`accept_of_possible`): where it refuses a header, it has changed
nothing yet, and a new header that it accepts adds one node, and at most moves the tip there.
-/

namespace MergedWork

/-- A state with a table of the places of its hashes. -/
structure TabledState extends ChainState where
  table : Std.HashMap Digest Nat

/-- A program that changes a state as it goes. A rejection keeps the changes that were made before
it. There is no result at all if the program reads a place that does not exist, or if the slots of
the chain come out wrong. -/
abbrev Update (α : Type) := ExceptT Rejection (StateT TabledState Option) α

namespace Update

variable {α β : Type} {t t' : TabledState}

/-- The result of a program, and the state that it leaves behind. -/
def exec (u : Update α) (t : TabledState) : Option (Except Rejection α × TabledState) :=
  StateT.run (ExceptT.run u) t

@[simp] theorem exec_pure (a : α) : exec (pure a) t = some (.ok a, t) := rfl

@[simp] theorem exec_throw (rejection : Rejection) :
    exec (throw rejection : Update α) t = some (.error rejection, t) := rfl

@[simp] theorem exec_get : exec get t = some (.ok t, t) := rfl

@[simp] theorem exec_modify (f : TabledState → TabledState) :
    exec (modify f) t = some (.ok ⟨⟩, f t) := rfl

@[simp] theorem exec_liftOption (a : Option α) :
    exec (liftM a : Update α) t = a.map fun a => (.ok a, t) := by cases a <;> rfl

@[simp] theorem exec_liftExcept (a : Except Rejection α) :
    exec (liftM a : Update α) t = some (a, t) := rfl

theorem exec_bind (u : Update α) (f : α → Update β) :
    exec (u >>= f) t = (exec u t).bind fun result =>
      match result with
      | (.ok a, t') => exec (f a) t'
      | (.error rejection, t') => some (.error rejection, t') := by
  simp only [exec, bind, ExceptT.bind, ExceptT.mk, StateT.bind, StateT.run, ExceptT.run]
  cases u t with
  | none => rfl
  | some result => cases result with | mk r t' => cases r <;> rfl

/-! ## The programs -/

open BlockIndex (freshNode)

/-- The node at a place. -/
def node (id : Nat) : Update Node := do
  let t ← get
  (t.index.get? id : Option Node)

/-- The place of a hash, from the table. -/
def lookup (hash : Digest) : Update (Option Nat) := do
  let t ← get
  return t.table[hash]?

/-- Enters a node in the table, and adds it behind its parent. -/
def push (n : Node) (prev : Option Nat) : Update Nat := do
  let t ← get
  let id := t.index.size
  modify fun t => { t with table := t.table.insert n.hash id }
  modify fun t => { t with index := (t.index.push n prev).1 }
  return id

/-- Adds a header, as `BlockIndex.insert` does. -/
def insert (h : Header) : Update Nat := do
  match ← lookup h.hash with
  | some id => return id
  | none =>
    if h.previous = .zero then push (freshNode h) none
    else
      match ← lookup h.previous with
      | none => throw (.unknownParent h.previous)
      | some prev => push (freshNode h) (some prev)

/-- Moves the tip in its slots. -/
def setTip (id : Nat) : Update (Option Nat) := do
  let t ← get
  let (chain, fork) ← (t.chain.setTipInPlace? t.index id : Option (ActiveChain × Option Nat))
  modify fun t => { t with chain }
  return fork

/-- Moves the tip to a node if that has more work. -/
def updateTip (id : Nat) : Update (Option Nat) := do
  let t ← get
  let n ← node id
  let better ← match t.chain.tip? with
    | none => pure true
    | some tip => do
      let old ← node tip
      pure (decide (old.chainWork < n.chainWork))
  if better && !n.status.isFailed then setTip id else return none

/-- Connects a header, as `ChainState.connect` does. -/
def connect (h : Header) : Update Nat := do
  match ← lookup h.previous with
  | none => throw (.unknownParent h.previous)
  | some p =>
    let t ← get
    let parent ← node p
    if parent.status.isFailed then throw (.failedParent h.previous)
    t.params.checkpoints.check (parent.height + 1) h.hash
    let id ← insert h
    let _ ← updateTip id
    return id

/-- Accepts a header, as `ChainState.accept` does. -/
def accept (sub : Submission) : Update Nat := do
  match ← lookup sub.header.hash with
  | some id => return id
  | none =>
    let t ← get
    (t.params.checkHeader sub.engine sub.header sub.proof).value
    connect sub.header

/-! ## What the programs do -/

open BlockIndex ActiveChain

variable {h : Header} {sub : Submission} {id p : Nat} {n parent : Node} {prev : Option Nat}
  {hash : Digest}

theorem exec_lookup : exec (lookup hash) t = some (.ok t.table[hash]?, t) := rfl

theorem exec_node (hn : t.index.get? id = some n) : exec (node id) t = some (.ok n, t) := by
  simp [node, exec_bind, hn]

/-- The state with a node behind a place. -/
def pushed (t : TabledState) (n : Node) (prev : Option Nat) : TabledState :=
  { t with index := (t.index.push n prev).1, table := t.table.insert n.hash t.index.size }

theorem exec_push : exec (push n prev) t = some (.ok t.index.size, pushed t n prev) := rfl

/-- A new header is added behind the block that it names. -/
theorem exec_insert (hnew : t.table[h.hash]? = none) (hp : t.table[h.previous]? = some p) :
    exec (insert h) t = some (.ok t.index.size, pushed t (freshNode h) (parentPlace h p)) := by
  rw [insert, exec_bind, exec_lookup, hnew, parentPlace]
  simp only [Option.bind_some]
  split_ifs
  · exact exec_push
  · rw [exec_bind, exec_lookup, hp]
    exact exec_push

/-- A new header that names no block starts a tree. -/
theorem exec_insert_root (hnew : t.table[h.hash]? = none) (hzero : h.previous = .zero) :
    exec (insert h) t = some (.ok t.index.size, pushed t (freshNode h) none) := by
  rw [insert, exec_bind, exec_lookup, hnew]
  simp only [Option.bind_some, if_pos hzero]
  exact exec_push

/-- A new header that names an unknown block is refused. -/
theorem exec_insert_unknown (hnew : t.table[h.hash]? = none) (hzero : h.previous ≠ .zero)
    (hno : t.table[h.previous]? = none) :
    exec (insert h) t = some (.error (.unknownParent h.previous), t) := by
  rw [insert, exec_bind, exec_lookup, hnew]
  simp only [Option.bind_some, if_neg hzero]
  rw [exec_bind, exec_lookup, hno]
  rfl

theorem exec_setTip (hsound : Sound t.index t.chain t.tip?) (hn : t.index.get? id = some n) :
    exec (setTip id) t =
      some (.ok (t.chain.setTip t.index (some id)).2,
        { t with chain := (t.chain.setTip t.index (some id)).1 }) := by
  rw [setTip]
  simp only [exec_bind, exec_get, exec_liftOption, exec_modify, exec_pure, Option.bind_some,
    hsound.follows.setTipInPlace?_eq hsound.wellFormed hn, Option.map_some]

theorem exec_updateTip (hsound : Sound t.index t.chain t.tip?) (hn : t.index.get? id = some n) :
    exec (updateTip id) t =
      some (.ok (t.toChainState.updateTip id).2,
        { t with chain := (t.toChainState.updateTip id).1.chain }) := by
  have himproves : (t.index.get? id).any t.improves = t.improves n := by rw [hn, Option.any_some]
  rw [updateTip, ChainState.updateTip, himproves, ChainState.improves, ChainState.tipNode?,
    ChainState.tip?, Bool.and_comm]
  simp only [exec_bind, exec_get, exec_node hn, Option.bind_some]
  cases htip : t.chain.tip? with
  | none =>
    simp only [exec_bind, exec_pure, Option.bind_some, Option.bind_none, Option.all_none,
      Bool.true_and]
    split_ifs
    · exact exec_setTip hsound hn
    · rfl
  | some tip =>
    obtain ⟨old, hold⟩ := get?_of_lt_size (hsound.known tip htip)
    simp only [exec_bind, exec_node hold, exec_pure, Option.bind_some, hold, Option.all_some]
    split_ifs
    · exact exec_setTip hsound hn
    · rfl

/-! ## Accepting a header -/

/-- The table knows the places of the hashes, and the chain is the path to its tip. -/
structure Intact (t : TabledState) : Prop where
  getElem?_table : ∀ hash, t.table[hash]? = t.index.lookup? hash
  sound : Sound t.index t.chain t.tip?

theorem Intact.agrees (ht : Intact t) : (TabledIndex.mk t.index t.table).Agrees :=
  ⟨ht.sound.wellFormed, ht.getElem?_table⟩

theorem intact_setTip (ht : Intact t) (hid : id < t.index.size) :
    Intact { t with chain := (t.chain.setTip t.index (some id)).1 } where
  getElem?_table := ht.getElem?_table
  sound := Sound.self (ht.sound.setTip fun new hnew => by cases hnew; exact hid)

theorem intact_updateTip (ht : Intact t) (hid : id < t.index.size) :
    Intact { t with chain := (t.toChainState.updateTip id).1.chain } := by
  rw [ChainState.updateTip_fst]
  split_ifs
  · exact intact_setTip ht hid
  · exact ht

theorem intact_pushed (ht : Intact t) (hnew : t.index.lookup? h.hash = none)
    (hprev : ∀ p, prev = some p → p < t.index.size)
    (happly : (t.index.push (freshNode h) prev).1 = t.index.apply (.insert h)) :
    Intact (pushed t (freshNode h) prev) where
  getElem?_table := (ht.agrees.push (n := freshNode h) hnew hprev).getElem?_table
  sound := by
    rw [Update.pushed, happly]
    exact ht.sound.apply (.insert h)

theorem Intact.pushed_of_connects (ht : Intact t) (hconnects : t.Connects sub p parent) :
    Intact (pushed t (freshNode sub.header) (parentPlace sub.header p)) := by
  refine intact_pushed ht hconnects.unknown hconnects.parentPlace_lt ?_
  rw [BlockIndex.apply, insert_of_lookup? hconnects.unknown hconnects.lookup?_previous]

/-- The state after a header was connected: its node is added, and the tip may have moved. -/
def connected (t : TabledState) (h : Header) (p : Nat) : TabledState :=
  { pushed t (freshNode h) (parentPlace h p) with
    chain := ((t.extended h p).updateTip t.index.size).1.chain }

theorem updateTip_eq (s : ChainState) (id : Nat) :
    (s.updateTip id).1 = { s with chain := (s.updateTip id).1.chain } := by
  rw [ChainState.updateTip_fst]
  split_ifs <;> rfl

theorem toChainState_connected (t : TabledState) (h : Header) (p : Nat) :
    (connected t h p).toChainState = ((t.extended h p).updateTip t.index.size).1 :=
  (updateTip_eq (t.extended h p) t.index.size).symm

theorem Intact.exec_connect_of_connects (ht : Intact t) (hconnects : t.Connects sub p parent) :
    exec (connect sub.header) t = some (.ok t.index.size, connected t sub.header p) := by
  have hnew : t.table[sub.header.hash]? = none := (ht.getElem?_table _).trans hconnects.unknown
  have hp : t.table[sub.header.previous]? = some p :=
    (ht.getElem?_table _).trans hconnects.lookup?_previous
  have hnode : (pushed t (freshNode sub.header) (parentPlace sub.header p)).index.get?
      t.index.size = some _ := get?_push_size _ _ _
  -- The table has not changed since the parent was found, so that `insert` finds it as well and
  -- cannot refuse the header: every rejection comes before the first change.
  rw [connect, exec_bind, exec_lookup, hp]
  simp only [exec_bind, exec_get, exec_liftExcept, exec_pure, Option.bind_some,
    exec_node hconnects.get?_parent, hconnects.unfailed, hconnects.allowed, Bool.false_eq_true,
    if_false, exec_insert hnew hp, exec_updateTip (ht.pushed_of_connects hconnects).sound hnode]
  rfl

/-- A new header whose work is right is connected, or it is refused and nothing has been changed. -/
theorem Intact.exec_connect_cases (ht : Intact t) (hnew : t.index.lookup? sub.header.hash = none)
    (haccepts : t.params.Accepts sub.engine sub.header sub.proof) :
    (∃ rejection, exec (connect sub.header) t = some (.error rejection, t) ∧
      t.toChainState.connect sub.header = .error rejection) ∨
    ∃ p parent, t.Connects sub p parent ∧
      exec (connect sub.header) t = some (.ok t.index.size, connected t sub.header p) ∧
      t.toChainState.connect sub.header =
        .ok ((connected t sub.header p).toChainState, t.index.size) := by
  cases hp : t.index.lookup? sub.header.previous with
  | none =>
    refine Or.inl ⟨.unknownParent sub.header.previous, ?_, ?_⟩
    · rw [connect, exec_bind, exec_lookup, ht.getElem?_table, hp]
      rfl
    · rw [ChainState.connect, node?, hp]
      rfl
  | some p =>
    obtain ⟨parent, hparent, -⟩ := hash_of_lookup? hp
    have hplain := ChainState.connect_eq_of_lookup? (s := t.toChainState) hnew hp hparent
    have hexec : exec (lookup sub.header.previous) t = some (.ok (some p), t) := by
      rw [exec_lookup, ht.getElem?_table, hp]
    cases hfailed : parent.status.isFailed with
    | true =>
      refine Or.inl ⟨.failedParent sub.header.previous, ?_, by rw [hplain, hfailed]; rfl⟩
      rw [connect, exec_bind, hexec]
      simp only [exec_bind, exec_get, exec_throw, Option.bind_some, exec_node hparent, hfailed,
        if_true]
    | false =>
      rw [hfailed] at hplain
      cases hcheck : t.params.checkpoints.check (parent.height + 1) sub.header.hash with
      | error rejection =>
        refine Or.inl ⟨rejection, ?_, by rw [hplain, hcheck]; rfl⟩
        rw [connect, exec_bind, hexec]
        simp only [exec_bind, exec_get, exec_liftExcept, exec_pure, Option.bind_some,
          exec_node hparent, hfailed, Bool.false_eq_true, if_false, hcheck]
      | ok _ =>
        have hconnects : t.Connects sub p parent := ⟨hnew, haccepts, hp, hparent, hfailed, hcheck⟩
        refine Or.inr ⟨p, parent, hconnects, ht.exec_connect_of_connects hconnects, ?_⟩
        rw [hplain, hcheck, toChainState_connected]
        rfl

/-- A header is refused, or it is known already, and nothing has been changed. Otherwise it was
connected. -/
theorem Intact.exec_accept_cases (ht : Intact t) (sub : Submission) :
    (∃ rejection, t.index.lookup? sub.header.hash = none ∧
      exec (accept sub) t = some (.error rejection, t) ∧ t.submit sub = .error rejection) ∨
    (∃ id, exec (accept sub) t = some (.ok id, t) ∧ t.index.lookup? sub.header.hash = some id ∧
      t.submit sub = .ok (t.toChainState, id)) ∨
    ∃ p parent, t.Connects sub p parent ∧
      exec (accept sub) t = some (.ok t.index.size, connected t sub.header p) ∧
      t.submit sub = .ok ((connected t sub.header p).toChainState, t.index.size) := by
  cases hfind : t.index.lookup? sub.header.hash with
  | some id =>
    refine Or.inr (Or.inl ⟨id, ?_, rfl, ?_⟩)
    · rw [accept, exec_bind, exec_lookup, ht.getElem?_table, hfind]
      rfl
    · rw [ChainState.submit, ChainState.accept, hfind]
      rfl
  | none =>
    have hexec : exec (accept sub) t = exec (do
        (t.params.checkHeader sub.engine sub.header sub.proof).value
        connect sub.header) t := by
      rw [accept, exec_bind, exec_lookup, ht.getElem?_table, hfind]
      rfl
    have hsubmit : t.submit sub = (do
        (t.params.checkHeader sub.engine sub.header sub.proof).value
        t.toChainState.connect sub.header) := by
      rw [ChainState.submit, ChainState.accept, hfind]
      rfl
    cases hwork : (t.params.checkHeader sub.engine sub.header sub.proof).value with
    | error rejection =>
      rw [hwork] at hexec hsubmit
      exact Or.inl ⟨rejection, rfl, hexec, hsubmit⟩
    | ok _ =>
      rw [hwork] at hexec hsubmit
      rcases ht.exec_connect_cases hfind (Params.checkHeader_eq_ok_iff.1 hwork) with
        ⟨rejection, hrefused, hplain⟩ | ⟨p, parent, hconnects, hconnected, hplain⟩
      · exact Or.inl ⟨rejection, rfl, hexec.trans hrefused, hsubmit.trans hplain⟩
      · exact Or.inr (Or.inr
          ⟨p, parent, hconnects, hexec.trans hconnected, hsubmit.trans hplain⟩)

theorem intact_connected (ht : Intact t) (h : t.Connects sub p parent) :
    Intact (connected t sub.header p) := by
  refine intact_updateTip (ht.pushed_of_connects h) ?_
  exact lt_size_of_get? (get?_push_size _ _ _)

end Update

namespace TabledState

open BlockIndex ActiveChain Update
open ChainState (second third)

variable {t : TabledState} {params : Params} {events : List Event} {sub : Submission}

/-! ## Everything that can happen, in place -/

/-- The state that knows the first block only. -/
def start (params : Params) : Option TabledState :=
  let first : Update (Option Nat) := do
    let id ← insert params.genesis
    setTip id
  (exec first ⟨⟨.empty params.forkRule, .empty, params⟩, ∅⟩).map Prod.snd

/-- The state after an event. -/
def step (t : TabledState) : Event → Option TabledState
  | .submit sub => (exec (accept sub) t).map Prod.snd
  | .updateTip id => (exec (updateTip id) t).map Prod.snd
  | .setTip id => (exec (setTip id) t).map Prod.snd
  | .note id note => some { t with index := t.index.apply (note.change id) }

/-- The state after events, of which the last comes first. -/
def after (params : Params) : List Event → Option TabledState
  | [] => start params
  | e :: events => (after params events).bind fun t => t.step e

theorem exists_start (params : Params) :
    ∃ t, start params = some t ∧ Intact t ∧ t.toChainState = ChainState.start params := by
  have hempty : Intact ⟨⟨.empty params.forkRule, .empty, params⟩, ∅⟩ :=
    ⟨(TabledIndex.agrees_empty params.forkRule).getElem?_table,
      ⟨wellFormed_empty params.forkRule, (fun id hid => by cases hid), follows_empty _⟩⟩
  have hnew : (∅ : Std.HashMap Digest Nat)[params.genesis.hash]? = none :=
    Std.HashMap.getElem?_empty
  by_cases hzero : params.genesis.previous = .zero
  · have happly : ((BlockIndex.empty params.forkRule).push (freshNode params.genesis) none).1 =
        (BlockIndex.empty params.forkRule).apply (.insert params.genesis) := by
      simp only [BlockIndex.apply, BlockIndex.insert, lookup?_empty, hzero, if_true]
      rfl
    have hpushed := intact_pushed hempty (lookup?_empty _ _) (fun p hp => by cases hp) happly
    have hnode := get?_push_size (BlockIndex.empty params.forkRule) (freshNode params.genesis) none
    refine ⟨_, ?_, intact_setTip hpushed (lt_size_of_get? hnode), ?_⟩
    · rw [start, exec_bind, exec_insert_root hnew hzero]
      simp only [Option.bind_some]
      rw [exec_setTip hpushed.sound hnode]
      rfl
    · rw [ChainState.start_eq hzero]
      rfl
  · refine ⟨_, ?_, hempty, ?_⟩
    · rw [start, exec_bind, exec_insert_unknown hnew hzero Std.HashMap.getElem?_empty]
      rfl
    · rw [ChainState.start_of_previous_ne_zero hzero]

theorem exists_step (ht : Intact t) (e : Event) (hplace : ∀ id ∈ e.place?, id < t.index.size) :
    ∃ t', t.step e = some t' ∧ Intact t' ∧ t'.toChainState = t.toChainState.step e := by
  cases e with
  | submit sub =>
    rw [step, ChainState.step, ChainState.next]
    rcases ht.exec_accept_cases sub with
      ⟨rejection, -, hexec, hsubmit⟩ | ⟨id, hexec, -, hsubmit⟩ |
        ⟨p, parent, hconnects, hexec, hsubmit⟩
    · exact ⟨t, by rw [hexec]; rfl, ht, by rw [hsubmit]⟩
    · exact ⟨t, by rw [hexec]; rfl, ht, by rw [hsubmit]⟩
    · exact ⟨_, by rw [hexec]; rfl, intact_connected ht hconnects, by rw [hsubmit]⟩
  | updateTip id =>
    obtain ⟨n, hn⟩ := get?_of_lt_size (hplace id rfl)
    refine ⟨_, ?_, intact_updateTip ht (hplace id rfl), (updateTip_eq t.toChainState id).symm⟩
    rw [step, exec_updateTip ht.sound hn]
    rfl
  | setTip id =>
    obtain ⟨n, hn⟩ := get?_of_lt_size (hplace id rfl)
    refine ⟨_, ?_, intact_setTip ht (hplace id rfl), rfl⟩
    rw [step, exec_setTip ht.sound hn]
    rfl
  | note id note =>
    refine ⟨_, rfl, ⟨fun hash => ?_, ht.sound.apply (note.change id)⟩, rfl⟩
    rw [ht.sound.wellFormed.lookup?_of_sameTree (sameTree_note t.index id note)]
    exact ht.getElem?_table hash

/-- In place, all possible events have a result, which is the state that they give without a
table. -/
theorem exists_after (h : ChainState.Possible params events) :
    ∃ t, after params events = some t ∧ Intact t ∧
      t.toChainState = ChainState.after params events := by
  induction events with
  | nil => exact exists_start params
  | cons e events ih =>
    obtain ⟨t, hafter, ht, heq⟩ := ih h.2
    have hplace : ∀ id ∈ e.place?, id < t.index.size := by
      rw [heq]
      exact h.1
    obtain ⟨t', hstep, ht', heq'⟩ := exists_step ht e hplace
    refine ⟨t', by rw [after, hafter, Option.bind_some, hstep], ht', ?_⟩
    rw [heq', heq]
    rfl

/-! ## All or nothing -/

/-- There is no tip, or a node has more work than the tip. -/
def Outweighs (t : TabledState) (n : Node) : Prop :=
  t.tip? = none ∨
    ∃ tip old, t.tip? = some tip ∧ t.index.get? tip = some old ∧ old.chainWork < n.chainWork

/-- A state has one node more than another, for a header, and if that outweighs the tip, it is the
new tip. -/
structure Adds (t : TabledState) (h : Header) (id : Nat) (n : Node) (t' : TabledState) : Prop where
  id_eq : id = t.index.size
  rule_eq : t'.index.rule = t.index.rule
  nodes_eq : t'.index.nodes = t.index.nodes.push n
  header_eq : t'.index.header n = h
  getElem?_table : ∀ hash, t'.table[hash]? = if h.hash = hash then some id else t.table[hash]?
  lookup?_eq : ∀ hash, t'.index.lookup? hash = t'.table[hash]?
  params_eq : t'.params = t.params
  follows_iff : t'.chain.Follows t'.index (some id) ↔ t.Outweighs n
  kept : ¬t.Outweighs n → t'.chain = t.chain

variable {h : Header} {p : Nat} {n parent : Node}

theorem improves_extended_iff (ht : Intact t) (hunfailed : n.status.isFailed = false) :
    (t.extended h p).improves n = true ↔ t.Outweighs n := by
  have htip : (t.extended h p).tip? = t.tip? := rfl
  rw [ChainState.improves, hunfailed, ChainState.tipNode?, htip, Outweighs]
  cases hold : t.tip? with
  | none => simp
  | some tip =>
    obtain ⟨old, hget⟩ := get?_of_lt_size (ht.sound.known tip hold)
    have hget' : (t.extended h p).index.get? tip = some old := extends_push _ _ _ tip old hget
    simp [hget, hget']

/-- A header that is connected adds its node. -/
theorem adds_connected (ht : Intact t) (hconnects : t.Connects sub p parent) :
    ∃ n, t.Adds sub.header t.index.size n (connected t sub.header p) := by
  have ht' := intact_connected ht hconnects
  have hget := get?_push_size t.index (freshNode sub.header) (parentPlace sub.header p)
  set n := (freshNode sub.header).linked t.index.size (parentPlace sub.header p)
    ((parentPlace sub.header p).bind t.index.get?) with hn
  have hunfailed : n.status.isFailed = false := by
    rw [hn, Node.status_linked, isFailed_freshNode]
  have hchain : (connected t sub.header p).chain = if (t.extended sub.header p).improves n then
      (t.chain.setTip (connected t sub.header p).index (some t.index.size)).1 else t.chain := by
    have hany : ((t.extended sub.header p).index.get? t.index.size).any
        (t.extended sub.header p).improves = (t.extended sub.header p).improves n := by
      rw [ChainState.extended, hget, Option.any_some]
    rw [connected, ChainState.updateTip_fst, hany]
    split_ifs <;> rfl
  refine ⟨n, rfl, rfl, rfl, header_pushed hconnects.get?_parent hconnects.hash_parent,
    fun hash => ?_, fun hash => (ht'.getElem?_table hash).symm, rfl, ?_, fun hlight => ?_⟩
  · change (t.table.insert sub.header.hash t.index.size)[hash]? = _
    rw [Std.HashMap.getElem?_insert]
    simp only [beq_iff_eq]
  · rw [← improves_extended_iff (h := sub.header) (p := p) ht hunfailed, hchain]
    split_ifs with himproves
    · exact iff_of_true ((ht.pushed_of_connects hconnects).sound.follows.setTip
        ht'.sound.wellFormed _) himproves
    · -- The chain that was kept ends at an old node.
      refine iff_of_false (fun hfollows => ?_) himproves
      have hknown := ht.sound.known t.index.size (hfollows.tip?_eq ht'.sound.wellFormed hget)
      exact absurd hknown (Nat.lt_irrefl _)
  · rw [hchain, if_neg]
    rwa [improves_extended_iff ht hunfailed]

/-- Accepting a header is all or nothing, in each state that events lead to. Where it ends with a
rejection, or the header is known, the state is as it was; otherwise one node has been added, and the
active chain is the path to it if it outweighs the tip, and as it was if not. The verdict and the
state left behind are those that are found without changing anything in place. -/
theorem accept_of_possible (h : ChainState.Possible params events) (sub : Submission) :
    ∃ t result t', after params events = some t ∧
      t.toChainState = ChainState.after params events ∧
      (∀ hash, t.table[hash]? = t.index.lookup? hash) ∧
      exec (accept sub) t = some (result, t') ∧
      result = ((ChainState.after params events).submit sub).map Prod.snd ∧
      t'.toChainState = (ChainState.after params events).next sub ∧
      (∀ rejection, result = .error rejection → t' = t) ∧
      (∀ id, t.index.lookup? sub.header.hash = some id → result = .ok id ∧ t' = t) ∧
      ∀ id, result = .ok id → t.index.lookup? sub.header.hash = none →
        ∃ n, t.Adds sub.header id n t' := by
  obtain ⟨t, hafter, ht, heq⟩ := exists_after h
  rw [← heq, ChainState.next]
  rcases ht.exec_accept_cases sub with
    ⟨rejection, hunknown, hexec, hsubmit⟩ | ⟨id, hexec, hknown, hsubmit⟩ |
      ⟨p, parent, hconnects, hexec, hsubmit⟩
  · refine ⟨t, _, t, hafter, rfl, ht.getElem?_table, hexec, ?_, ?_, fun _ _ => rfl, ?_, ?_⟩
    · rw [hsubmit]
      rfl
    · rw [hsubmit]
    · intro id hid
      rw [hunknown] at hid
      cases hid
    · intro id hid
      cases hid
  · refine ⟨t, _, t, hafter, rfl, ht.getElem?_table, hexec, ?_, ?_, fun _ _ => rfl, ?_, ?_⟩
    · rw [hsubmit]
      rfl
    · rw [hsubmit]
    · intro id' hid'
      rw [hknown] at hid'
      cases hid'
      exact ⟨rfl, rfl⟩
    · intro _ _ hunknown
      rw [hknown] at hunknown
      cases hunknown
  · refine ⟨t, _, _, hafter, rfl, ht.getElem?_table, hexec, ?_, ?_, ?_, ?_, ?_⟩
    · rw [hsubmit]
      rfl
    · rw [hsubmit]
    · intro rejection hrejection
      cases hrejection
    · intro id hid
      rw [hconnects.unknown] at hid
      cases hid
    · intro id hid _
      cases hid
      exact adds_connected ht hconnects

/-- The first block has failed, as the tip. -/
def failedOnce : List Event := [.note 1 .markFailed, .submit (second 0)]

/-- A second block adds its node, and one behind the first is refused and changes nothing. -/
theorem accept_of_possible_failedOnce :
    ChainState.Possible Network.regtest.params failedOnce ∧
      ∃ t, after Network.regtest.params failedOnce = some t ∧
        (∃ n t', exec (accept (second 1)) t = some (.ok 2, t') ∧
          t.Adds (second 1).header 2 n t') ∧
        exec (accept third) t = some (.error (.failedParent third.header.previous), t) := by
  have hstate : ChainState.Possible Network.regtest.params failedOnce ∧
      (ChainState.after Network.regtest.params failedOnce).index.lookup?
        (second 1).header.hash = none ∧
      (((ChainState.after Network.regtest.params failedOnce).submit (second 1)).map Prod.snd) =
        .ok 2 ∧
      (((ChainState.after Network.regtest.params failedOnce).submit third).map Prod.snd) =
        .error (.failedParent third.header.previous) := by
    decide +kernel
  obtain ⟨hpossible, hunknown, hsecond, hthird⟩ := hstate
  obtain ⟨t, result, t', hafter, heq, -, hexec, hresult, -, -, -, hadds⟩ :=
    accept_of_possible hpossible (second 1)
  obtain ⟨t₂, result₂, t₂', hafter₂, -, -, hexec₂, hresult₂, -, hrefused, -⟩ :=
    accept_of_possible hpossible third
  obtain rfl : t = t₂ := Option.some.inj (hafter.symm.trans hafter₂)
  rw [hsecond] at hresult
  rw [hthird] at hresult₂
  rw [hresult] at hexec
  rw [hrefused _ hresult₂, hresult₂] at hexec₂
  rw [← heq] at hunknown
  obtain ⟨n, hn⟩ := hadds 2 hresult hunknown
  exact ⟨hpossible, t, hafter, ⟨n, t', hexec, hn⟩, hexec₂⟩

end TabledState

end MergedWork
