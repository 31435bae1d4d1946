import MergedWork.Proofs.BlockIndex.Failure

/-!
# Where blocks are stored

A node keeps one offset for its block, another for the data that undo the block, and a single file
for both. So each of the two is read back at the offset that was recorded last for it, but in the
file that was recorded last for either (`position_of_run`). Both are where they were recorded as
long as all files that were named for the node are the same; otherwise, what is recorded of the one
moves the other (`undo_moves_block`).
-/

namespace MergedWork

/-! ## What is stored -/

/-- What is stored of a block: the block itself, or the data that undo it. -/
inductive Payload
  | block
  | undo
  deriving DecidableEq

/-- The flag that says that the payload is stored. -/
def Payload.flag : Payload → UInt32
  | block => Status.haveData
  | undo => Status.haveUndo

/-- The same offset in a file. -/
def DiskPos.inFile (file : Int) (pos : DiskPos) : DiskPos := { pos with file }

/-- What an operation records of the node at a place. -/
def Change.stores? (id : Nat) : Change → Option (Payload × DiskPos)
  | .setBlockData i _ pos => if i = id then some (.block, pos) else none
  | .setUndoData i pos => if i = id then some (.undo, pos) else none
  | _ => none

/-- The operation names nodes of an index of the given size, and adds none but by its header. -/
def Change.Proper (size : Nat) : Change → Prop
  | .insert _ => True
  | .insertLoaded _ _ => False
  | .raiseValidity id _ | .markFailed id | .setBlockData id _ _ | .setUndoData id _
  | .setMoneySupply id _ => id < size

instance (size : Nat) (change : Change) : Decidable (change.Proper size) := by
  cases change <;> unfold Change.Proper <;> infer_instance

/-! ## Flags -/

namespace Status

variable {flags level : UInt32}

theorem has_raise (h : flags &&& levelMask = 0) (s : Status) (level : UInt32) :
    (s.raise level).has flags = s.has flags := by
  rw [has, raise_and_of_and_eq_zero h, has]

theorem has_flag_raise (s : Status) (level : UInt32) (payload : Payload) :
    (s.raise level).has payload.flag = s.has payload.flag :=
  has_raise (by cases payload <;> decide) s level

theorem has_flag_set (s : Status) (kind payload : Payload) :
    (s.set kind.flag).has payload.flag = (s.has payload.flag || decide (payload = kind)) := by
  rw [has_set]
  cases kind <;> cases payload <;> rfl

theorem has_flag_set_of_and_eq_zero {payload : Payload} (h : flags &&& payload.flag = 0)
    (s : Status) : (s.set flags).has payload.flag = s.has payload.flag := by
  simp [has_set, h]

end Status

namespace Node

variable {n m : Node} {kind payload : Payload} {pos : DiskPos}

/-- Where a payload of a node is stored, if it is. -/
def pos? (n : Node) : Payload → Option DiskPos
  | .block => n.blockPos?
  | .undo => n.undoPos?

/-- Where a payload stands in its file. -/
def offset (n : Node) : Payload → Nat
  | .block => n.dataOffset
  | .undo => n.undoOffset

theorem pos?_eq (n : Node) (payload : Payload) :
    n.pos? payload =
      if n.status.has payload.flag then some ⟨n.file, n.offset payload⟩ else none := by
  cases payload <;> rfl

/-- A node in which one payload is recorded in place of what was known of it. -/
structure Records (kind : Payload) (pos : DiskPos) (n m : Node) : Prop where
  file : m.file = pos.file
  offset : ∀ payload, m.offset payload = if payload = kind then pos.offset else n.offset payload
  flag : ∀ payload,
    m.status.has payload.flag = (n.status.has payload.flag || decide (payload = kind))

/-- What is recorded is read back, and the other payload moves to its file. -/
theorem Records.pos?_eq (h : Records kind pos n m) (payload : Payload) :
    m.pos? payload =
      if payload = kind then some pos else (n.pos? payload).map (DiskPos.inFile pos.file) := by
  rw [Node.pos?_eq, Node.pos?_eq, h.flag, h.offset, h.file]
  by_cases hkind : payload = kind
  · simp only [hkind, decide_true, Bool.or_true, if_true]
  · simp only [hkind, decide_false, Bool.or_false, if_false]
    split_ifs <;> rfl

theorem pos?_status {status : Status} (n : Node)
    (h : status.has payload.flag = n.status.has payload.flag) :
    { n with status }.pos? payload = n.pos? payload := by
  rw [pos?_eq, pos?_eq, h]
  cases payload <;> rfl

end Node

namespace BlockIndex

variable {ix : BlockIndex} {id i : Nat} {n : Node} {f : Node → Node} {change : Change}
  {before history : List Change} {kind payload : Payload} {pos : DiskPos}

/-! ## One operation -/

/-- Where a payload of the node at a place is stored, if it is. -/
def pos? (ix : BlockIndex) (id : Nat) (payload : Payload) : Option DiskPos :=
  (ix.get? id).bind fun n => n.pos? payload

theorem pos?_of_get? (hn : ix.get? id = some n) (payload : Payload) :
    ix.pos? id payload = n.pos? payload := by
  rw [pos?, hn, Option.bind_some]

theorem pos?_of_size_le (h : ix.size ≤ id) (payload : Payload) : ix.pos? id payload = none := by
  rw [pos?, get?, Array.getElem?_eq_none h, Option.bind_none]

theorem pos?_modify (hf : i = id → ∀ n, (f n).pos? payload = n.pos? payload) :
    (ix.modify i f).pos? id payload = ix.pos? id payload := by
  rw [pos?, pos?, get?_modify]
  split_ifs with hi
  · rw [Option.bind_map]
    exact congrArg (Option.bind (ix.get? id)) (funext (hf hi))
  · rfl

theorem pos?_setStatus {flags : UInt32} (h : flags &&& payload.flag = 0) (ix : BlockIndex)
    (i : Nat) : (ix.setStatus i flags).pos? id payload = ix.pos? id payload :=
  pos?_modify fun _ n => n.pos?_status (Status.has_flag_set_of_and_eq_zero h n.status)

theorem pos?_markFailed (ix : BlockIndex) (i : Nat) :
    (ix.markFailed i).pos? id payload = ix.pos? id payload := by
  have hvalid : Status.failedValid &&& payload.flag = 0 := by cases payload <;> decide
  have hchild : Status.failedChild &&& payload.flag = 0 := by cases payload <;> decide
  have hspread : ∀ (places : List Nat) (ix : BlockIndex),
      (places.foldl spreadFailure ix).pos? id payload = ix.pos? id payload := by
    intro places
    induction places with
    | nil => exact fun _ => rfl
    | cons k places ih =>
      intro ix
      refine (ih _).trans ?_
      unfold spreadFailure
      split_ifs
      · exact pos?_setStatus hchild ix k
      · rfl
  exact (hspread _ _).trans (pos?_setStatus hvalid ix i)

/-- Nothing is stored yet of a new header. -/
theorem pos?_push_freshNode (ix : BlockIndex) (h : Header) (prev : Option Nat) :
    (ix.push (freshNode h) prev).1.pos? id payload = ix.pos? id payload := by
  have hnone : (freshNode h).status.has payload.flag = false := by
    change (Status.unknown.raise Status.validTree).has payload.flag = false
    cases payload <;> decide
  by_cases hid : id = ix.size
  · rw [pos?_of_size_le (Nat.le_of_eq hid.symm), hid, pos?_of_get? (get?_push_size ix _ prev),
      Node.pos?_eq, Node.status_linked, hnone]
    rfl
  · rw [pos?, get?_push, if_neg hid, pos?]

/-- An operation that records nothing of a node leaves its payloads where they are. -/
theorem pos?_apply_of_stores?_eq_none (hproper : change.Proper ix.size)
    (h : change.stores? id = none) :
    (ix.apply change).pos? id payload = ix.pos? id payload := by
  cases change with
  | insert header =>
    rw [apply]
    cases hinsert : ix.insert header with
    | error rejection => rfl
    | ok added =>
      obtain ⟨ix', added⟩ := added
      rcases insert_eq_ok_cases hinsert with ⟨-, rfl⟩ | ⟨-, -, ⟨-, rfl⟩ | ⟨p, -, -, rfl⟩⟩
      · rfl
      · exact pos?_push_freshNode ix header none
      · exact pos?_push_freshNode ix header (some p)
  | insertLoaded node previous => exact hproper.elim
  | raiseValidity i level =>
    exact pos?_modify fun _ n => n.pos?_status (n.status.has_flag_raise level payload)
  | markFailed i => exact pos?_markFailed ix i
  | setBlockData i txCount pos | setUndoData i pos =>
    refine pos?_modify fun hi => ?_
    rw [Change.stores?, if_pos hi] at h
    cases h
  | setMoneySupply i supply =>
    refine pos?_modify fun _ n => ?_
    cases payload <;> rfl

/-- What an operation records of a node is read back, and the other payload moves to its file. -/
theorem pos?_apply_of_stores?_eq_some (hproper : change.Proper ix.size)
    (h : change.stores? id = some (kind, pos)) :
    (ix.apply change).pos? id payload =
      if payload = kind then some pos else (ix.pos? id payload).map (DiskPos.inFile pos.file) := by
  have hrecords : ∃ n m, ix.get? id = some n ∧ (ix.apply change).get? id = some m ∧
      n.Records kind pos m := by
    cases change with
    | setBlockData i txCount pos' =>
      rw [Change.stores?] at h
      split_ifs at h with hi
      subst hi
      cases h
      obtain ⟨n, hn⟩ := get?_of_lt_size hproper
      refine ⟨n, _, hn, by rw [apply, setBlockData, get?_modify, if_pos rfl, hn, Option.map_some], ?_⟩
      constructor
      case file => rfl
      case offset => intro payload; cases payload <;> rfl
      case flag =>
        intro payload
        rw [Status.has_flag_raise]
        exact n.status.has_flag_set .block payload
    | setUndoData i pos' =>
      rw [Change.stores?] at h
      split_ifs at h with hi
      subst hi
      cases h
      obtain ⟨n, hn⟩ := get?_of_lt_size hproper
      refine ⟨n, _, hn, by rw [apply, setUndoData, get?_modify, if_pos rfl, hn, Option.map_some], ?_⟩
      constructor
      case file => rfl
      case offset => intro payload; cases payload <;> rfl
      case flag => exact n.status.has_flag_set .undo
    | _ => cases h
  obtain ⟨n, m, hn, hm, hrecords⟩ := hrecords
  rw [pos?_of_get? hm, pos?_of_get? hn, hrecords.pos?_eq]

/-! ## What was recorded last -/

/-- What the operations of a history record of the node at a place, oldest first. -/
def stores (id : Nat) (history : List Change) : List (Payload × DiskPos) :=
  history.filterMap (Change.stores? id)

/-- Where a payload was recorded last. -/
def latest? (payload : Payload) (stores : List (Payload × DiskPos)) : Option DiskPos :=
  (stores.reverse.find? fun s => s.1 = payload).map Prod.snd

/-- The file that was named last, for either payload. -/
def latestFile? (stores : List (Payload × DiskPos)) : Option Int :=
  stores.getLast?.map fun s => s.2.file

/-- Where a payload was recorded last, but in the file that was named last. -/
def position? (payload : Payload) (stores : List (Payload × DiskPos)) : Option DiskPos :=
  (latest? payload stores).map fun pos => pos.inFile ((latestFile? stores).getD pos.file)

theorem latest?_concat (payload kind : Payload) (pos : DiskPos) (log : List (Payload × DiskPos)) :
    latest? payload (log ++ [(kind, pos)]) =
      if payload = kind then some pos else latest? payload log := by
  rw [latest?, List.reverse_concat, List.find?_cons]
  by_cases hkind : payload = kind
  · simp [hkind]
  · simp [hkind, Ne.symm hkind, latest?]

theorem position?_concat (payload kind : Payload) (pos : DiskPos)
    (log : List (Payload × DiskPos)) :
    position? payload (log ++ [(kind, pos)]) =
      if payload = kind then some pos
      else (position? payload log).map (DiskPos.inFile pos.file) := by
  rw [position?, latest?_concat, latestFile?, List.getLast?_concat]
  split_ifs
  · rfl
  · rw [position?, Option.map_map]
    rfl

/-- As long as one file is named for a node, its payloads are where they were recorded. -/
theorem position?_eq_latest? {log : List (Payload × DiskPos)}
    (h : ∀ s ∈ log, ∀ t ∈ log, s.2.file = t.2.file) (payload : Payload) :
    position? payload log = latest? payload log := by
  rw [position?, latest?]
  cases hfind : log.reverse.find? fun s => s.1 = payload with
  | none => rfl
  | some s =>
    have hs : s ∈ log := List.mem_reverse.1 (List.mem_of_find?_eq_some hfind)
    have hfile : (latestFile? log).getD s.2.file = s.2.file := by
      rw [latestFile?]
      cases hlast : log.getLast? with
      | none => rfl
      | some t => exact h t (List.mem_of_getLast? hlast) s hs
    rw [Option.map_some, Option.map_some, hfile]
    rfl

/-! ## Histories -/

/-- Each operation of a history names nodes that are in the index by then, and adds none but by its
header. -/
def ProperHistory (ix : BlockIndex) : List Change → Prop
  | [] => True
  | change :: history => change.Proper ix.size ∧ ProperHistory (ix.apply change) history

instance decidableProperHistory :
    (ix : BlockIndex) → (history : List Change) → Decidable (ProperHistory ix history)
  | _, [] => inferInstanceAs (Decidable True)
  | ix, change :: history =>
    have := decidableProperHistory (ix.apply change) history
    inferInstanceAs (Decidable (change.Proper ix.size ∧ ProperHistory (ix.apply change) history))

theorem lt_of_stores?_eq_some {size : Nat} {s : Payload × DiskPos} (hproper : change.Proper size)
    (h : change.stores? id = some s) : id < size := by
  cases change with
  | setBlockData i _ _ | setUndoData i _ =>
    rw [Change.stores?] at h
    split_ifs at h with hi
    exact hi ▸ hproper
  | _ => cases h

theorem stores_concat (id : Nat) (history : List Change) (change : Change) :
    stores id (history ++ [change]) = stores id history ++ (change.stores? id).toList := by
  rw [stores, List.filterMap_append, stores]
  cases hstores : change.stores? id <;> simp [hstores]

/-- The payloads of all nodes are where a history says. It says nothing of nodes that are not
there. -/
structure Located (ix : BlockIndex) (history : List Change) : Prop where
  pos?_eq : ∀ id payload, ix.pos? id payload = position? payload (stores id history)
  unknown : ∀ id, ix.size ≤ id → stores id history = []

theorem Located.apply (h : Located ix before) (hproper : change.Proper ix.size) :
    Located (ix.apply change) (before ++ [change]) where
  pos?_eq id payload := by
    rw [stores_concat]
    cases hstores : change.stores? id with
    | none =>
      rw [Option.toList_none, List.append_nil, pos?_apply_of_stores?_eq_none hproper hstores,
        h.pos?_eq]
    | some s =>
      obtain ⟨kind, pos⟩ := s
      rw [Option.toList_some, position?_concat, pos?_apply_of_stores?_eq_some hproper hstores,
        h.pos?_eq]
  unknown id hid := by
    have hold : ix.size ≤ id := Nat.le_of_not_lt fun hlt =>
      absurd (lt_size_apply hlt change) (Nat.not_lt.2 hid)
    have hnone : change.stores? id = none := Option.eq_none_iff_forall_not_mem.2 fun s hs =>
      absurd (lt_of_stores?_eq_some hproper hs) (Nat.not_lt.2 hold)
    rw [stores_concat, h.unknown id hold, hnone]
    rfl

theorem Located.run (h : Located ix before) (hproper : ProperHistory ix history) :
    Located (ix.run history) (before ++ history) := by
  induction history generalizing ix before with
  | nil => rwa [List.append_nil]
  | cons change history ih =>
    rw [List.append_cons]
    exact ih (h.apply hproper.1) hproper.2

/-- Each payload of a node is at the offset that was recorded last for it, in the file that was
recorded last for either, and nowhere if nothing was recorded for it. So both are where they were
recorded as long as one file was named for the node. -/
theorem position_of_run (rule : ForkRule) (history : List Change)
    (hproper : ProperHistory (empty rule) history) {id : Nat} {n : Node}
    (hn : ((empty rule).run history).get? id = some n) (payload : Payload) :
    n.pos? payload = position? payload (stores id history) ∧
      ((∀ s ∈ stores id history, ∀ t ∈ stores id history, s.2.file = t.2.file) →
        n.pos? payload = latest? payload (stores id history)) := by
  have hempty : Located (empty rule) [] := ⟨fun _ _ => rfl, fun _ _ => rfl⟩
  have hpos : n.pos? payload = position? payload (stores id history) := by
    rw [← pos?_of_get? hn, (hempty.run hproper).pos?_eq, List.nil_append]
  exact ⟨hpos, fun hfile => hpos.trans (position?_eq_latest? hfile payload)⟩

/-- A block is stored twice, and its undo data in between. -/
def storedTwice : List Change :=
  [.insert Network.regtest.params.genesis, .setBlockData 0 1 ⟨0, 8⟩, .setUndoData 0 ⟨1, 16⟩,
    .raiseValidity 0 5, .setBlockData 0 1 ⟨2, 300⟩]

theorem position_of_run_storedTwice :
    ProperHistory (empty .standard) storedTwice ∧
      ∃ n, ((empty .standard).run storedTwice).get? 0 = some n ∧
        n.pos? .block = some ⟨2, 300⟩ ∧ n.pos? .undo = some ⟨2, 16⟩ := by
  have hstate : ProperHistory (empty .standard) storedTwice ∧
      (((empty .standard).run storedTwice).get? 0).isSome = true := by
    decide +kernel
  obtain ⟨hproper, hknown⟩ := hstate
  obtain ⟨n, hn⟩ := Option.isSome_iff_exists.1 hknown
  have hpos := fun payload => (position_of_run .standard storedTwice hproper hn payload).1
  exact ⟨hproper, n, hn, hpos .block, hpos .undo⟩

/-- The block was recorded in the first file, and only its undo data in the second, where the block
is looked for then. -/
theorem undo_moves_block :
    let history : List Change :=
      [.insert Network.regtest.params.genesis, .setBlockData 0 1 ⟨0, 8⟩, .setUndoData 0 ⟨1, 16⟩]
    ProperHistory (empty .standard) history ∧
      latest? .block (stores 0 history) = some ⟨0, 8⟩ ∧
      (((empty .standard).run history).get? 0).map (fun n => n.pos? .block) =
        some (some ⟨1, 8⟩) := by
  decide +kernel

end BlockIndex

end MergedWork
