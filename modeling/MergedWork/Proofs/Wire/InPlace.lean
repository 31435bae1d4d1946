import MergedWork.Proofs.Wire.Spellings

/-!
# Reading in place

A reader may leave its bytes where they are, and move a cursor over them. Then it counts the bytes
behind the cursor, cuts slices out, and copies them to places of a fixed size; if the cursor is out
of range, or the sizes differ, this goes wrong, and there is no result (`InPlace`).

`p.Tracks r` says that the reader `p` has a result wherever it starts within the bytes, that it finds
there what `r` finds in the bytes behind the cursor, and that it moves the cursor forward and not
beyond the end (`Cursor.Moves`). This holds of sequences and loops of such readers, with an error or
without. A read of fixed size moves the cursor by just this size, or not at all (`Cursor.Takes`).
-/

namespace MergedWork

/-- A byte string, and how much of it has been read. -/
structure Cursor where
  data : Bytes
  pos : Nat
  deriving DecidableEq

namespace Cursor

variable {α β : Type} {c c' c'' : Cursor} {result : Except DecodeError α} {e : DecodeError} {n : Nat}

/-- Before anything is read. -/
def start (data : Bytes) : Cursor := ⟨data, 0⟩

/-- The cursor is not beyond the end. -/
abbrev InBounds (c : Cursor) : Prop := c.pos ≤ c.data.length

/-- The bytes behind the cursor. -/
def rest (c : Cursor) : Bytes := c.data.drop c.pos

/-- The cursor behind the next `n` bytes. -/
def advance (c : Cursor) (n : Nat) : Cursor := { c with pos := c.pos + n }

theorem length_rest (c : Cursor) : c.rest.length = c.data.length - c.pos := List.length_drop

theorem rest_advance (c : Cursor) (n : Nat) : (c.advance n).rest = c.rest.drop n :=
  List.drop_drop.symm

/-- How the cursor moves while something is read. If the bytes end too early, the error tells how
many there were where the cursor stopped, which is not enough. -/
structure Moves (c : Cursor) (result : Except DecodeError α) (c' : Cursor) : Prop where
  data_eq : c'.data = c.data
  pos_le : c.pos ≤ c'.pos
  inBounds : c'.InBounds
  endsEarly : ∀ needed remaining, result = .error (.unexpectedEnd needed remaining) →
    remaining < needed ∧ c'.pos + remaining = c'.data.length

/-- How the cursor moves while `n` bytes are read. -/
inductive Takes (n : Nat) (c : Cursor) : (result : Except DecodeError α) → (c' : Cursor) → Prop
  | all (a : α) (hle : c.pos + n ≤ c.data.length) : Takes n c (.ok a) (c.advance n)
  | nothing (hlt : c.data.length < c.pos + n) :
    Takes n c (.error (.unexpectedEnd n (c.data.length - c.pos))) c

theorem InBounds.moves (h : c.InBounds)
    (hresult : ∀ needed remaining, result ≠ .error (.unexpectedEnd needed remaining)) :
    c.Moves result c :=
  ⟨rfl, Nat.le_refl _, h, fun needed remaining heq => absurd heq (hresult needed remaining)⟩

theorem Moves.trans {a : β} (h : c.Moves (.ok a) c') (h' : c'.Moves result c'') :
    c.Moves result c'' where
  data_eq := h'.data_eq.trans h.data_eq
  pos_le := Nat.le_trans h.pos_le h'.pos_le
  inBounds := h'.inBounds
  endsEarly := h'.endsEarly

theorem Moves.error (h : c.Moves (.error e : Except DecodeError α) c') :
    c.Moves (.error e : Except DecodeError β) c' where
  data_eq := h.data_eq
  pos_le := h.pos_le
  inBounds := h.inBounds
  endsEarly needed remaining heq := h.endsEarly needed remaining (by cases heq; rfl)

theorem Takes.moves (h : c.Takes n result c') (hc : c.InBounds) : c.Moves result c' := by
  cases h with
  | all a hle => exact ⟨rfl, Nat.le_add_right _ _, hle, nofun⟩
  | nothing hlt =>
    refine ⟨rfl, Nat.le_refl _, hc, fun needed remaining heq => ?_⟩
    cases heq
    omega

theorem Takes.map (h : c.Takes n result c') (f : α → β) : c.Takes n (result.map f) c' := by
  cases h with
  | all a hle => exact .all (f a) hle
  | nothing hlt => exact .nothing hlt

end Cursor

/-- Reads behind a cursor and moves it, also up to an error. There is no result if an access goes
wrong. -/
def InPlace (α : Type) : Type := Cursor → Option (Except DecodeError α × Cursor)

namespace InPlace

variable {α β : Type} {p : InPlace α} {r : Reader α} {f : α → InPlace β} {g : α → Reader β}
  {c c' : Cursor} {n : Nat}

/-- The result and the cursor behind it, if all accesses go well. -/
def run (p : InPlace α) (c : Cursor) : Option (Except DecodeError α × Cursor) := p c

/-- Stops with an error. -/
def fail (e : DecodeError) : InPlace α := fun c => some (.error e, c)

/-- An access that goes wrong. -/
def fault : InPlace α := fun _ => none

instance : Monad InPlace where
  pure a := fun c => some (.ok a, c)
  bind p f := fun c =>
    match p c with
    | some (.ok a, c) => f a c
    | some (.error e, c) => some (.error e, c)
    | none => none

theorem run_bind (p : InPlace α) (f : α → InPlace β) (c : Cursor) :
    (p >>= f).run c =
      match p.run c with
      | some (.ok a, c) => (f a).run c
      | some (.error e, c) => some (.error e, c)
      | none => none :=
  rfl

/-! ## Accesses -/

/-- The number of bytes behind the cursor, which may not be beyond the end. -/
def remaining : InPlace Nat := fun c =>
  if c.pos ≤ c.data.length then some (.ok (c.data.length - c.pos), c) else none

/-- The slice of the next `n` bytes, all of which have to be there. -/
def slice (n : Nat) : InPlace Bytes := fun c =>
  if c.pos + n ≤ c.data.length then some (.ok ((c.data.take (c.pos + n)).drop c.pos), c.advance n)
  else none

/-- The next `n` bytes. -/
def bytes (n : Nat) : InPlace Bytes := do
  let left ← remaining
  if left < n then fail (.unexpectedEnd n left) else slice n

/-- The next `n` bytes, copied to a place that holds just as many. -/
def array (n : Nat) : InPlace { bs : Bytes // bs.length = n } := do
  let bs ← bytes n
  if h : bs.length = n then return ⟨bs, h⟩ else fault

theorem run_remaining (h : c.InBounds) :
    remaining.run c = some (.ok (c.data.length - c.pos), c) :=
  if_pos h

theorem run_bytes_of_le (hle : c.pos + n ≤ c.data.length) :
    (bytes n).run c = some (.ok (c.rest.take n), c.advance n) := by
  have hc : c.InBounds := Nat.le_trans (Nat.le_add_right _ _) hle
  have hleft : ¬ c.data.length - c.pos < n := by omega
  have hslice : (c.data.take (c.pos + n)).drop c.pos = c.rest.take n := by
    rw [List.drop_take, Nat.add_sub_cancel_left, Cursor.rest]
  rw [bytes, run_bind, run_remaining hc]
  dsimp only
  rw [if_neg hleft, run, slice, if_pos hle, hslice]

theorem run_bytes_of_lt (hc : c.InBounds) (hlt : c.data.length < c.pos + n) :
    (bytes n).run c = some (.error (.unexpectedEnd n (c.data.length - c.pos)), c) := by
  have hleft : c.data.length - c.pos < n := by omega
  rw [bytes, run_bind, run_remaining hc]
  dsimp only
  rw [if_pos hleft]
  rfl

/-! ## In place and from the front -/

/-- In place, `p` does what `r` does with the bytes behind the cursor, and moves the cursor in the
given way. -/
def Refines (p : InPlace α) (r : Reader α)
    (moves : Cursor → Except DecodeError α → Cursor → Prop) : Prop :=
  ∀ c, c.InBounds → ∃ result c', p.run c = some (result, c') ∧ r.run c.rest = (result, c'.rest) ∧
    moves c result c'

/-- In place, `p` does what `r` does with the bytes behind the cursor. -/
def Tracks (p : InPlace α) (r : Reader α) : Prop := p.Refines r Cursor.Moves

theorem Refines.tracks (h : p.Refines r (Cursor.Takes n)) : p.Tracks r := by
  intro c hc
  obtain ⟨result, c', hrun, hread, htakes⟩ := h c hc
  exact ⟨result, c', hrun, hread, htakes.moves hc⟩

theorem tracks_pure (a : α) : (pure a : InPlace α).Tracks (pure a) :=
  fun c hc => ⟨.ok a, c, rfl, rfl, hc.moves nofun⟩

theorem tracks_fail {e : DecodeError} (he : ∀ needed remaining, e ≠ .unexpectedEnd needed remaining) :
    (fail e : InPlace α).Tracks (Reader.fail e) := by
  intro c hc
  refine ⟨.error e, c, rfl, rfl, hc.moves fun needed remaining heq => ?_⟩
  cases heq
  exact he needed remaining rfl

theorem Tracks.bind (h : p.Tracks r) (hf : ∀ a, (f a).Tracks (g a)) : (p >>= f).Tracks (r >>= g) := by
  intro c hc
  obtain ⟨result, c', hrun, hread, hmoves⟩ := h c hc
  cases result with
  | error e =>
    refine ⟨.error e, c', ?_, ?_, hmoves.error⟩
    · rw [run_bind, hrun]
    · rw [Reader.run_bind, hread]
  | ok a =>
    obtain ⟨result, c'', hrun', hread', hmoves'⟩ := hf a c' hmoves.inBounds
    refine ⟨result, c'', ?_, ?_, hmoves.trans hmoves'⟩
    · rw [run_bind, hrun]
      exact hrun'
    · rw [Reader.run_bind, hread]
      exact hread'

theorem Tracks.map (h : p.Tracks r) (f : α → β) :
    Tracks (do return f (← p)) (do return f (← r)) :=
  h.bind fun _ => tracks_pure _

theorem Refines.map (h : p.Refines r (Cursor.Takes n)) (f : α → β) :
    Refines (do return f (← p)) (do return f (← r)) (Cursor.Takes n) := by
  intro c hc
  obtain ⟨result, c', hrun, hread, htakes⟩ := h c hc
  refine ⟨result.map f, c', ?_, ?_, htakes.map f⟩
  · rw [run_bind, hrun]
    cases result <;> rfl
  · rw [Reader.run_bind, hread]
    cases result <;> rfl

/-! ## Reads of fixed size -/

theorem takes_bytes (n : Nat) : (bytes n).Refines (Reader.bytes n) (Cursor.Takes n) := by
  intro c hc
  have hlength := c.length_rest
  have hread : (Reader.bytes n).run c.rest =
      if n ≤ c.rest.length then (.ok (c.rest.take n), c.rest.drop n)
      else (.error (.unexpectedEnd n c.rest.length), c.rest) := by
    simp only [Reader.run, Reader.bytes, Bytes.hasAtLeast_iff]
  by_cases hle : c.pos + n ≤ c.data.length
  · refine ⟨_, _, run_bytes_of_le hle, ?_, .all _ hle⟩
    rw [hread, if_pos (by omega), c.rest_advance]
  · have hlt := Nat.lt_of_not_le hle
    refine ⟨_, _, run_bytes_of_lt hc hlt, ?_, .nothing hlt⟩
    rw [hread, if_neg (by omega), hlength]

/-- What is copied is what the reader takes from the front, so that the sizes agree. -/
theorem takes_array {f : { bs : Bytes // bs.length = n } → α}
    (hall : ∀ bs rest, r.run (bs.val ++ rest) = (.ok (f bs), rest))
    (hnothing : ∀ input, input.length < n →
      r.run input = (.error (.unexpectedEnd n input.length), input)) :
    Refines (do return f (← array n)) r (Cursor.Takes n) := by
  intro c hc
  have hlength := c.length_rest
  by_cases hle : c.pos + n ≤ c.data.length
  · have htake : (c.rest.take n).length = n := List.length_take_of_le (by omega)
    refine ⟨.ok (f ⟨c.rest.take n, htake⟩), c.advance n, ?_, ?_, .all _ hle⟩
    · rw [run_bind, array, run_bind, run_bytes_of_le hle]
      dsimp only
      rw [dif_pos htake]
      rfl
    · rw [c.rest_advance, ← hall, List.take_append_drop]
  · have hlt := Nat.lt_of_not_le hle
    refine ⟨_, c, ?_, ?_, .nothing hlt⟩
    · rw [run_bind, array, run_bind, run_bytes_of_lt hc hlt]
    · rw [hnothing c.rest (by omega), hlength]

/-- A number of `width` bytes. -/
def number (width : Nat) : InPlace Nat := do return Bytes.toNat (← array width).val

theorem takes_number (width : Nat) :
    (number width).Refines (Reader.number width) (Cursor.Takes width) :=
  takes_array (fun bs rest => Reader.run_number bs.property rest) fun _ => Reader.run_number_of_short

def word8 : InPlace UInt8 := do return UInt8.ofNat (← number 1)

def word16 : InPlace UInt16 := do return UInt16.ofNat (← number 2)

def word32 : InPlace UInt32 := do return UInt32.ofNat (← number 4)

def word64 : InPlace UInt64 := do return UInt64.ofNat (← number 8)

def int32 : InPlace Int32 := do return (← word32).toInt32

def int64 : InPlace Int64 := do return (← word64).toInt64

/-- The digest in the next 32 bytes. -/
def digest : InPlace Digest := do
  let bs ← array 32
  return ⟨bs.val, bs.property⟩

theorem takes_word8 : word8.Refines Reader.word8 (Cursor.Takes 1) := (takes_number 1).map _

theorem takes_word16 : word16.Refines Reader.word16 (Cursor.Takes 2) := (takes_number 2).map _

theorem takes_word32 : word32.Refines Reader.word32 (Cursor.Takes 4) := (takes_number 4).map _

theorem takes_word64 : word64.Refines Reader.word64 (Cursor.Takes 8) := (takes_number 8).map _

theorem takes_int32 : int32.Refines Reader.int32 (Cursor.Takes 4) := takes_word32.map _

theorem takes_int64 : int64.Refines Reader.int64 (Cursor.Takes 8) := takes_word64.map _

theorem takes_digest : digest.Refines Reader.digest (Cursor.Takes 32) := by
  refine takes_array (fun bs rest => ?_) fun input hlt => ?_
  · exact Reader.reads_digest.run_iff.2 ⟨trivial, rfl⟩
  · have htake : (input.take 32).length ≠ 32 := by rw [List.length_take]; omega
    rw [Reader.run, Reader.digest, Digest.ofBytes?, dif_neg htake]

/-! ## Sizes and lists -/

/-- A number of `width` bytes that needs at least the given value to be written so long. -/
def wideSize (width least : Nat) : InPlace Nat := do
  let n ← number width
  if n < least then fail .nonCanonicalSize else return n

/-- A compact size. -/
def compactSize : InPlace Nat := do
  let marker ← number 1
  if marker = 0xfd then wideSize 2 0xfd
  else if marker = 0xfe then wideSize 4 0x10000
  else if marker = 0xff then wideSize 8 0x100000000
  else return marker

/-- A compact size that is used as a length. -/
def length : InPlace Nat := do
  let n ← compactSize
  if Wire.maxLength < n then fail (.oversizedLength n) else return n

/-- A byte string behind its length. -/
def varBytes : InPlace Bytes := do bytes (← length)

/-- The results of `count` reads one after the other. -/
def times (p : InPlace α) : (count : Nat) → InPlace (List α)
  | 0 => pure []
  | count + 1 => do
    let a ← p
    let as ← times p count
    return a :: as

/-- A list behind its length. -/
def counted (p : InPlace α) : InPlace (List α) := do times p (← length)

/-- Digests behind their number. -/
def digests : InPlace (List Digest) := counted digest

theorem tracks_wideSize (width least : Nat) :
    (wideSize width least).Tracks (Reader.wideSize width least) := by
  refine (takes_number width).tracks.bind fun n => ?_
  split_ifs
  · exact tracks_fail nofun
  · exact tracks_pure n

theorem tracks_compactSize : compactSize.Tracks Reader.compactSize := by
  refine (takes_number 1).tracks.bind fun marker => ?_
  split_ifs with hfd hfe hff
  · subst hfd
    exact tracks_wideSize 2 0xfd
  · subst hfe
    exact tracks_wideSize 4 0x10000
  · subst hff
    exact tracks_wideSize 8 0x100000000
  · -- No marker is left for the reader from the front to find.
    split
    · exact absurd rfl hfd
    · exact absurd rfl hfe
    · exact absurd rfl hff
    · exact tracks_pure _

theorem tracks_length : length.Tracks Reader.length := by
  refine tracks_compactSize.bind fun n => ?_
  split_ifs
  · exact tracks_fail nofun
  · exact tracks_pure n

theorem tracks_varBytes : varBytes.Tracks Reader.varBytes :=
  tracks_length.bind fun n => (takes_bytes n).tracks

theorem Tracks.times (h : p.Tracks r) (count : Nat) : (times p count).Tracks (Reader.times r count) := by
  induction count with
  | zero => exact tracks_pure []
  | succ count ih => exact h.bind fun _ => ih.map _

theorem Tracks.counted (h : p.Tracks r) : (counted p).Tracks (Reader.counted r) :=
  tracks_length.bind h.times

theorem tracks_digests : digests.Tracks Reader.digests := takes_digest.tracks.counted

end InPlace

end MergedWork
