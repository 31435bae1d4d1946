import MergedWork.Proofs.Script.Integers

/-!
# Reading pushes

A script that consists of pushes is read push by push (`payloads?`). A push is read from each of
its forms, and from nothing else (`push?_eq_some_iff`). Bytes behind a script that is read do not
change what it pushes, so every push adds its payload behind those that are there, and a script is
read as the pushes that it was built from (`pushes_read_back`).
-/

namespace MergedWork.Script

/-! ## The reader -/

/-- The first bytes, as many as given, and the bytes behind them. -/
def cut? (length : Nat) (bs : Bytes) : Option (Bytes × Bytes) :=
  if length ≤ bs.length then some (bs.splitAt length) else none

/-- A number of the given width, and the bytes behind it. -/
def number? (width : Nat) (bs : Bytes) : Option (Nat × Bytes) := do
  let (digits, rest) ← cut? width bs
  return (Bytes.toNat digits, rest)

/-- How many bytes the first push has, and the script from where they begin. -/
def pushed? : (script : Bytes) → Option (Nat × Bytes)
  | [] => none
  | opcode :: script =>
    if opcode.toNat ≤ 75 then some (opcode.toNat, script)
    else if opcode = 0x4c then number? 1 script
    else if opcode = 0x4d then number? 2 script
    else if opcode = 0x4e then number? 4 script
    else none

/-- The bytes of the first push, and the script behind it. -/
def push? (script : Bytes) : Option (Bytes × Bytes) := do
  let (length, rest) ← pushed? script
  cut? length rest

/-! ## The forms of a push -/

/-- How the number of bytes is written: as the opcode itself, or behind it in one, two or four
bytes. -/
inductive Form
  | direct
  | one
  | two
  | four

/-- The most bytes that can be pushed in a form. -/
def Form.capacity : Form → Nat
  | direct => 75
  | one => 0xff
  | two => 0xffff
  | four => 0xffffffff

/-- The number of bytes behind the opcode that hold the number. -/
def Form.width : Form → Nat
  | direct => 0
  | one => 1
  | two => 2
  | four => 4

/-- What stands before the bytes that are pushed, if there are `n` of them. -/
def Form.head : Form → Nat → Bytes
  | direct, n => [UInt8.ofNat n]
  | one, n => 0x4c :: Bytes.ofNat 1 n
  | two, n => 0x4d :: Bytes.ofNat 2 n
  | four, n => 0x4e :: Bytes.ofNat 4 n

variable {n length width : Nat} {bs taken data rest script : Bytes}

theorem cut?_eq_some_iff :
    cut? length bs = some (taken, rest) ↔ taken.length = length ∧ bs = taken ++ rest := by
  rw [cut?, List.splitAt_eq]
  constructor
  · intro h
    split_ifs at h with hle
    cases h
    exact ⟨List.length_take_of_le hle, (List.take_append_drop _ _).symm⟩
  · rintro ⟨rfl, rfl⟩
    rw [if_pos (by rw [List.length_append]; omega), List.take_left, List.drop_left]

theorem number?_eq_some_iff :
    number? width bs = some (n, rest) ↔ n < 256 ^ width ∧ bs = Bytes.ofNat width n ++ rest := by
  simp only [number?, Option.bind_eq_bind, Option.bind_eq_some_iff, Option.pure_def,
    Option.some.injEq, Prod.exists, Prod.mk.injEq, cut?_eq_some_iff]
  constructor
  · rintro ⟨digits, rest, ⟨rfl, rfl⟩, rfl, rfl⟩
    exact ⟨Bytes.toNat_lt digits, by rw [Bytes.ofNat_toNat]⟩
  · rintro ⟨hn, rfl⟩
    refine ⟨Bytes.ofNat width n, rest, ⟨Bytes.length_ofNat _ _, rfl⟩, ?_, rfl⟩
    rw [Bytes.toNat_ofNat, Nat.mod_eq_of_lt hn]

theorem pushed?_eq_some_iff :
    pushed? script = some (n, rest) ↔
      ∃ form : Form, n ≤ form.capacity ∧ script = form.head n ++ rest := by
  constructor
  · intro h
    cases script with
    | nil => cases h
    | cons opcode script =>
      rw [pushed?] at h
      split_ifs at h with hdirect hone htwo hfour
      · cases h
        exact ⟨.direct, hdirect, by rw [Form.head, UInt8.ofNat_toNat]; rfl⟩
      · obtain ⟨hn, rfl⟩ := number?_eq_some_iff.1 h
        exact ⟨.one, Nat.le_of_lt_succ hn, by rw [hone]; rfl⟩
      · obtain ⟨hn, rfl⟩ := number?_eq_some_iff.1 h
        exact ⟨.two, Nat.le_of_lt_succ hn, by rw [htwo]; rfl⟩
      · obtain ⟨hn, rfl⟩ := number?_eq_some_iff.1 h
        exact ⟨.four, Nat.le_of_lt_succ hn, by rw [hfour]; rfl⟩
  · rintro ⟨form, hn, rfl⟩
    cases form with
    | direct =>
      have hopcode : (UInt8.ofNat n).toNat = n := by
        rw [UInt8.toNat_ofNat']
        exact Nat.mod_eq_of_lt (Nat.lt_of_le_of_lt hn (by decide))
      change pushed? (UInt8.ofNat n :: rest) = _
      rw [pushed?, hopcode]
      exact if_pos hn
    | one => exact number?_eq_some_iff.2 ⟨Nat.lt_succ_of_le hn, rfl⟩
    | two => exact number?_eq_some_iff.2 ⟨Nat.lt_succ_of_le hn, rfl⟩
    | four => exact number?_eq_some_iff.2 ⟨Nat.lt_succ_of_le hn, rfl⟩

/-- A push is read from each of its forms, and from nothing else. -/
theorem push?_eq_some_iff :
    push? script = some (data, rest) ↔
      ∃ form : Form, data.length ≤ form.capacity ∧
        script = form.head data.length ++ (data ++ rest) := by
  simp only [push?, Option.bind_eq_bind, Option.bind_eq_some_iff, Prod.exists, cut?_eq_some_iff,
    pushed?_eq_some_iff]
  constructor
  · rintro ⟨_, _, ⟨form, hfits, rfl⟩, rfl, rfl⟩
    exact ⟨form, hfits, rfl⟩
  · rintro ⟨form, hfits, rfl⟩
    exact ⟨data.length, data ++ rest, ⟨form, hfits, rfl⟩, rfl, rfl⟩

theorem length_head (form : Form) (n : Nat) : (form.head n).length = form.width + 1 := by
  cases form <;> rfl

theorem length_lt_of_push? (h : push? script = some (data, rest)) :
    rest.length < script.length := by
  obtain ⟨form, -, rfl⟩ := push?_eq_some_iff.1 h
  simp only [List.length_append, length_head]
  omega

/-! ## Whole scripts -/

/-- The bytes of all pushes of a script that consists of pushes. -/
def payloads? (script : Bytes) : Option (List Bytes) :=
  match script with
  | [] => some []
  | opcode :: script =>
    match h : push? (opcode :: script) with
    | none => none
    | some (data, rest) =>
      have : rest.length < script.length + 1 := length_lt_of_push? h
      (payloads? rest).map (data :: ·)
termination_by script.length

theorem payloads?_nil : payloads? [] = some [] := by
  rw [payloads?]

theorem payloads?_of_push? (h : push? script = some (data, rest)) :
    payloads? script = (payloads? rest).map (data :: ·) := by
  cases script with
  | nil => cases h
  | cons opcode script =>
    rw [payloads?]
    split
    · next hnone =>
        rw [hnone] at h
        cases h
    · next hsome =>
        rw [hsome] at h
        cases h
        rfl

theorem push?_append (h : push? script = some (data, rest)) (more : Bytes) :
    push? (script ++ more) = some (data, rest ++ more) := by
  obtain ⟨form, hfits, rfl⟩ := push?_eq_some_iff.1 h
  exact push?_eq_some_iff.2 ⟨form, hfits, by simp only [List.append_assoc]⟩

/-- What stands behind a script that is read is read as if it stood alone. -/
theorem payloads?_append {datas : List Bytes} (h : payloads? script = some datas) (more : Bytes) :
    payloads? (script ++ more) = (payloads? more).map (datas ++ ·) := by
  induction script using payloads?.induct generalizing datas with
  | case1 =>
    rw [payloads?_nil] at h
    cases h
    simp
  | case2 opcode script hnone =>
    rw [payloads?] at h
    split at h
    · cases h
    · next hsome =>
        rw [hnone] at hsome
        cases hsome
  | case3 opcode script data rest hpush hlt ih =>
    rw [payloads?_of_push? hpush, Option.map_eq_some_iff] at h
    obtain ⟨datas, hrest, rfl⟩ := h
    rw [payloads?_of_push? (push?_append hpush more), ih hrest, Option.map_map]
    rfl

/-! ## Building -/

/-- The form that is chosen for a number of bytes. -/
def shortest (n : Nat) : Form :=
  if n ≤ 75 then .direct else if n ≤ 0xff then .one else if n ≤ 0xffff then .two else .four

theorem pushBytes_eq (data : Bytes) :
    pushBytes data = (shortest data.length).head data.length ++ data := by
  simp only [pushBytes, shortest]
  split_ifs <;> rfl

theorem le_capacity_shortest (hn : n < 2 ^ 32) : n ≤ (shortest n).capacity := by
  unfold shortest
  split_ifs with hdirect hone htwo
  · exact hdirect
  · exact hone
  · exact htwo
  · exact Nat.le_of_lt_succ hn

/-- No form that has room is shorter than the one that is chosen. -/
theorem length_head_shortest_le {form : Form} (hn : n ≤ form.capacity) :
    ((shortest n).head n).length ≤ (form.head n).length := by
  rw [length_head, length_head]
  refine Nat.succ_le_succ ?_
  unfold shortest
  cases form with
  | direct => exact Nat.le_of_eq (congrArg Form.width (if_pos (show n ≤ 75 from hn)))
  | one =>
    rw [if_pos (show n ≤ 0xff from hn)]
    split_ifs <;> decide
  | two =>
    rw [if_pos (show n ≤ 0xffff from hn)]
    split_ifs <;> decide
  | four => split_ifs <;> decide

theorem payloads?_pushBytes (hdata : data.length < 2 ^ 32) :
    payloads? (pushBytes data) = some [data] := by
  have hpush : push? (pushBytes data) = some (data, []) :=
    push?_eq_some_iff.2 ⟨shortest data.length, le_capacity_shortest hdata, by
      rw [List.append_nil, pushBytes_eq]⟩
  rw [payloads?_of_push? hpush, payloads?_nil]
  rfl

/-- What can be pushed: an integer, or bytes as they are. -/
inductive Push
  | integer (v : Int64)
  | bytes (data : Bytes)

/-- The bytes that are pushed. -/
def Push.payload : Push → Bytes
  | integer v => Script.integer v
  | bytes data => data

/-- A script with a push behind it. -/
def Push.onto (script : Bytes) : Push → Bytes
  | integer v => script ++ pushInteger v
  | bytes data => script ++ pushBytes data

/-- The script of some pushes, the first at its start. -/
def build (pushes : List Push) : Bytes := pushes.foldl Push.onto []

theorem Push.onto_eq (script : Bytes) (p : Push) :
    p.onto script = script ++ pushBytes p.payload := by
  cases p <;> rfl

theorem length_payload_lt {p : Push} (hp : ∀ data, p = .bytes data → data.length < 2 ^ 32) :
    p.payload.length < 2 ^ 32 := by
  cases p with
  | integer v => exact Nat.lt_of_le_of_lt (length_integer_le v) (by decide)
  | bytes data => exact hp data rfl

/-- A push adds its payload behind those of the script. -/
theorem payloads?_onto {datas : List Bytes} {p : Push} (h : payloads? script = some datas)
    (hp : p.payload.length < 2 ^ 32) :
    payloads? (p.onto script) = some (datas ++ [p.payload]) := by
  rw [p.onto_eq, payloads?_append h, payloads?_pushBytes hp]
  rfl

theorem payloads?_foldl {datas : List Bytes} {pushes : List Push}
    (h : payloads? script = some datas) (hpushes : ∀ p ∈ pushes, p.payload.length < 2 ^ 32) :
    payloads? (pushes.foldl Push.onto script) = some (datas ++ pushes.map Push.payload) := by
  induction pushes generalizing script datas with
  | nil => rw [List.foldl_nil, List.map_nil, List.append_nil, h]
  | cons p pushes ih =>
    rw [List.forall_mem_cons] at hpushes
    rw [List.foldl_cons, ih (payloads?_onto h hpushes.1) hpushes.2, List.map_cons,
      List.append_assoc, List.singleton_append]

/-- A script is read as the pushes that it was built from. The payload of an integer is its only
shortest form, and bytes are pushed in the shortest form that has room for them. -/
theorem pushes_read_back :
    (∀ pushes : List Push, (∀ data, .bytes data ∈ pushes → data.length < 2 ^ 32) →
      payloads? (build pushes) = some (pushes.map Push.payload)) ∧
    (∀ v : Int64, toInt (Push.integer v).payload = v.toInt ∧
      ∀ bs, toInt bs = v.toInt → bs ≠ (Push.integer v).payload →
        (Push.integer v).payload.length < bs.length) ∧
    (Push.integer 0).payload = [] ∧
    ∀ data : Bytes, data.length < 2 ^ 32 → ∃ form : Form,
      pushBytes data = form.head data.length ++ data ∧ data.length ≤ form.capacity ∧
        ∀ other : Form, data.length ≤ other.capacity →
          (form.head data.length).length ≤ (other.head data.length).length := by
  refine ⟨fun pushes hpushes => ?_, fun v => ?_, integer_zero, fun data hdata => ?_⟩
  · refine payloads?_foldl payloads?_nil fun p hp => length_payload_lt fun data hdata => ?_
    exact hpushes data (hdata ▸ hp)
  · exact ⟨toInt_integer v, fun _ => length_integer_lt⟩
  · exact ⟨shortest data.length, pushBytes_eq data, le_capacity_shortest hdata,
      fun _ => length_head_shortest_le⟩

/-- Eighty bytes between integers, of which the first has the largest magnitude. -/
theorem pushes_read_back_smallest :
    payloads? (build [.integer Int64.minValue, .bytes (List.replicate 80 7), .integer 0,
        .integer (-1)]) =
      some [[0, 0, 0, 0, 0, 0, 0, 0x80, 0x80], List.replicate 80 7, [], [0x81]] ∧
    (Push.integer (-1)).payload.length < ([1, 0x80] : Bytes).length ∧
    (List.replicate 80 (7 : UInt8)).length < 2 ^ 32 ∧
    ∃ form : Form, pushBytes (List.replicate 80 7) = form.head 80 ++ List.replicate 80 7 ∧
      80 ≤ form.capacity ∧ ∀ other : Form, 80 ≤ other.capacity →
        (form.head 80).length ≤ (other.head 80).length := by
  have hbytes : (List.replicate 80 (7 : UInt8)).length < 2 ^ 32 := by
    rw [List.length_replicate]
    decide
  have hsmallest : integer Int64.minValue = [0, 0, 0, 0, 0, 0, 0, 0x80, 0x80] := by
    decide +kernel
  have hminus : integer (-1) = [0x81] := by
    decide +kernel
  obtain ⟨hread, hintegers, -, hforms⟩ := pushes_read_back
  refine ⟨?_, (hintegers (-1)).2 [1, 0x80] (by decide +kernel) (by decide +kernel), hbytes,
    hforms _ hbytes⟩
  have hpushes : ∀ data,
      .bytes data ∈ [Push.integer Int64.minValue, .bytes (List.replicate 80 7), .integer 0,
        .integer (-1)] → data.length < 2 ^ 32 := by
    simp
  rw [hread _ hpushes]
  simp only [List.map_cons, List.map_nil, Push.payload, hsmallest, hminus, integer_zero]

end MergedWork.Script
