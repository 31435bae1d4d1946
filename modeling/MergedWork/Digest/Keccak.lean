import MergedWork.Digest

/-!
# Keccak-256

The sponge over the Keccak permutation on 25 lanes of 64 bits, with a rate of 136 bytes and the
padding that starts with the byte `0x01`.
-/

namespace MergedWork.Keccak

/-- Lane `x + 5 y` stands in column `x` of row `y`. -/
abbrev State := Vector UInt64 25

/-- How far each lane is rotated. -/
def rotations : Vector UInt64 25 :=
  #v[0, 1, 62, 28, 27, 36, 44, 6, 55, 20, 3, 10, 43, 25, 39, 41, 45, 15, 21, 8, 18, 2, 61, 56, 14]

/-- One constant for each round. -/
def constants : List UInt64 :=
  [0x0000000000000001, 0x0000000000008082, 0x800000000000808a, 0x8000000080008000,
   0x000000000000808b, 0x0000000080000001, 0x8000000080008081, 0x8000000000008009,
   0x000000000000008a, 0x0000000000000088, 0x0000000080008009, 0x000000008000000a,
   0x000000008000808b, 0x800000000000008b, 0x8000000000008089, 0x8000000000008003,
   0x8000000000008002, 0x8000000000000080, 0x000000000000800a, 0x800000008000000a,
   0x8000000080008081, 0x8000000000008080, 0x0000000080000001, 0x8000000080008008]

/-- Rotation to the left by `n` places, for `n < 64`. -/
def rotateLeft (x n : UInt64) : UInt64 := if n = 0 then x else (x <<< n) ||| (x >>> (64 - n))

/-- The lane in column `x` of row `y`, both counted modulo five. -/
def lane (s : State) (x y : Nat) : UInt64 := s[x % 5 + 5 * (y % 5)]

/-- The state with the given lane in column `x` of row `y`. -/
def build (f : (x y : Nat) → UInt64) : State := .ofFn fun i => f (i % 5) (i / 5)

/-- Mixes into each lane the parities of two columns. -/
def mixColumns (s : State) : State :=
  let parity : Vector UInt64 5 := .ofFn fun x =>
    lane s x 0 ^^^ lane s x 1 ^^^ lane s x 2 ^^^ lane s x 3 ^^^ lane s x 4
  let effect : Vector UInt64 5 := .ofFn fun x =>
    parity[(x.val + 4) % 5] ^^^ rotateLeft parity[(x.val + 1) % 5] 1
  build fun x y => lane s x y ^^^ effect[x % 5]

/-- Rotates the lanes and moves them to their new places. -/
def moveLanes (s : State) : State :=
  build fun x y => rotateLeft (lane s (x + 3 * y) x) (lane rotations (x + 3 * y) x)

/-- Combines each lane with its two neighbours in the row. -/
def mixRows (s : State) : State :=
  build fun x y => lane s x y ^^^ (~~~(lane s (x + 1) y) &&& lane s (x + 2) y)

/-- One round with its constant. -/
def round (s : State) (k : UInt64) : State :=
  let t := mixRows (moveLanes (mixColumns s))
  t.set 0 (t[0] ^^^ k)

/-- The permutation. -/
def permute (s : State) : State := constants.foldl round s

/-- The number of bytes absorbed at a time. -/
def rate : Nat := 136

/-- The message, filled up to a multiple of the rate. -/
def pad (message : Bytes) : Bytes :=
  match rate - message.length % rate with
  | 1 => message ++ [0x81]
  | n => message ++ 0x01 :: (List.replicate (n - 2) 0 ++ [0x80])

/-- Absorbs one block of `rate` bytes. -/
def absorb (s : State) (block : Bytes) : State :=
  let input := ((Bytes.pieces 8 17 block).map fun bs => (Bytes.toNat bs).toUInt64).toArray
  permute (.ofFn fun i => s[i] ^^^ input.getD i 0)

/-- The eight bytes of a lane. -/
def laneBytes (w : UInt64) : Bytes := Bytes.ofNat 8 w.toNat

/-- The hash of a message. -/
def hash (message : Bytes) : Digest :=
  let padded := pad message
  let s := (Bytes.pieces rate (padded.length / rate) padded).foldl absorb (.replicate 25 0)
  ⟨laneBytes s[0] ++ laneBytes s[1] ++ laneBytes s[2] ++ laneBytes s[3], by simp [laneBytes]⟩

end MergedWork.Keccak

namespace MergedWork

/-- The Keccak hash of 256 bits. -/
def keccak256 (message : Bytes) : Digest := Keccak.hash message

end MergedWork
