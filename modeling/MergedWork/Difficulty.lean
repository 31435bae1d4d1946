import MergedWork.Target

/-!
# Difficulty

A target as a multiple of the easiest target of size 29, in binary floating point. The size is
accounted for by one multiplication or division for each byte.
-/

namespace MergedWork.Compact

/-- The size at which difficulty is counted in units. -/
def unitSize : Nat := 29

/-- The difficulty of a target; zero for a word without digits. Here the sign bit counts as part
of the mantissa. -/
def difficulty (c : Compact) : Float :=
  let digits := c.word.toNat % 0x1000000
  if digits = 0 then 0
  else
    let ratio := (65535 : Float) / Float.ofNat digits
    if c.size ≤ unitSize then Nat.repeat (· * 256) (unitSize - c.size) ratio
    else Nat.repeat (· / 256) (c.size - unitSize) ratio

/-- The difficulty, scaled by the weight of the algorithm. -/
def weightedDifficulty (c : Compact) (algorithm : Algorithm) : Float :=
  c.difficulty * Float.ofNat algorithm.weight

end MergedWork.Compact
