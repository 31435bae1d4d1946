/-!
# Fixed decimal places

A binary floating-point number with a given number of decimal places. The exact value of the
number is rounded, to the nearest decimal, and from the middle between two to the even one.
-/

namespace MergedWork.Decimal

/-- A quotient, rounded to the nearest number, and from the middle to the even one. -/
def roundDiv (num den : Nat) : Nat :=
  let q := num / den
  let twice := 2 * (num % den)
  if twice < den then q
  else if den < twice then q + 1
  else q + q % 2

/-- The text of `n / 10 ^ places`. -/
def pointed (places n : Nat) : String :=
  let unit := Nat.pow 10 places
  let fraction := Nat.toDigits 10 (n % unit)
  String.ofList (Nat.toDigits 10 (n / unit) ++ '.' ::
    (List.replicate (places - fraction.length) '0' ++ fraction))

/-- The text of a number with the given number of places, at least one. -/
def fixed (places : Nat) (x : Float) : String :=
  let bits := x.toBits.toNat
  let sign := if bits >>> 63 = 1 then "-" else ""
  let exponent := (bits >>> 52) % 0x800
  let fraction := bits % (1 <<< 52)
  if exponent = 2047 then if fraction = 0 then sign ++ "inf" else "NaN"
  else
    -- The magnitude is `m * 2 ^ (e - 1075)`.
    let m := if exponent = 0 then fraction else fraction + (1 <<< 52)
    let e := max exponent 1
    let scaled := roundDiv (m <<< e * Nat.pow 10 places) (1 <<< 1075)
    sign ++ pointed places scaled

end MergedWork.Decimal
