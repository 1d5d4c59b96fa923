import Sketch.Bytes

/-! Doubles written with a fixed number of significant decimal digits. A finite double is an exact
quotient of natural numbers, so its decimal exponent and its digits are found by integer division
alone: nothing is rounded before the one rounding to the digits asked for. -/
namespace Sketch

/-- A double taken apart: a finite one is `± mantissa · 2 ^ exponent`. -/
inductive Magnitude where
  | finite (negative : Bool) (mantissa : Nat) (exponent : Int)
  | infinite (negative : Bool)
  | undefined

def Magnitude.ofFloat (x : Float) : Magnitude :=
  let negative := x.toBits >>> 63 == 1
  let exponent := (x.toBits >>> 52 &&& 0x7ff).toNat
  let fraction := (x.toBits &&& 0xfffffffffffff).toNat
  if exponent = 2047 then
    if fraction = 0 then .infinite negative else .undefined
  else if exponent = 0 then .finite negative fraction (-1074)
  else .finite negative (0x10000000000000 + fraction) (exponent - 1075)

/-- The quotient nearest to a whole number, a half going to the even neighbour. -/
def roundDiv (num den : Nat) : Nat :=
  let below := num / den
  let twice := 2 * (num % den)
  if den < twice || (twice == den && below % 2 == 1) then below + 1 else below

def digitCount (n : Nat) : Nat := (decimal n).length

/-- The exponent `e` with `10 ^ e ≤ num / den < 10 ^ (e + 1)`, for positive `num` and `den`. -/
def decimalExponent (num den : Nat) : Int :=
  if den ≤ num then digitCount (num / den) - 1
  else -digitCount ((den + num - 1) / num - 1)

/-- `digits` read with a point after the first one, times ten to the `exponent`. -/
structure Scientific where
  digits : Bytes
  exponent : Int

/-- The positive quotient `num / den` rounded to `count` digits. -/
def Scientific.ofQuotient (count num den : Nat) : Scientific :=
  let exponent := decimalExponent num den
  let shift := count - 1 - exponent
  let rounded := roundDiv (num * Nat.pow 10 shift.toNat) (den * Nat.pow 10 (-shift).toNat)
  if rounded = Nat.pow 10 count then ⟨decimal (Nat.pow 10 (count - 1)), exponent + 1⟩
  else ⟨decimal rounded, exponent⟩

def dropTrailingZeros (digits : Bytes) : Bytes := (digits.reverse.dropWhile (· == 48)).reverse

/-- A whole part and a fraction without its trailing zeros; the point goes with the fraction. -/
def pointed (whole fraction : Bytes) : Bytes :=
  match dropTrailingZeros fraction with
  | [] => whole
  | kept => whole ++ dot :: kept

/-- Exponents from -4 up to below the digit count are written positionally, all others with a
signed exponent of at least two digits. -/
def Scientific.text (s : Scientific) : Bytes :=
  if s.exponent < -4 ∨ s.digits.length ≤ s.exponent then
    pointed (s.digits.take 1) (s.digits.drop 1)
      ++ bytes (if s.exponent < 0 then "e-" else "e+") ++ paddedDecimal 2 s.exponent.natAbs
  else if s.exponent < 0 then
    pointed (bytes "0") (List.replicate (s.exponent.natAbs - 1) 48 ++ s.digits)
  else
    pointed (s.digits.take (s.exponent.toNat + 1)) (s.digits.drop (s.exponent.toNat + 1))

/-- The text of a double with `count` significant digits. -/
def significant (count : Nat) (x : Float) : Bytes :=
  let signed negative text := if negative then minus :: text else text
  match Magnitude.ofFloat x with
  | .undefined => bytes "nan"
  | .infinite negative => signed negative (bytes "inf")
  | .finite negative 0 _ => signed negative (bytes "0")
  | .finite negative mantissa exponent =>
    signed negative
      (Scientific.ofQuotient count (mantissa <<< exponent.toNat) (1 <<< (-exponent).toNat)).text

end Sketch
