/-
Binary floating point numbers of 64 bits: their fields, their exact comparison with integers and
with each other, and the nearest one to a decimal. A finite number stands for its significand
times a power of two; ties between two neighbours go to the even significand.
-/
import Backtrack.Number.Numeral
namespace Backtrack

/-- A floating point number of 64 bits: sign, eleven bits of exponent, 52 bits of fraction. -/
structure Binary64 where
  bits : UInt64
deriving DecidableEq, Inhabited

namespace Binary64

/-! ## Fields -/

def signWeight : Nat := Nat.pow 2 63

/-- The number of fractions, which is the weight of the lowest bit of the exponent. -/
def fractionCount : Nat := Nat.pow 2 52

def isNegative (x : Binary64) : Bool := signWeight ≤ x.bits.toNat

def magnitude (x : Binary64) : Nat := x.bits.toNat % signWeight

/-- The magnitude of the infinities; every larger one is a NaN. -/
def infinityMagnitude : Nat := 0x7ff * fractionCount

def isNaN (x : Binary64) : Bool := infinityMagnitude < x.magnitude

def isInfinite (x : Binary64) : Bool := x.magnitude == infinityMagnitude

def isZero (x : Binary64) : Bool := x.magnitude == 0

def ofMagnitude (negative : Bool) (magnitude : Nat) : Binary64 :=
  ⟨UInt64.ofNat (if negative then signWeight + magnitude else magnitude)⟩

def neg (x : Binary64) : Binary64 := ofMagnitude (!x.isNegative) x.magnitude

/-- Significand `m` and exponent `q` of a finite number, whose absolute value is `m * 2 ^ q`. -/
def parts (x : Binary64) : Nat × Int :=
  let exponent : Nat := x.magnitude / fractionCount
  let fraction : Nat := x.magnitude % fractionCount
  -- below the smallest exponent there is no hidden bit in front of the fraction
  if exponent = 0 then (fraction, -1074) else (fractionCount + fraction, (exponent : Int) - 1075)

/-! ## Comparison -/

/-- Equality of numbers: a NaN equals nothing, the two zeros equal each other. -/
def eqv (x y : Binary64) : Bool :=
  !x.isNaN && !y.isNaN && (x == y || (x.isZero && y.isZero))

def equalsInt (x : Binary64) (n : Int) : Bool :=
  if x.isNaN || x.isInfinite then false
  else
    let (m, q) := x.parts
    (if 0 ≤ q then m * Nat.pow 2 q.toNat == n.natAbs else m == n.natAbs * Nat.pow 2 (-q).toNat)
      && (n == 0 || decide (n < 0) == x.isNegative)

/-! ## Rounding -/

/-- The quotient `num / den` rounded to the nearest integer, a half to the even one. -/
def divideToEven (num den : Nat) : Nat :=
  let quotient := num / den
  let twice := 2 * (num % den)
  if twice < den then quotient
  else if den < twice then quotient + 1
  else if quotient % 2 = 0 then quotient else quotient + 1

/-- The largest `e` with `2 ^ e ≤ num / den`, for positive arguments. -/
def floorLog2 (num den : Nat) : Int :=
  let guess : Int := (num.log2 : Int) - (den.log2 : Int)
  let reached :=
    if 0 ≤ guess then decide (den * Nat.pow 2 guess.toNat ≤ num)
    else decide (den ≤ num * Nat.pow 2 (-guess).toNat)
  if reached then guess else guess - 1

/-- The magnitude nearest to `num / den`; past the largest finite one it is infinity. -/
def roundRatio (num den : Nat) : Nat :=
  if num = 0 then 0
  else
    -- a significand of 53 bits, or of fewer at the lower end of the range
    let q := max (floorLog2 num den - 52) (-1074)
    let m :=
      if 0 ≤ q then divideToEven num (den * Nat.pow 2 q.toNat)
      else divideToEven (num * Nat.pow 2 (-q).toNat) den
    -- the hidden bit carries into the exponent, and so does a significand that was rounded up
    min ((q + 1074).toNat * fractionCount + m) infinityMagnitude

/-- The magnitude nearest to `digits * 10 ^ exponent`. Decimals far outside the range of finite
numbers are settled by their size alone: three bits and a fraction of one make a decimal digit, so
`2 ^ bits` bounds the absolute value from below for a positive exponent and `2 ^ (bits + 1)` bounds
it from above for a negative one. -/
def roundDecimal (digits : Nat) (exponent : Int) : Nat :=
  let bits : Int := digits.log2 + 3 * exponent
  if digits = 0 then 0
  else if 0 ≤ exponent ∧ 1030 < bits then infinityMagnitude
  else if exponent < 0 ∧ bits < -1080 then 0
  else if 0 ≤ exponent then roundRatio (digits * Nat.pow 10 exponent.toNat) 1
  else roundRatio digits (Nat.pow 10 (-exponent).toNat)

/-! ## Decimal text -/

def spanDigits (t : Text) : Text × Text := (t.takeWhile Text.isDigit, t.dropWhile Text.isDigit)

/-- The number that decimal digits write; none write zero. -/
def digitsValue (t : Text) : Nat := (Numeral.read? 10 t).getD 0

def exponent? : Text → Option Int
  | [] => none
  | c :: t =>
    if c == 0x2d then (Numeral.read? 10 t).map fun n => -(n : Int)
    else if c == 0x2b then (Numeral.read? 10 t).map fun n => (n : Int)
    else (Numeral.read? 10 (c :: t)).map fun n => (n : Int)

/-- The number nearest to an unsigned decimal: digits, a fraction with a dot, an exponent after
`e` or `E`; a digit before or after the dot is required, dot and exponent are not. -/
def ofText? (t : Text) : Option Binary64 :=
  let (whole, rest) := spanDigits t
  let (fraction, rest) :=
    match rest with
    | c :: tail => if c == 0x2e then spanDigits tail else ([], rest)
    | [] => ([], [])
  if whole.isEmpty && fraction.isEmpty then none
  else
    let shift : Int := -(fraction.length : Int)
    let read (exponent : Int) :=
      some (ofMagnitude false (roundDecimal (digitsValue (whole ++ fraction)) (exponent + shift)))
    match rest with
    | [] => read 0
    | c :: tail =>
      if c == 0x65 || c == 0x45 then
        match exponent? tail with
        | some exponent => read exponent
        | none => none
      else none

end Binary64
end Backtrack
