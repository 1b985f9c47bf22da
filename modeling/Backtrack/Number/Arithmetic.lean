/-
Sums and products of floating point numbers, and the float nearest to an integer. Both operations
are carried out exactly on the significands and rounded once, a tie going to the even one. An
operation on a NaN gives that NaN, quieted, the left one if both operands are; one without a
meaning, such as infinity minus infinity, gives a NaN of its own.
-/
import Backtrack.Number.Binary64
namespace Backtrack.Binary64

/-- The weight of the highest bit of a fraction, which tells a quiet NaN. -/
def quietWeight : Nat := Nat.pow 2 51

/-- The NaN with the same payload that is quiet. -/
def quiet (x : Binary64) : Binary64 :=
  if x.magnitude % fractionCount < quietWeight then
    ofMagnitude x.isNegative (x.magnitude + quietWeight)
  else x

def undefined : Binary64 := ofMagnitude true (infinityMagnitude + quietWeight)

/-- The NaN that an operation on two numbers has to give, if one of them is a NaN. -/
def inheritedNaN? (x y : Binary64) : Option Binary64 :=
  if x.isNaN then some x.quiet else if y.isNaN then some y.quiet else none

def ofParts (negative : Bool) (m : Nat) (q : Int) : Binary64 :=
  ofMagnitude negative (roundRatio (m * Nat.pow 2 q.toNat) (Nat.pow 2 (-q).toNat))

def ofInt? (n : Int) : Option Binary64 :=
  let magnitude := roundRatio n.natAbs 1
  if magnitude < infinityMagnitude then some (ofMagnitude (decide (n < 0)) magnitude) else none

/-- The significand with the sign of the number, in units of `2 ^ q` for a `q` not above its
exponent. -/
def scaled (x : Binary64) (q : Int) : Int :=
  let (m, exponent) := x.parts
  let shifted : Int := (m * Nat.pow 2 (exponent - q).toNat : Nat)
  if x.isNegative then -shifted else shifted

/-- The sum of two finite numbers. A sum of zero is negative only if both numbers are. -/
def addFinite (x y : Binary64) : Binary64 :=
  -- in units of the smaller exponent both numbers are integers
  let q := min x.parts.2 y.parts.2
  let sum := x.scaled q + y.scaled q
  ofParts (if sum = 0 then x.isNegative && y.isNegative else decide (sum < 0)) sum.natAbs q

def add (x y : Binary64) : Binary64 :=
  match inheritedNaN? x y with
  | some nan => nan
  | none =>
    if x.isInfinite then if y.isInfinite && x != y then undefined else x
    else if y.isInfinite then y
    else addFinite x y

def mul (x y : Binary64) : Binary64 :=
  let negative := x.isNegative != y.isNegative
  match inheritedNaN? x y with
  | some nan => nan
  | none =>
    if x.isInfinite || y.isInfinite then
      if x.isZero || y.isZero then undefined else ofMagnitude negative infinityMagnitude
    else ofParts negative (x.parts.1 * y.parts.1) (x.parts.2 + y.parts.2)

end Backtrack.Binary64
