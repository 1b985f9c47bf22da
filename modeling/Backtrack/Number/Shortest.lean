/-
The decimal text of a floating point number: the fewest digits that read back as the number, of
two such decimals the nearer one, laid out in positional notation from `0.0001` up to below
`10 ^ 16` and with an exponent outside.
-/
import Backtrack.Number.Binary64
namespace Backtrack.Binary64

/-- The largest `p` with `10 ^ p ≤ m * 2 ^ q`, for a positive significand. -/
def floorLog10 (m : Nat) (q : Int) : Int :=
  -- times 10 ^ 330 every positive number is above one, so that its digits can be counted
  let scaled := m * Nat.pow 2 q.toNat * Nat.pow 10 330 / Nat.pow 2 (-q).toNat
  ((Numeral.write 10 scaled).length : Int) - 331

/-- Whether `num / den` lies nearer to `low + 1` than to `low`, or as near with `low` odd. -/
def upperIsNearer (num den low : Nat) : Bool :=
  let twice := 2 * num
  let middle := (2 * low + 1) * den
  middle < twice || (middle == twice && low % 2 == 1)

/-- A decimal `c * 10 ^ k` on the grid of `k` that reads back as the magnitude, if there is one. -/
def readsBackOnGrid? (magnitude : Nat) (m : Nat) (q k : Int) : Option Nat :=
  let num := m * Nat.pow 2 q.toNat * Nat.pow 10 (-k).toNat
  let den := Nat.pow 2 (-q).toNat * Nat.pow 10 k.toNat
  let low := num / den
  let lowHits := roundDecimal low k == magnitude
  let highHits := roundDecimal (low + 1) k == magnitude
  if lowHits && highHits then some (if upperIsNearer num den low then low + 1 else low)
  else if lowHits then some low
  else if highHits then some (low + 1)
  else none

/-- The first hit among `steps` grids, with `digits`, `digits + 1`, … digits. -/
def shortestFrom (magnitude : Nat) (m : Nat) (q p : Int) : Nat → Nat → Nat × Int
  -- seventeen digits always read back, so that the steps never run out
  | 0, digits => (0, p - digits)
  | steps + 1, digits =>
    let k := p - (digits : Int) + 1
    match readsBackOnGrid? magnitude m q k with
    | some c => (c, k)
    | none => shortestFrom magnitude m q p steps (digits + 1)

def shortest (x : Binary64) : Nat × Int :=
  let (m, q) := x.parts
  shortestFrom x.magnitude m q (floorLog10 m q) 17 1

def dropFinalZeros (t : Text) : Text := (t.reverse.dropWhile (· == 0x30)).reverse

/-- The digits `d₀d₁…` of a number `d₀.d₁… * 10 ^ p`, laid out. -/
def layOut (digits : Text) (p : Int) : Text :=
  if -4 ≤ p && p < 16 then
    if p < 0 then
      ("0." : Text) ++ List.replicate (-p - 1).toNat 0x30 ++ digits
    else
      let whole := digits.take (p.toNat + 1)
      let fraction := digits.drop (p.toNat + 1)
      whole ++ List.replicate (p.toNat + 1 - whole.length) 0x30 ++ [0x2e]
        ++ (if fraction.isEmpty then [0x30] else fraction)
  else
    let fraction := digits.drop 1
    digits.take 1 ++ (if fraction.isEmpty then [] else 0x2e :: fraction) ++ [0x65]
      ++ (if p < 0 then [0x2d] else [0x2b]) ++ Numeral.writePadded 10 2 p.natAbs

def text (x : Binary64) : Text :=
  if x.isNaN then "nan"
  else
    let sign : Text := if x.isNegative then [0x2d] else []
    if x.isInfinite then Text.concat [sign, "inf"]
    else if x.isZero then Text.concat [sign, "0.0"]
    else
      let (c, k) := x.shortest
      let digits := Numeral.write 10 c
      sign ++ layOut (dropFinalZeros digits) (k + digits.length - 1)

end Backtrack.Binary64
