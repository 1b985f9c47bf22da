/-
Values made of parts that may not fit: ranges of bounds, texts of code points, byte strings of
hexadecimal digits, dictionaries of entries.
-/
import Backtrack.Failure
namespace Backtrack.Value

def requireInteger (v : Value) : Except Failure Int :=
  match v.number? with
  | some (.whole n) => .ok n
  | _ =>
    .error (.typeError (Text.concat ["'", v.typeName,
      "' object cannot be interpreted as an integer"]))

/-- A range between two bounds by a step, which must not be zero. -/
def makeRange (start stop step : Value) : Except Failure Value := do
  let first ← start.requireInteger
  let last ← stop.requireInteger
  let width ← step.requireInteger
  if width = 0 then throw (.valueError "range() arg 3 must not be zero")
  return range first last width

def codePoint (v : Value) : Except Failure Nat := do
  let n ← v.requireInteger
  if n < -0x80000000 ∨ 0x7fffffff < n then
    throw (.withText .overflowError "Python int too large to convert to C int")
  if n < 0 ∨ 0x10ffff < n then throw (.valueError "chr() arg not in range(0x110000)")
  return n.toNat

def makeText (codes : List Value) : Except Failure Value := str <$> codes.mapM codePoint

def notHexadecimal (index : Nat) : Failure :=
  .valueError (Text.concat ["non-hexadecimal number found in fromhex() arg at position ",
    Numeral.ofInt index])

/-- The bytes that pairs of hexadecimal digits write from an index of the text on, with white space
between the pairs. -/
def readBytes (index : Nat) : Text → Except Failure (List Nat)
  | [] => .ok []
  | c :: rest =>
    if Text.isBlank c then readBytes (index + 1) rest
    else
      match Numeral.digitValue? c, rest with
      | Option.none, _ => .error (notHexadecimal index)
      -- half a pair at the end of the text
      | some _, [] => .error (notHexadecimal (index + 1))
      | some high, d :: rest =>
        match Numeral.digitValue? d with
        | Option.none => .error (notHexadecimal (index + 1))
        | some low => do return (high * 16 + low) :: (← readBytes (index + 2) rest)

/-- The bytes that a text writes. A character outside ASCII is refused before all others. -/
def makeBytes (t : Text) : Except Failure (List Nat) :=
  match t.findIdx? (127 < ·) with
  | some i => .error (notHexadecimal i)
  | Option.none => readBytes 0 t

/-- A dictionary with some entries, put into it one after another. -/
def makeDictionary (pairs : List (Value × Value)) : Except Failure Value := do
  let entries ← pairs.foldlM (fun entries (pair : Value × Value) => do
    pair.1.requireHashable
    return putEntry pair.1 pair.2 entries) []
  return dictionary entries

end Backtrack.Value
