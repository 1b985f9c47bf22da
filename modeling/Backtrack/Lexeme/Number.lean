/-
Ready rules for numbers. An integer is decimal, or binary, octal or hexadecimal after a mark that
makes digits mandatory; a float has a fraction or an exponent. Either may have a minus in front,
and what does not belong to the number is left alone.
-/
import Backtrack.Lexeme.Basic
namespace Backtrack.Lexeme

/-- The longest decimal text that is read as an integer. -/
def maxDecimalDigits : Nat := 4300

def tooManyDigits (count : Nat) : Failure :=
  .valueError (Text.concat [
    "Exceeds the limit (", Numeral.ofInt maxDecimalDigits,
    " digits) for integer string conversion: value has ", Numeral.ofInt count,
    " digits; use sys.set_int_max_str_digits() to increase the limit"])

def notNumeral (base : Nat) (t : Text) : Failure :=
  .valueError (Text.concat ["invalid literal for int() with base ", Numeral.ofInt base, ": ",
    t.quoted])

/-- The integer that a text of digits writes in a base. -/
def readInteger (base : Nat) (t : Text) : Except Failure Value :=
  match Numeral.read? base t with
  | some n => .ok (.int n)
  | none => .error (notNumeral base t)

/-- The integer that a decimal text writes, within the limit on its length. -/
def readDecimal (t : Text) : Except Failure Value :=
  if maxDecimalDigits < t.length then .error (tooManyDigits t.length) else readInteger 10 t

/-- Digits of a base after its mark, or a hard failure. -/
def markedDigits (mark : String) (members : List Value) (base : Nat) (what : String) : Rule :=
  mapped
    (.and [.discard (.literal (.str (Text.ofString mark))),
      .expected
        (.name (.repetition (oneOf members) 1 none) (.str "digit"))
        (.str (Text.ofString what))])
    fun vs => Value.joinParts vs >>= readInteger base

/-- The number after an optional minus, negated if the minus is there. -/
def signed : List Value → Except Failure Value
  | [sign, .int n] => .ok (.int (if sign.eqv (.str [0x2d]) then -n else n))
  | [sign, .float x] => .ok (.float (if sign.eqv (.str [0x2d]) then x.neg else x))
  -- the number stands behind the minus even where it is no number
  | vs => .ok (vs.getD 1 .none)

def minus : Rule := .optional (character 0x2d)

/-- Decimal digits as an integer; too many of them fail hard. -/
def decimalInteger : Rule :=
  .map (.attempt [.valueError]) digits
    (.anonymous fun vs => Value.joinParts vs >>= readDecimal) false

def integer : Rule :=
  .or [mapped
    (.and [minus,
      -- marks first, since each begins with a digit
      .or [markedDigits "0b" ItemSet.binary 2 "binary integer",
        markedDigits "0o" ItemSet.octal 8 "octal integer",
        markedDigits "0x" ItemSet.hexadecimal 16 "hexadecimal integer",
        decimalInteger]])
    signed]

/-- An exponent: `e` or `E`, an optional sign, digits. -/
def exponent : Rule :=
  -- a choice of one, so that a sign without digits is given back
  .or [joined (.and [oneOf (ItemSet.characters "eE"), .optional (oneOf ItemSet.signs), digits])]

def readFloat (t : Text) : Except Failure Value :=
  match Binary64.ofText? t with
  | some x => .ok (.float x)
  | none =>
    .error (.valueError (Text.concat ["could not convert string to float: ", t.quoted]))

/-- A float without its sign: digits with a fraction, a fraction alone, or digits with an
exponent, which is optional behind a fraction. -/
def unsignedFloat : Rule :=
  .map (.attempt [.valueError])
    (.or [
      .and [joined (.and [digits, character 0x2e, digits]), .optional exponent],
      .and [joined (.and [character 0x2e, digits]), .optional exponent],
      .and [digits, exponent]])
    (.anonymous fun vs => Value.joinParts vs >>= readFloat) false

def float : Rule := .or [mapped (.and [minus, unsignedFloat]) signed]

end Backtrack.Lexeme
