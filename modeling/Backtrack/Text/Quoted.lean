/-
Quoted texts and byte strings. The quote is the single one unless the content holds a single and
no double one; the backslash, a quote and what has no shown form are escaped, the latter in the
shortest of two, four or eight hexadecimal digits.
-/
import Backtrack.Text.Printable
import Backtrack.Number.Numeral
namespace Backtrack.Text

def quoteFor (content : List Nat) : Nat :=
  if content.contains 0x27 && !content.contains 0x22 then 0x22 else 0x27

def escapeByNumber (c : Nat) : Text :=
  if c ≤ 0xff then 0x5c :: 0x78 :: Numeral.writePadded 16 2 c
  else if c ≤ 0xffff then 0x5c :: 0x75 :: Numeral.writePadded 16 4 c
  else 0x5c :: 0x55 :: Numeral.writePadded 16 8 c

/-- One code point inside quotes, where `shown` tells what needs no escape by number and `guarded`
is the quote that gets a backslash. -/
def escape (shown : Nat → Bool) (guarded c : Nat) : Text :=
  if c == guarded || c == 0x5c then [0x5c, c]
  else if c == 0x0a then "\\n"
  else if c == 0x0d then "\\r"
  else if c == 0x09 then "\\t"
  else if shown c then [c]
  else escapeByNumber c

def quotedBy (shown : Nat → Bool) (quote guarded : Nat) (content : List Nat) : Text :=
  quote :: (content.flatMap (escape shown guarded) ++ [quote])

/-- A text in quotes: printable code points as they are, the others escaped. -/
def quoted (t : Text) : Text := quotedBy isPrintable (quoteFor t) (quoteFor t) t

def isPrintableByte (c : Nat) : Bool := 0x20 ≤ c && c ≤ 0x7e

def quotedBytes (bytes : List Nat) : Text :=
  0x62 :: quotedBy isPrintableByte (quoteFor bytes) (quoteFor bytes) bytes

/-- Bytes of an array in quotes after a `b`; a single quote gets a backslash in either quotes. -/
def quotedByteArray (bytes : List Nat) : Text :=
  0x62 :: quotedBy isPrintableByte (quoteFor bytes) 0x27 bytes

end Backtrack.Text
