/-
Sets of characters and bytes that grammars use as members.
-/
import Backtrack.Failure
namespace Backtrack.ItemSet

def characters (s : String) : List Value := (Text.ofString s).map fun c => .str [c]

/-- The code points of a string, as the items of a byte source. -/
def codes (s : String) : List Value := (Text.ofString s).map fun (c : Nat) => .int c

def whitespaces : List Value := characters " \t\n\r\x0c"
def binary : List Value := characters "01"
def octal : List Value := characters "01234567"
def decimal : List Value := characters "0123456789"
def hexadecimal : List Value := characters "0123456789abcdefABCDEF"
def alphabetic : List Value :=
  characters "abcdefghijklmnopqrstuvwxyzABCDEFGHIJKLMNOPQRSTUVWXYZ"
def alnum : List Value := alphabetic ++ decimal
def identifierStart : List Value := alphabetic ++ characters "_"
def identifier : List Value := alnum ++ characters "_"
def signs : List Value := characters "+-"
def whitespaceBytes : List Value := codes " \t\n\r\x0c"
def decimalBytes : List Value := codes "0123456789"
def hexadecimalBytes : List Value := codes "0123456789abcdefABCDEF"

def table : List (String × List Value) :=
  [("WHITESPACES", whitespaces), ("BINARY", binary), ("OCTAL", octal), ("DECIMAL", decimal),
    ("HEXADECIMAL", hexadecimal), ("ALPHABETIC", alphabetic), ("ALNUM", alnum),
    ("IDENTIFIER_START", identifierStart), ("IDENTIFIER", identifier), ("SIGNS", signs),
    ("WHITESPACES_BYTES", whitespaceBytes), ("DECIMAL_BYTES", decimalBytes),
    ("HEXADECIMAL_BYTES", hexadecimalBytes)]

def named? (name : String) : Option (List Value) := table.lookup name

/-- The order of members: integers by size, characters by code point, integers first. -/
def memberLe : Value → Value → Bool
  | .int m, .int n => m ≤ n
  | .str s, .str t => Text.le s t
  | .int _, _ => true
  | _, _ => false

def sorted (members : List Value) : List Value := members.mergeSort memberLe

/-- Whether a value, which must be one that can be a member, belongs to a set. -/
def contains (members : List Value) (v : Value) : Except Failure Bool := do
  v.requireHashable
  return v.occursIn members

end Backtrack.ItemSet
