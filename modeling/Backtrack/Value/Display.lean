/-
How values are shown inside rules, logs and error texts. A shown value is unambiguous: texts are
in quotes, a tuple of one item keeps its comma. The plain text of a value differs only for texts,
which stand for themselves.
-/
import Backtrack.Value
import Backtrack.Number.Shortest
import Backtrack.Text.Quoted
namespace Backtrack

def Text.bracketed (opening closing : Text) (shown : List Text) : Text :=
  opening ++ Text.join ", " shown ++ closing

/-- Shown items as a tuple, which keeps a comma behind a single one. -/
def Text.tupled : List Text → Text
  | [shown] => Text.concat ["(", shown, ",)"]
  | shown => Text.bracketed "(" ")" shown

namespace Value

mutual

def display : Value → Text
  | none => "None"
  | bool true => "True"
  | bool false => "False"
  | int n => Numeral.ofInt n
  | float x | nan x _ => x.text
  | str t => t.quoted
  | list items => Text.bracketed "[" "]" (displayItems items)
  | tuple items => Text.tupled (displayItems items)
  | values items => Text.concat ["Values", Text.tupled (displayItems items)]
  | bytes content => Text.quotedBytes content
  | byteArray content => Text.concat ["bytearray(", Text.quotedByteArray content, ")"]
  | byteView _ => "<memory>"
  | range start stop step =>
    let bounds := [Numeral.ofInt start, Numeral.ofInt stop]
    Text.bracketed "range(" ")" (if step = 1 then bounds else bounds ++ [Numeral.ofInt step])
  | dictionary entries => Text.bracketed [0x7b] [0x7d] (displayEntries entries)
  | mismatch => "Mismatch"
  | namedMismatch label => Text.concat ["NamedMismatch(", display label, ")"]

def displayItems : List Value → List Text
  | [] => []
  | v :: vs => display v :: displayItems vs

def displayEntries : List (Value × Value) → List Text
  | [] => []
  | (k, v) :: es => (display k ++ [0x3a, 0x20] ++ display v) :: displayEntries es

end

/-- Whether an integer has so few digits that it can be shown: not more than 4300. -/
def isShortInteger (n : Int) : Bool := n.natAbs.log2 < 14000 || n.natAbs < Nat.pow 10 4300

mutual

/-- Whether every integer in a value can be shown. -/
def isShowable : Value → Bool
  | int n => isShortInteger n
  | list items | tuple items | values items => areShowable items
  | range start stop step => isShortInteger start && isShortInteger stop && isShortInteger step
  | dictionary entries => entriesShowable entries
  | namedMismatch label => isShowable label
  | _ => true

def areShowable : List Value → Bool
  | [] => true
  | v :: vs => isShowable v && areShowable vs

def entriesShowable : List (Value × Value) → Bool
  | [] => true
  | (k, v) :: es => isShowable k && isShowable v && entriesShowable es

end

/-- The text of a value: a text stands for itself, any other value is shown. -/
def text : Value → Text
  | str t => t
  | v => v.display

end Value
end Backtrack
