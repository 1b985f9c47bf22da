/-
Text as a list of code points. A surrogate may stand alone in a text, which `String` cannot hold,
so every text a grammar reads, produces or reports is kept in this form.
-/
namespace Backtrack

/-- A text: its code points, in order. -/
abbrev Text := List Nat

namespace Text

def ofString (s : String) : Text := s.toList.map Char.toNat

instance : Coe String Text := ⟨ofString⟩

def concat (parts : List Text) : Text := parts.flatten

/-- The texts one after another, with `separator` between neighbours. -/
def join (separator : Text) : List Text → Text
  | [] => []
  | [t] => t
  | t :: u :: rest => t ++ separator ++ join separator (u :: rest)

/-- Order by code points, a proper beginning of a text before the text. -/
def le : Text → Text → Bool
  | [], _ => true
  | _ :: _, [] => false
  | a :: s, b :: t => a < b || (a == b && le s t)

/-! ## Classes of code points -/

def isUpper (c : Nat) : Bool := 0x41 ≤ c && c ≤ 0x5a

def isLower (c : Nat) : Bool := 0x61 ≤ c && c ≤ 0x7a

/-- White space inside ASCII. -/
def isBlank (c : Nat) : Bool := c == 0x20 || (0x09 ≤ c && c ≤ 0x0d)

def isDigit (c : Nat) : Bool := 0x30 ≤ c && c ≤ 0x39

def isLetter (c : Nat) : Bool := isUpper c || isLower c

/-- The upper case letter of `a` to `z`; every other code point stays. -/
def toUpper (c : Nat) : Nat := if isLower c then c - 0x20 else c

end Text
end Backtrack
