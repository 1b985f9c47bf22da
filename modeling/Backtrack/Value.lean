/-
The dynamic values that a source holds, that rules produce and that predicates and mappers see.
-/
import Backtrack.Number.Binary64
namespace Backtrack

/-- A view of bytes that lie elsewhere: in a byte string, or in a byte array, which can be written
to through the view. -/
structure View where
  content : List Nat
  writable : Bool

instance : Coe (List Nat) View := ⟨fun content => ⟨content, false⟩⟩

instance : CoeOut View (List Nat) := ⟨View.content⟩

/-- A value. Texts are lists of code points, bytes are numbers below 256, and a dictionary keeps its
entries in the order in which their keys came. A float that is no number equals nothing, so only its
mark tells whether two of them are one and the same. The outcomes of failed rules are values too.
Sets, complex numbers and objects of types that a program declares itself are left out. -/
inductive Value where
  | none
  | bool (b : Bool)
  | int (n : Int)
  | float (x : Binary64)
  | nan (x : Binary64) (mark : Nat)
  | str (t : Text)
  | list (items : List Value)
  | tuple (items : List Value)
  | values (items : List Value)
  | bytes (content : List Nat)
  | byteArray (content : List Nat)
  | byteView (view : View)
  | range (start stop step : Int)
  | dictionary (entries : List (Value × Value))
  | mismatch
  | namedMismatch (label : Value)
deriving Inhabited

namespace Value

instance : Coe Text Value := ⟨str⟩

def typeName : Value → Text
  | none => "NoneType"
  | bool _ => "bool"
  | int _ => "int"
  | float _ | nan .. => "float"
  | str _ => "str"
  | list _ => "list"
  | tuple _ => "tuple"
  | values _ => "Values"
  | bytes _ => "bytes"
  | byteArray _ => "bytearray"
  | byteView _ => "memoryview"
  | range .. => "range"
  | dictionary _ => "dict"
  | mismatch => "Mismatch"
  | namedMismatch _ => "NamedMismatch"

/-- The value with a mark of its own if it is a float that is no number. -/
def marked (mark : Nat) : Value → Value
  | float x => if x.isNaN then nan x mark else float x
  | v => v

def rangeSize (start stop step : Int) : Nat :=
  if 0 < step then ((stop - start + step - 1) / step).toNat
  else if step < 0 then ((start - stop - step - 1) / (-step)).toNat
  else 0

/-- The members of a range from the `index`th on, `count` of them. -/
def rangeItems (start step : Int) (index : Nat) : Nat → List Value
  | 0 => []
  | count + 1 => int (start + index * step) :: rangeItems start step (index + 1) count

/-- Whether a value counts as true: nothing, false, zeros, mismatches and whatever is empty do
not, and the values of a success always do. -/
def truthy : Value → Bool
  | none | mismatch | namedMismatch _ => false
  | bool b => b
  | int n => n != 0
  | float x => !x.isZero
  | str t => !t.isEmpty
  | list items | tuple items => !items.isEmpty
  | values _ | nan .. => true
  | bytes content | byteArray content => !content.isEmpty
  | byteView view => !view.content.isEmpty
  | range start stop step => rangeSize start stop step != 0
  | dictionary entries => !entries.isEmpty

/-- Whether an integer can be an index or a count of items: it has 64 bits. -/
def isIndex (n : Int) : Bool := decide (-indexLimit ≤ n) && decide (n < indexLimit)
where
  indexLimit : Int := Nat.pow 2 63

/-- Whether the items of a value can be counted, if it has any: all but those of huge ranges. -/
def countable : Value → Bool
  | range start stop step => isIndex (rangeSize start stop step)
  | _ => true

def length? : Value → Option Nat
  | str t => some t.length
  | list items | tuple items | values items => some items.length
  | bytes content | byteArray content => some content.length
  | byteView view => some view.content.length
  | range start stop step => some (rangeSize start stop step)
  | dictionary entries => some entries.length
  | _ => Option.none

/-- The items of a value that can be gone through: the characters of a text, the numbers of
bytes, the keys of a dictionary. -/
def items? : Value → Option (List Value)
  | str t => some (t.map fun c => str [c])
  | list items | tuple items | values items => some items
  | bytes content | byteArray content => some (content.map fun (b : Nat) => int b)
  | byteView view => some (view.content.map fun (b : Nat) => int b)
  | range start stop step => some (rangeItems start step 0 (rangeSize start stop step))
  | dictionary entries => some (entries.map Prod.fst)
  | _ => Option.none

end Value
end Backtrack
