/-
Values that lie in memory as a whole and can be cut into slices of the same kind. A negative bound
of a slice counts from the end, and bounds outside are moved to the nearest end.
-/
import Backtrack.Failure
namespace Backtrack

inductive SequenceKind where
  | str
  | bytes
  | byteArray
  | list
  | tuple
deriving DecidableEq, Repr

/-- A sequence: items in memory, or a range, whose members are computed. -/
inductive Sequence where
  | items (kind : SequenceKind) (content : Array Value)
  | range (start stop step : Int)
deriving Inhabited

namespace Sequence

/-- The sequence that a value is. A success is read as a tuple, a view of bytes as the bytes. -/
def ofValue? : Value → Option Sequence
  | .range start stop step => some (range start stop step)
  | v =>
    -- a dictionary can be gone through, but has no slices
    let kind? : Option SequenceKind :=
      match v with
      | .str _ => some .str
      | .bytes _ | .byteView _ => some .bytes
      | .byteArray _ => some .byteArray
      | .list _ => some .list
      | .tuple _ | .values _ => some .tuple
      | _ => none
    match kind?, v.items? with
    | some kind, some content => some (items kind content.toArray)
    | _, _ => none

/-- The items of a value as a sequence, or the failure of going through it. No range is spelled
out for that. -/
def ofElements (v : Value) : Except Failure Sequence :=
  match ofValue? v with
  | some s => .ok s
  | none => (fun content => items .list content.toArray) <$> v.elements

def size : Sequence → Nat
  | items _ content => content.size
  | range start stop step => Value.rangeSize start stop step

def get? (s : Sequence) (i : Nat) : Option Value :=
  match s with
  | items _ content => content[i]?
  | range start _ step => if i < s.size then some (.int (start + i * step)) else none

def toList : Sequence → List Value
  | items _ content => content.toList
  | range start stop step => Value.rangeItems start step 0 (Value.rangeSize start stop step)

/-- The index that a bound of a slice means in a sequence of `size` items. -/
def clip (size : Nat) (bound : Int) : Nat :=
  if bound < 0 then (bound + size).toNat else min bound.toNat size

def slice (s : Sequence) (first last : Int) : Sequence :=
  let i := clip s.size first
  let j := clip s.size last
  match s with
  | items kind content => items kind (content.extract i j)
  | range start _ step => range (start + i * step) (start + j * step) step

/-- The code points of the characters among some items. -/
def characters : List Value → Text
  | [] => []
  | .str t :: vs => t ++ characters vs
  | _ :: vs => characters vs

/-- The numbers among some items, as bytes. -/
def byteContent : List Value → List Nat
  | [] => []
  | .int n :: vs => n.toNat :: byteContent vs
  | _ :: vs => byteContent vs

def toValue : Sequence → Value
  | items .str content => .str (characters content.toList)
  | items .bytes content => .bytes (byteContent content.toList)
  | items .byteArray content => .byteArray (byteContent content.toList)
  | items .list content => .list content.toList
  | items .tuple content => .tuple content.toList
  | range start stop step => .range start stop step

/-! ## Items of a slice -/

theorem clip_of_nonneg {size : Nat} {bound : Int} (h : 0 ≤ bound) :
    clip size bound = min bound.toNat size := by
  unfold clip; simp; omega

end Sequence
end Backtrack
