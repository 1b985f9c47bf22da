/-
Sums and products of values. Numbers are added and multiplied, truth values counting as integers
and a float on either side making the result one. The sum of two sequences of a kind is one behind
the other, and a sequence times an integer is that many copies of it, none for a negative one.
-/
import Backtrack.Failure
import Backtrack.Number.Arithmetic
namespace Backtrack.Value

/-! ## Numbers -/

def beyondFloats : Failure := .withText .overflowError "int too large to convert to float"

def Number.toFloat : Number → Except Failure Binary64
  | whole n =>
    match Binary64.ofInt? n with
    | some x => .ok x
    | Option.none => .error beyondFloats
  | floating x => .ok x

/-- An operation on two numbers: on integers if both are, else on floats. -/
def Number.combine (onIntegers : Int → Int → Int) (onFloats : Binary64 → Binary64 → Binary64) :
    Number → Number → Except Failure Value
  | whole a, whole b => .ok (int (onIntegers a b))
  | a, b => do
    let x ← a.toFloat
    let y ← b.toFloat
    return float (onFloats x y)

/-! ## Sums -/

def unsupported (operator left right : Text) : Failure :=
  .typeError (Text.concat ["unsupported operand type(s) for ", operator, ": '", left, "' and '",
    right, "'"])

def onlySameType (left typeName : Text) : Failure :=
  .typeError (Text.concat ["can only concatenate ", left, " (not \"", typeName, "\") to ", left])

def cannotAdd (left : Value) (typeName : Text) : Failure :=
  match left with
  | str _ | list _ => onlySameType left.typeName typeName
  | tuple _ | values _ => onlySameType "tuple" typeName
  | bytes _ | byteArray _ =>
    .typeError (Text.concat ["can't concat ", typeName, " to ", left.typeName])
  | _ => unsupported "+" left.typeName typeName

/-- The second sequence behind the first one, if the two are of a kind. -/
def append? (left right : Value) : Option Value :=
  match left with
  | str s => match right with
    | str t => some (str (s ++ t))
    | _ => Option.none
  | list xs => match right with
    | list ys => some (list (xs ++ ys))
    | _ => Option.none
  | tuple xs | values xs => right.tupleItems?.map fun ys => tuple (xs ++ ys)
  | bytes a => right.content?.map fun b => bytes (a ++ b)
  | byteArray a => right.content?.map fun b => byteArray (a ++ b)
  | _ => Option.none

def add (left right : Value) : Except Failure Value :=
  match left.number?, right.number? with
  | some a, some b => a.combine (· + ·) Binary64.add b
  | _, _ =>
    match left.append? right with
    | some v => .ok v
    | Option.none => .error (cannotAdd left right.typeName)

/-! ## Products -/

def cycles {α : Type} (count : Nat) (items : List α) : List α :=
  if items.isEmpty then [] else (List.replicate count items).flatten

/-- Some items `count` times over, refused for the reason `refusal` if these are more than `limit`. -/
def copies {α : Type} (limit : Nat) (refusal : Failure) (count : Nat) (items : List α) :
    Except Failure (List α) :=
  if count * items.length ≤ limit then .ok (cycles count items) else .error refusal

def tooLong (what : Text) : Failure :=
  .withText .overflowError (Text.concat ["repeated ", what, " too long"])

/-- The most characters or bytes in a row. -/
def longest : Nat := Nat.pow 2 63 - 1

/-- For a sequence, how to make so many copies of it. -/
def copier? : Value → Option (Nat → Except Failure Value)
  | str t => some fun count => str <$> copies longest (tooLong "string is") count t
  | list xs => some fun count => list <$> copies listLimit .outOfMemory count xs
  | tuple xs | values xs => some fun count => tuple <$> copies listLimit .outOfMemory count xs
  | bytes c => some fun count => bytes <$> copies longest (tooLong "bytes are") count c
  | byteArray c => some fun count => byteArray <$> copies longest .outOfMemory count c
  | _ => Option.none

/-- The number of copies that a value asks for, which has to be an integer of 64 bits. -/
def copyCount (v : Value) : Except Failure Nat :=
  match v.number? with
  | some (.whole n) =>
    if isIndex n then .ok n.toNat else .error (.indexTooLarge .overflowError)
  | _ =>
    .error (.typeError (Text.concat ["can't multiply sequence by non-int of type '", v.typeName,
      "'"]))

/-- The product of two values: of numbers, or of a sequence and an integer in either order. -/
def mul (left right : Value) : Except Failure Value :=
  match left.number?, right.number? with
  | some a, some b => a.combine (· * ·) Binary64.mul b
  | _, _ =>
    match left.copier?, right.copier? with
    | some make, _ => right.copyCount >>= make
    | Option.none, some make => left.copyCount >>= make
    | Option.none, Option.none => .error (unsupported "*" left.typeName right.typeName)

end Backtrack.Value
