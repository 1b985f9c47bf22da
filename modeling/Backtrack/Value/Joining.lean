/-
Joining texts: those among the items of several values, and those in a tree of lists and tuples.
-/
import Backtrack.Failure
namespace Backtrack.Value

/-! ## Texts in lists -/

/-- The texts among items joined, the first item that is no text failing by its index. -/
def joinItems (index : Nat) : List Value → Except Failure Text
  | [] => .ok []
  | str t :: vs => (t ++ ·) <$> joinItems (index + 1) vs
  | v :: _ =>
    .error (.typeError (Text.concat ["sequence item ", Numeral.ofInt index,
      ": expected str instance, ", v.typeName, " found"]))

def joinPart (part : Value) : Except Failure Text :=
  match part.holdFailure? with
  | some f => .error f
  | Option.none =>
    match part.items? with
    | some items => joinItems 0 items
    | Option.none => .error (.typeError "can only join an iterable")

/-- The items of all parts joined; parts that are the value none are left out. -/
def joinParts : List Value → Except Failure Text
  | [] => .ok []
  | none :: parts => joinParts parts
  | part :: parts => do
    let t ← joinPart part
    return t ++ (← joinParts parts)

/-! ## Texts in trees -/

mutual

/-- The texts in a tree of lists and tuples joined, the value none counting as empty. -/
def flatText : Value → Except Failure Text
  | none => .ok []
  | str t => .ok t
  | list items | tuple items | values items => flatTextItems items
  | _ => .error (.typeError "not text")

def flatTextItems : List Value → Except Failure Text
  | [] => .ok []
  | v :: vs => do
    let t ← flatText v
    return t ++ (← flatTextItems vs)

end

end Backtrack.Value
