/-
What evaluating a rule gives: the values of a success, in order, or a mismatch, from which an
enclosing rule may turn to something else.
-/
import Backtrack.Failure
namespace Backtrack

/-- Nothing matched: as such, or labelled with what was looked for. -/
inductive Mismatch where
  | plain
  | named (label : Value)
deriving Inhabited

namespace Mismatch

/-- The value that a mismatch is. -/
def toValue : Mismatch → Value
  | plain => .mismatch
  | named label => .namedMismatch label

def ofValue? : Value → Option Mismatch
  | .mismatch => some plain
  | .namedMismatch label => some (named label)
  | _ => none

/-- The mismatch that a value has to be to have a member of the given name. -/
def require (v : Value) (name : Text) : Except Failure Mismatch :=
  match ofValue? v with
  | some m => .ok m
  | none => .error (.noAttribute v.typeName name)

/-- The mismatch as a failure of a whole parse. -/
def error (m : Mismatch) (position : Value) : Failure := .mismatchError m.toValue position

end Mismatch

inductive Outcome where
  | success (values : List Value)
  | mismatch (m : Mismatch)
deriving Inhabited

namespace Outcome

def noMatch : Outcome := mismatch .plain

def single (v : Value) : Outcome := success [v]

/-- The value that an outcome is. -/
def toValue : Outcome → Value
  | success values => .values values
  | mismatch m => m.toValue

/-- The failure of adding the items of a value that has none. -/
def notSpreadable (v : Value) : Failure :=
  .typeError (Text.concat ["Value after * must be an iterable, not ", v.typeName])

/-- The values of a success with the items of a value behind them. -/
def concat (values : List Value) (other : Value) : Except Failure (List Value) :=
  match other.holdFailure? with
  | some f => .error f
  | none =>
    match other.items? with
    | some items => .ok (values ++ items)
    | none => .error (notSpreadable other)

end Outcome
end Backtrack
