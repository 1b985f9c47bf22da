/-
The constructors of rules. Each takes operands that may not be rules at all, checks them in a
fixed order and refuses what could not be evaluated: operands that are no rules, rules with the
wrong number of values, impossible bounds, mappers that cannot take the values.
-/
import Backtrack.Rule
import Backtrack.Value.Arithmetic
namespace Backtrack

/-- What stands where a rule is expected. -/
inductive Operand where
  | rule (r : Rule)
  | value (v : Value)
deriving Inhabited

inductive Test where
  | predicate (p : Predicate)
  | rule (r : Rule)
  | value (v : Value)

inductive Conversion.Operand where
  | mapper (f : Mapper)
  | value (v : Value)

namespace Operand

def typeName : Operand → Text
  | rule r => r.typeName
  | value v => v.typeName

/-- The rule that an operand has to be to have an arity. -/
def requireArity : Operand → Except Failure Rule
  | rule r => .ok r
  | value v => .error (.noAttribute v.typeName "arity")

/-- The rule that an operand of a combinator has to be. -/
def require (combinator : Text) : Operand → Except Failure Rule
  | rule r => .ok r
  | value v =>
    .error (.typeError (Text.concat [combinator, " expects rules, got '", v.typeName, "'."]))

/-- The rules that the operands of a combinator have to be. -/
def requireAll (combinator : Text) : List Operand → Except Failure (List Rule)
  | [] => .ok []
  | o :: os => do
    let r ← o.require combinator
    let rs ← requireAll combinator os
    return r :: rs

end Operand

namespace Rule

/-! ## Checks -/

/-- Refuses a rule whose successes do not have exactly one value. -/
def requireSingle (combinator : Text) (r : Rule) : Except Failure Unit :=
  if r.arity = 1 then .ok ()
  else .error (.valueError (Text.concat [combinator,
    " needs a rule producing exactly one value, got ", Numeral.ofInt r.arity, "."]))

/-- Refuses a negative lower bound and an upper bound below the lower one. -/
def checkBounds (min : Int) (max : Option Int) : Except Failure Unit :=
  if min < 0 then .error (.valueError "`min` can't be negative.")
  else match max with
    | some most =>
      if most < min then .error (.valueError "`max` can't be lower than `min`.") else .ok ()
    | none => .ok ()

/-- The mapper for `count` arguments; one whose signature is not known is taken on trust. -/
def checkMapper (combinator : Text) (count : Int) :
    Conversion.Operand → Except Failure Mapper
  | .value v =>
    .error (.typeError (Text.concat [combinator, " expects a callable, got '", v.typeName, "'."]))
  | .mapper f =>
    match f.signature with
    | none => .ok f
    | some signature =>
      if signature.accepts count.toNat then .ok f
      else .error (.typeError (Text.concat [combinator, ": ", f.shown, " can't take ",
        Numeral.ofInt count, " positional argument(s)."]))

def noRules : Failure := .valueError "At least one rule required."

/-! ## Item rules -/

def notPredicate (typeName : Text) : Failure :=
  .typeError (Text.concat ["Expected a predicate, got '", typeName, "'."])

def makeIs : Test → Except Failure Rule
  | .predicate p => .ok (item (.is p))
  | .rule (item m) => .ok (item (.isMatch m))
  | .rule r => .error (notPredicate r.typeName)
  | .value v => .error (notPredicate v.typeName)

def makeNot : Test → Except Failure Rule
  | .predicate p => .ok (item (.not p))
  | .rule (item m) => .ok (item (.notMatch m))
  | .rule r => .error (notPredicate r.typeName)
  | .value v => .error (notPredicate v.typeName)

/-- One item that equals a member of a collection. -/
def makeAnyOf (collection : Value) : Except Failure Rule := do
  let members ← collection.elements
  if members.isEmpty then throw (.valueError "At least one member required.")
  return item (.anyOf (← Members.ofItems collection members))

/-- One item that equals the given one. -/
def makeOne (v : Value) : Except Failure Rule := do
  let _ ← Members.ofList [v]
  return item (.one v)

/-- The items of a sequence, which is not empty. -/
def makeSeq (content : Value) : Except Failure Rule := do
  let size ← content.length
  if size = 0 then throw (.valueError "The literal can't be empty.")
  return literal content

/-! ## Structural rules -/

def makeAnd (operands : List Operand) : Except Failure Rule := do
  if operands.isEmpty then throw noRules
  return and (← Operand.requireAll "And" operands)

def sortedDistinct (numbers : List Int) : List Int :=
  (numbers.foldl (fun kept n => if kept.contains n then kept else n :: kept) []).mergeSort

/-- The first of several rules that matches; all have the same number of values. -/
def makeOr (operands : List Operand) : Except Failure Rule := do
  if operands.isEmpty then throw noRules
  let rules ← Operand.requireAll "Or" operands
  let arities := sortedDistinct (rules.map arity)
  if 1 < arities.length then
    throw (.valueError (Text.concat [
      "All alternatives must produce the same number of values, got ",
      Text.bracketed "[" "]" (arities.map Numeral.ofInt), "."]))
  return or rules

/-- The left operand and then the right one. A left operand that is a sequence of rules is
continued; plain values are added. -/
def append : Operand → Operand → Except Failure Operand
  -- a sequence on the right stays a part of its own
  | .rule (and rules), right => .rule <$> makeAnd (rules.map .rule ++ [right])
  | .rule r, right => .rule <$> makeAnd [.rule r, right]
  | .value v, .value w => .value <$> v.add w
  | .value v, .rule r => .error (v.cannotAdd r.typeName)

def notChoice (left right : Operand) : Failure :=
  .typeError (Text.concat ["unsupported operand type(s) for |: '", left.typeName, "' and '",
    right.typeName, "'"])

/-- The left operand or else the right one. A left operand that is a choice is extended. -/
def orElse : Operand → Operand → Except Failure Operand
  | .rule (or rules), right => .rule <$> makeOr (rules.map .rule ++ [right])
  | .rule r, right => .rule <$> makeOr [.rule r, right]
  | .value v, right => .error (notChoice (.value v) right)

/-- A rule again and again, between `min` and `max` times. -/
def makeRepeat (operand : Operand) (min : Int) (max : Option Int) : Except Failure Rule := do
  let r ← operand.require "Repeat"
  requireSingle "Repeat" r
  checkBounds min max
  return repetition r min max

def makeOptional (operand : Operand) : Except Failure Rule := do
  let r ← operand.require "Optional"
  requireSingle "Optional" r
  return optional r

/-- Elements with separators between them, between `min` and `max` elements. -/
def makePunctuated (element separator : Operand) (min : Int) (max : Option Int) :
    Except Failure Rule := do
  let e ← element.require "Punctuated"
  let s ← separator.require "Punctuated"
  requireSingle "Punctuated" e
  requireSingle "Punctuated" s
  checkBounds min max
  -- an upper bound below the lower one was refused for that reason, so only zero is left
  match max with
  | some most => if most < 1 then throw (.valueError "`max` must be at least 1.")
  | none => pure ()
  return punctuated e s min max

/-- Two rules one after another, the value of the first being the argument of the second. -/
def makeAndWithArg (first second : Operand) : Except Failure Rule := do
  let r ← first.require "AndWithArg"
  let s ← second.require "AndWithArg"
  requireSingle "AndWithArg" r
  return andWithArg r s

/-! ## Conversions -/

/-- A rule whose values a mapper turns into one, with the argument as a last one if asked for. -/
def makeMap (conversion : Conversion) (operand : Operand) (fn : Conversion.Operand)
    (withArg : Bool) : Except Failure Rule := do
  -- the name of the type depends on the conversion alone
  let typeName := typeName (map conversion noOp (.anonymous fun _ => .ok .none) withArg)
  let r ← operand.require typeName
  let f ← checkMapper typeName (r.arity + if withArg then 1 else 0) fn
  return map conversion r f withArg

/-- A rule with the range of positions it covers: as a further value, or as the last argument of
a mapper; the value none stands for no mapper. -/
def makeMapRange (operand : Operand) (fn : Option Conversion.Operand) : Except Failure Rule := do
  let r ← operand.require "MapRange"
  match fn with
  | none | some (.value .none) => return mapRange r none
  | some fn => return mapRange r (some (← checkMapper "MapRange" (r.arity + 1) fn))

def makeDiscard (operand : Operand) : Except Failure Rule :=
  discard <$> operand.require "Discard"

/-- A rule that fails hard where it does not match. -/
def makeExpected (operand : Operand) (what : Value) : Except Failure Rule :=
  (expected · what) <$> operand.require "Expected"

/-- A rule whose plain mismatches get a label. -/
def makeName (operand : Operand) (label : Value) : Except Failure Rule :=
  (name · label) <$> operand.require "Name"

def makePeek (operand : Operand) : Except Failure Rule :=
  peek <$> operand.require "Peek"

def makeWrapper (operand : Operand) : Except Failure Rule :=
  wrapper <$> operand.require "Wrapper"

end Rule
end Backtrack
