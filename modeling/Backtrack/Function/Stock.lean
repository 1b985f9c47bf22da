/-
The stock of named predicates and mappers that a grammar can refer to.
-/
import Backtrack.Function
import Backtrack.Value.Arithmetic
import Backtrack.Value.Joining
namespace Backtrack

namespace Value

/-- The integer a value is, truth values not counting. -/
def integer? : Value → Option Int
  | int n => some n
  | _ => Option.none

/-- Whether the value is a text of one code point of a class. -/
def isCharacter (cls : Nat → Bool) : Value → Bool
  | str [c] => cls c
  | _ => false

/-- The integer that an item counts as in comparisons: itself, or the digit it is. -/
def digitOrInteger? : Value → Option Int
  | int n => some n
  | str [c] => if Text.isDigit c then some (c - 0x30 : Nat) else Option.none
  | _ => Option.none

end Value

/-! ## Predicates -/

namespace Predicate

def pure (name : String) (test : Value → Value → Value) : Predicate :=
  named name fun item arg => .ok (test item arg)

def ofItem (name : String) (test : Value → Bool) : Predicate :=
  pure name fun item _ => .bool (test item)

/-- Whether an item is below the argument, both being integers. -/
def below (item arg : Value) : Bool :=
  match item.digitOrInteger?, arg.integer? with
  | some m, some n => m < n
  | _, _ => false

/-- Whether the argument is a list that holds the item. -/
def listed (item arg : Value) : Bool :=
  match arg with
  | .list items => item.occursIn items
  | _ => false

/-- The stock of predicates. -/
def stock : List Predicate :=
  [pure "true" fun _ _ => .bool true,
    pure "false" fun _ _ => .bool false,
    pure "none" fun _ _ => .none,
    pure "item" fun item _ => item,
    pure "arg" fun _ arg => arg,
    pure "eq_arg" fun item arg => .bool (item.eqv arg),
    pure "lt_arg" fun item arg => .bool (below item arg),
    pure "in_arg" fun item arg => .bool (listed item arg),
    ofItem "is_alpha" (Value.isCharacter Text.isLetter),
    ofItem "is_digit" (Value.isCharacter Text.isDigit),
    ofItem "is_upper" (Value.isCharacter Text.isUpper),
    ofItem "non_ascii" (Value.isCharacter (127 < ·)),
    ofItem "is_str" fun item => item matches .str _,
    ofItem "is_int" fun item => item matches .int _,
    ofItem "is_even" fun item => item.integer?.any (· % 2 == 0),
    named "raise_value" fun _ _ => .error (.valueError "predicate failed"),
    named "raise_incomplete" fun _ _ =>
      .error (.incomplete (.int 7) (.str "predicate"))]

/-- The stock predicate with a name. -/
def named? (name : Text) : Option Predicate := stock.find? (·.name == name)

end Predicate

/-! ## Mappers -/

namespace Mapper

def argument (args : List Value) (i : Nat) : Value := args.getD i .none

/-- The sum of the integers among the arguments. -/
def sumOfIntegers (args : List Value) : Int := (args.filterMap Value.integer?).foldl (· + ·) 0

/-- The failure of an element of a dictionary that is no pair. -/
def notPair (index size : Nat) : Failure :=
  .valueError (Text.concat ["dictionary update sequence element #", Numeral.ofInt index,
    " has length ", Numeral.ofInt size, "; 2 is required"])

/-- The failure of an element of a dictionary that has no items. -/
def notSequence (index : Nat) : Failure :=
  .typeError (Text.concat ["cannot convert dictionary update sequence element #",
    Numeral.ofInt index, " to a sequence"])

/-- The entries that pairs of keys and values make, put into `entries` one after another. -/
def entriesOf (index : Nat) (entries : List (Value × Value)) :
    List Value → Except Failure (List (Value × Value))
  | [] => .ok entries
  | member :: rest =>
    match member.items? with
    | none => .error (notSequence index)
    | some [k, v] => do
      k.requireHashable
      entriesOf (index + 1) (Value.putEntry k v entries) rest
    | some items => .error (notPair index items.length)

def applyOperator (operator : Value) (a b : Int) : Option Int :=
  match operator with
  | .str [0x2b] => some (a + b)
  | .str [0x2d] => some (a - b)
  | .str [0x2a] => some (a * b)
  | _ => none

def foldOperators (value : Int) : List Value → Except Failure Value
  | [] => .ok (.int value)
  | step :: rest =>
    match step.tupleItems? with
    | some [operator, operand] =>
      match operand.integer? >>= applyOperator operator value with
      | some result => foldOperators result rest
      | none => .error (.typeError "not an operation")
    | _ => .error (.typeError "not an operation")

/-- Operations applied to a first number. -/
def foldLeft (head tail : Value) : Except Failure Value :=
  match head.integer?, tail with
  | some n, .list steps => foldOperators n steps
  | _, _ => .error (.typeError "not an operation")

def toInteger (v : Value) : Except Failure Value := do
  let t ← v.flatText
  if t.length ≤ 1000 && t.all Text.isDigit then
    match Numeral.read? 10 t with
    | some n => return .int n
    | none => throw (.valueError (Text.concat ["not an int: ", t]))
  else throw (.valueError (Text.concat ["not an int: ", t]))

def repeated (a n : Value) : Except Failure Value :=
  match n.integer? with
  | some _ => a.mul n
  | none => .error (.valueError "bad count")

def unary (name : String) (f : Value → Except Failure Value) : Mapper :=
  named name (.exactly 1) fun args => f (argument args 0)

def binary (name : String) (f : Value → Value → Except Failure Value) : Mapper :=
  named name (.exactly 2) fun args => f (argument args 0) (argument args 1)

def variadic (name : String) (f : List Value → Except Failure Value) : Mapper :=
  named name .any f

def constant (name : String) (v : Value) : Mapper := variadic name fun _ => .ok v

def failing (name : String) (f : Failure) : Mapper := variadic name fun _ => .error f

/-- The value if it passes a test, the other one if not. -/
def orElse (test : Value → Bool) (other : Value) (v : Value) : Except Failure Value :=
  .ok (if test v then v else other)

/-- Whether a value is a text that begins with a code point of a class. -/
def beginsWith (cls : Nat → Bool) : Value → Bool
  | .str (c :: _) => cls c
  | _ => false

/-- The stock of mappers. -/
def stock : List Mapper :=
  [unary "id" .ok,
    binary "pair" fun a b => .ok (.tuple [a, b]),
    binary "first" fun a _ => .ok a,
    binary "second" fun _ b => .ok b,
    named "opt_pair" (.between 1 (some 2)) fun args =>
      .ok (.tuple [argument args 0, argument args 1]),
    variadic "tuple" fun args => .ok (.tuple args),
    variadic "list" fun args => .ok (.list args),
    variadic "text" fun args => .str <$> Value.flatTextItems args,
    constant "none" .none,
    constant "true" (.bool true),
    constant "false" (.bool false),
    constant "empty" (.str []),
    named "zero" (.exactly 0) fun _ => .ok (.int 0),
    unary "count" fun a => (fun n : Nat => .int n) <$> a.length,
    unary "inc" fun a => .ok (.int (match a.integer? with | some n => n + 1 | none => 0)),
    variadic "sum" fun args => .ok (.int (sumOfIntegers args)),
    unary "upper" fun a => (fun t => .str (t.map Text.toUpper)) <$> a.flatText,
    unary "to_int" toInteger,
    binary "times" repeated,
    unary "even_or_none" (orElse (fun a => a.integer?.any (· % 2 == 0)) .none),
    unary "upper_or_none" (orElse (beginsWith Text.isUpper) .none),
    unary "lower_or_mismatch" (orElse (beginsWith Text.isLower) .mismatch),
    binary "dict" fun members _ => do
      return .dictionary (← entriesOf 0 [] (← members.visited)),
    binary "fold_left" foldLeft,
    named "kwonly" .never fun args => .ok (argument args 0),
    unary "kwonly_default" .ok,
    constant "mismatch" .mismatch,
    constant "named_mismatch" (.namedMismatch (.str "from fn")),
    failing "raise_value" (.valueError "mapper failed"),
    failing "raise_key" (.withText .keyError "missing"),
    failing "raise_zero" (.withText .zeroDivisionError "division by zero"),
    failing "raise_type" (.typeError "bad type"),
    failing "raise_incomplete" (.incomplete (.int 9) (.str "mapper")),
    failing "raise_named_incomplete"
      (.namedIncomplete (.int 9) (.str "mapper") (.str "part")),
    failing "raise_other" (.other (.value (.str "opaque"))),
    failing "raise_mismatch_error"
      (.mismatchError (.namedMismatch (.str "inner")) (.int 2))]

/-- The stock mapper with a name. -/
def named? (name : Text) : Option Mapper := stock.find? (·.name == name)

end Mapper
end Backtrack
