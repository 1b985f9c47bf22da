/-
Failures made of their class and arguments. The classes of the library take a fixed number of
arguments; a failure of the operating system made of number and reason gets the class that its
number tells; every other class takes any arguments.
-/
import Backtrack.Outcome
namespace Backtrack.Failure

def enumerated : List Text → Text
  | [] => []
  | [a] => Text.quoted a
  | [a, b] => Text.concat [Text.quoted a, " and ", Text.quoted b]
  | [a, b, c] => Text.concat [Text.quoted a, ", ", Text.quoted b, ", and ", Text.quoted c]
  | a :: rest => Text.concat [Text.quoted a, ", ", enumerated rest]

def missing (cls : ErrorClass) (names : List Text) : Failure :=
  let noun : Text := if names.length = 1 then "argument" else "arguments"
  typeError (Text.concat [cls.name, ".__init__() missing ", Numeral.ofInt names.length,
    " required positional ", noun, ": ", enumerated names])

/-- The failure of making a failure of too many arguments, the failure itself counting as one. -/
def tooMany (cls : ErrorClass) (admitted : Text) (given : Nat) : Failure :=
  typeError (Text.concat [cls.name, ".__init__() takes ", admitted,
    " positional arguments but ", Numeral.ofInt (given + 1), " were given"])

/-- The value that stands for an argument: a failure counts by its text. -/
def argumentValue : Payload → Value
  | .value v => v
  | .failure f => .str f.message

/-- The mismatch that an argument has to be, anything else having no label. -/
def reasonOf (arg : Payload) : Except Failure Mismatch :=
  match arg with
  | .value v => Mismatch.require v "label"
  | .failure f => .error (noAttribute f.cls.name "label")

/-- The class of a failure by the class asked for and its arguments. -/
def systemClass (cls : ErrorClass) (args : List Payload) : ErrorClass :=
  -- the classes below are not looked at: they are what they were asked for
  match cls, args with
  | .osError, .value code :: _ :: _ =>
    match code.number? with
    | some (.whole n) => if isSystem cls args.length then .ofSystemCode n else cls
    | _ => cls
  | _, _ => cls

/-- The failure itself if its text can be made, which may hold integers that are too long. -/
def tellable (f : Failure) : Except Failure Failure :=
  if f.isShowable then .ok f else .error tooLongToShow

def make (cls : ErrorClass) (args : List Payload) : Except Failure Failure :=
  match cls, args with
  | .mismatchError, [] => .error (missing cls ["failure"])
  | .mismatchError, [m] => do tellable ((← reasonOf m).error .none)
  | .mismatchError, [m, p] => do tellable ((← reasonOf m).error (argumentValue p))
  | .mismatchError, args => .error (tooMany cls "from 2 to 3" args.length)
  | .incomplete, [] => .error (missing cls ["position", "name"])
  | .incomplete, [_] => .error (missing cls ["name"])
  | .incomplete, [p, n] => tellable (incomplete (argumentValue p) (argumentValue n))
  | .incomplete, args => .error (tooMany cls "3" args.length)
  | .namedIncomplete, [] => .error (missing cls ["position", "name", "component_name"])
  | .namedIncomplete, [_] => .error (missing cls ["name", "component_name"])
  | .namedIncomplete, [_, _] => .error (missing cls ["component_name"])
  | .namedIncomplete, [p, n, c] =>
    tellable (namedIncomplete (argumentValue p) (argumentValue n) (argumentValue c))
  | .namedIncomplete, args => .error (tooMany cls "4" args.length)
  | .other, [] => .error (missing cls ["error"])
  | .other, [inner] => tellable (other inner)
  | .other, args => .error (tooMany cls "2" args.length)
  | cls, args => .ok (plain (systemClass cls args) args)

end Backtrack.Failure
