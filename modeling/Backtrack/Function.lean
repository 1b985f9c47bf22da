/-
The functions that a grammar is parametrised by: predicates, which judge an item in the light of
the argument, and mappers, which turn the values of a success into one value. A mapper tells how
many arguments it takes unless that is not known.
-/
import Backtrack.Failure
namespace Backtrack

/-- How many arguments a function takes by position. -/
inductive Signature where
  | between (least : Nat) (most : Option Nat)
  | never
deriving DecidableEq, Repr

namespace Signature

def exactly (count : Nat) : Signature := between count (some count)

def any : Signature := between 0 none

def accepts : Signature → Nat → Bool
  | between least none, count => least ≤ count
  | between least (some most), count => least ≤ count && count ≤ most
  | never, _ => false

end Signature

/-- A test of an item under an argument; the truth of the value it gives counts. Calls of a
recorded predicate can be seen afterwards. -/
structure Predicate where
  shown : Text
  name : Text
  recorded : Bool
  run : Value → Value → Except Failure Value

/-- A conversion of values to a value, with its signature if that is known. -/
structure Mapper where
  shown : Text
  name : Text
  recorded : Bool
  signature : Option Signature
  run : List Value → Except Failure Value

namespace Predicate

/-- A predicate of a grammar, known by its name. -/
def named (name : Text) (run : Value → Value → Except Failure Value) : Predicate where
  shown := Text.concat ["<fn ", name, ">"]
  name := name
  recorded := true
  run := run

/-- A predicate without a name. -/
def anonymous (run : Value → Value → Except Failure Value) : Predicate where
  shown := "<function <lambda>>"
  name := []
  recorded := false
  run := run

end Predicate

namespace Mapper

/-- A mapper of a grammar, known by its name. A call that its signature refuses fails. -/
def named (name : Text) (signature : Signature)
    (run : List Value → Except Failure Value) : Mapper where
  shown := Text.concat ["<fn ", name, ">"]
  name := name
  recorded := true
  signature := some signature
  -- the call itself counts its arguments, so a signature that is kept secret is checked too
  run := fun args =>
    if signature.accepts args.length then run args
    else .error (.typeError (Text.concat [name, " called with ", Numeral.ofInt args.length,
      " argument(s)"]))

/-- A mapper without a name that takes any arguments. -/
def anonymous (run : List Value → Except Failure Value) : Mapper where
  shown := "<function <lambda>>"
  name := []
  recorded := false
  signature := some .any
  run := run

/-- The same mapper with its signature kept secret. -/
def hidden (f : Mapper) : Mapper := { f with signature := none }

end Mapper
end Backtrack
