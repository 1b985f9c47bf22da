/-
Ready rules for text that comes character by character: any item, white space, digits and names.
-/
import Backtrack.Rule
import Backtrack.ItemSet
import Backtrack.Value.Joining
namespace Backtrack.Lexeme

/-- One item of a set. -/
def oneOf (members : List Value) : Rule := .item (.anyOf (.set (Members.distinct members [])))

def character (c : Nat) : Rule := .item (.one (.str [c]))

/-- The values of a rule as one value. -/
def mapped (rule : Rule) (run : List Value → Except Failure Value) : Rule :=
  .map .total rule (.anonymous run) false

/-- The texts among all values joined. -/
def joined (rule : Rule) : Rule := mapped rule fun vs => .str <$> Value.joinParts vs

def anything : Rule := .item (.is (.anonymous fun _ _ => .ok (.bool true)))

def whitespace (least : Int) : Rule :=
  .discard (.repetition (oneOf ItemSet.whitespaces) least none)

def digit : Rule := oneOf ItemSet.decimal

def digits : Rule := joined (.repetition digit 1 none)

/-- A letter or an underscore, and any number of letters, underscores and digits. -/
def identifier : Rule :=
  joined (.and [oneOf ItemSet.identifierStart, .repetition (oneOf ItemSet.identifier) 0 none])

end Backtrack.Lexeme
