/-
Grammars: the definitions that references of rules stand for. A definition is declared with an
arity and given its rule once, afterwards, so that rules can be recursive.
-/
import Backtrack.Rule.Construct
namespace Backtrack

/-- A declared arity and, once it is given, the rule. -/
structure Definition where
  arity : Int
  rule : Option Rule
deriving Inhabited

/-- The definitions of a grammar; a reference holds an index among them. -/
structure Grammar where
  definitions : Array Definition
deriving Inhabited

namespace Grammar

def empty : Grammar := ⟨#[]⟩

def rule? (g : Grammar) (id : Nat) : Option Rule := g.definitions[id]? >>= Definition.rule

def isBound (g : Grammar) (id : Nat) : Bool := (g.rule? id).isSome

/-- The reference to a definition; one that the grammar lacks is never bound. -/
def reference (g : Grammar) (id : Nat) : Rule :=
  match g.definitions[id]? with
  | some d => .reference (some id) d.arity
  | none => .reference none 1

def display (g : Grammar) (r : Rule) : Text := r.display g.isBound

/-- The shown form of a rule, or the failure of showing an integer that is too long for it. -/
def shown (g : Grammar) (r : Rule) : Except Failure Text :=
  if r.isShowable then .ok (g.display r) else .error .tooLongToShow

def displayOperand (g : Grammar) : Operand → Text
  | .rule r => g.display r
  | .value v => v.display

/-- One more definition without a rule. -/
def declare (g : Grammar) (arity : Int) : Grammar := ⟨g.definitions.push ⟨arity, none⟩⟩

def alreadyDefined : Failure := .runtimeError "The rule was already defined."

def wrongArity (declared actual : Int) : Failure :=
  .valueError (Text.concat ["Declared with arity ", Numeral.ofInt declared,
    ", got a rule with arity ", Numeral.ofInt actual, "."])

/-- Gives a definition its rule: once, and one of the declared arity. -/
def define (g : Grammar) (id : Nat) (operand : Operand) : Except Failure Grammar := do
  let r ← operand.require "Define"
  match g.definitions[id]? with
  -- a definition that is not there takes any rule and keeps none
  | none => return g
  | some d =>
    if d.rule.isSome then throw alreadyDefined
    if r.arity ≠ d.arity then throw (wrongArity d.arity r.arity)
    return ⟨g.definitions.setIfInBounds id { d with rule := some r }⟩

end Grammar
end Backtrack
