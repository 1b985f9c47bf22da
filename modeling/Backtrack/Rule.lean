/-
Rules: what a grammar is made of. A rule is data; `Backtrack.Rule.Construct` builds the admissible
ones and `Backtrack.Evaluation` says what each of them does. The arity of a rule is the number of
values of its successes.
-/
import Backtrack.Matcher
namespace Backtrack

/-- How a mapper's result is taken: as a value; as a value or mismatch, with failures of some
classes wrapped; as a value, or a mismatch if it is the value none. -/
inductive Conversion where
  | total
  | attempt (wrap : List ErrorClass)
  | optional
deriving DecidableEq, Repr

/-- A rule. A reference stands for a definition of the grammar, or for none at all. -/
inductive Rule where
  | item (m : Matcher)
  | literal (content : Value)
  | start
  | finish
  | noOp
  | never (arity : Int)
  | reference (target : Option Nat) (arity : Int)
  | and (rules : List Rule)
  | or (rules : List Rule)
  | repetition (rule : Rule) (min : Int) (max : Option Int)
  | optional (rule : Rule)
  | punctuated (element separator : Rule) (min : Int) (max : Option Int)
  | andWithArg (first second : Rule)
  | map (conversion : Conversion) (rule : Rule) (fn : Mapper) (withArg : Bool)
  | mapRange (rule : Rule) (fn : Option Mapper)
  | discard (rule : Rule)
  | expected (rule : Rule) (what : Value)
  | name (rule : Rule) (label : Value)
  | peek (rule : Rule)
  | wrapper (rule : Rule)
  | abstract

instance : Inhabited Rule := ⟨.noOp⟩

namespace Rule

mutual

/-- How many values a success of the rule has. -/
def arity : Rule → Int
  | item _ | literal _ | repetition .. | optional _ | map .. | abstract => 1
  | start | finish | noOp | discard _ => 0
  | never n | reference _ n => n
  | and rules => arityOfAll rules
  | or rules => arityOfFirst rules
  | punctuated .. => 2
  | andWithArg _ second => 1 + arity second
  | mapRange rule none => arity rule + 1
  | mapRange _ (some _) => 1
  | expected rule _ | name rule _ | peek rule | wrapper rule => arity rule

def arityOfAll : List Rule → Int
  | [] => 0
  | r :: rs => arity r + arityOfAll rs

/-- The arity of the first of several rules. -/
def arityOfFirst : List Rule → Int
  | [] => 0
  | r :: _ => arity r

end

def typeName : Rule → Text
  | item m => m.typeName
  | literal _ => "Seq"
  | start => "Start"
  | finish => "End"
  | noOp => "NoOp"
  | never _ => "Never"
  | reference .. => "Define"
  | and _ => "And"
  | or _ => "Or"
  | repetition .. => "Repeat"
  | optional _ => "Optional"
  | punctuated .. => "Punctuated"
  | andWithArg .. => "AndWithArg"
  | map .total .. => "Map"
  | map (.attempt _) .. => "TryMap"
  | map .optional .. => "IsMap"
  | mapRange .. => "MapRange"
  | discard _ => "Discard"
  | expected .. => "Expected"
  | name .. => "Name"
  | peek _ => "Peek"
  | wrapper _ => "Wrapper"
  | abstract => "Rule"

def displayMax : Option Int → Text
  | none => "None"
  | some n => Numeral.ofInt n

def displayWith (typeName : Text) (parts : List Text) : Text :=
  typeName ++ Text.bracketed "(" ")" parts

mutual

/-- The shown form of a rule, where `bound` tells which definitions have a rule. -/
def display (bound : Nat → Bool) : Rule → Text
  | item m => m.display
  | literal content => displayWith "Seq" [content.display]
  | start => "Start()"
  | finish => "End()"
  | noOp => "NoOp()"
  | never n => displayWith "Never" [Numeral.ofInt n]
  | reference (some id) _ => if bound id then "Define(bound)" else "Define(unbound)"
  | reference none _ => "Define(unbound)"
  | and rules => Text.concat ["And", Text.tupled (displayAll bound rules)]
  | or rules => Text.concat ["Or", Text.tupled (displayAll bound rules)]
  | repetition rule min max =>
    displayWith "Repeat" [display bound rule, Numeral.ofInt min, displayMax max]
  | optional rule => displayWith "Optional" [display bound rule]
  | punctuated element separator min max =>
    displayWith "Punctuated"
      [display bound element, display bound separator, Numeral.ofInt min, displayMax max]
  | andWithArg first second =>
    displayWith "AndWithArg" [display bound first, display bound second]
  | map conversion rule fn withArg =>
    displayWith (typeName (map conversion rule fn withArg)) [display bound rule]
  | mapRange rule _ => displayWith "MapRange" [display bound rule]
  | discard rule => displayWith "Discard" [display bound rule]
  | expected rule what => displayWith "Expected" [display bound rule, what.display]
  | name rule label => displayWith "Name" [display bound rule, label.display]
  | peek rule => displayWith "Peek" [display bound rule]
  | wrapper rule => displayWith "Wrapper" [display bound rule]
  | abstract => "<forkparse.ops.Rule object>"

def displayAll (bound : Nat → Bool) : List Rule → List Text
  | [] => []
  | r :: rs => display bound r :: displayAll bound rs

end

mutual

/-- Whether every integer that a rule shows can be shown. -/
def isShowable : Rule → Bool
  | item m => m.isShowable
  | literal content => content.isShowable
  | never n => Value.isShortInteger n
  | start | finish | noOp | abstract | reference .. => true
  | and rules | or rules => areShowable rules
  | repetition rule min max =>
    isShowable rule && Value.isShortInteger min && max.all Value.isShortInteger
  | punctuated element separator min max =>
    isShowable element && isShowable separator && Value.isShortInteger min &&
      max.all Value.isShortInteger
  | andWithArg first second => isShowable first && isShowable second
  | optional rule | map _ rule _ _ | mapRange rule _ | discard rule | peek rule
  | wrapper rule => isShowable rule
  | expected rule what => isShowable rule && what.isShowable
  | name rule label => isShowable rule && label.isShowable

def areShowable : List Rule → Bool
  | [] => true
  | r :: rs => isShowable r && areShowable rs

end

end Rule
end Backtrack
