/-
Blueprints: rules as they are written down, before any check. Building a blueprint builds its
parts in their order and then applies the constructor, so the first fault in this order is the one
that is reported.
-/
import Backtrack.Grammar
import Backtrack.Lexeme.Quotation
import Backtrack.Function.Stock
namespace Backtrack

inductive Lexeme.Kind where
  | anything
  | whitespace0
  | whitespace1
  | digit
  | digits
  | identifier
  | integer
  | float
  | unicodeEscape
deriving DecidableEq, Repr

def Lexeme.Kind.rule : Lexeme.Kind → Rule
  | anything => Lexeme.anything
  | whitespace0 => Lexeme.whitespace 0
  | whitespace1 => Lexeme.whitespace 1
  | digit => Lexeme.digit
  | digits => Lexeme.digits
  | identifier => Lexeme.identifier
  | integer => Lexeme.integer
  | float => Lexeme.float
  | unicodeEscape => Lexeme.unicodeEscape

/-- A rule as it is written down. A definition is referred to by its index, and `fresh` is one
that is never bound. In a `broken` one something behind the given parts cannot be made. -/
inductive Blueprint where
  | value (v : Value)
  | built (r : Rule)
  | reference (id : Nat)
  | fresh (arity : Int)
  | lexeme (kind : Lexeme.Kind)
  | is (p : Predicate)
  | isLike (test : Blueprint)
  | not (p : Predicate)
  | notLike (test : Blueprint)
  | anyOf (members : Value)
  | one (item : Value)
  | literal (content : Value)
  | start
  | finish
  | noOp
  | never (arity : Int)
  | and (rules : List Blueprint)
  | or (rules : List Blueprint)
  | append (left right : Blueprint)
  | orElse (left right : Blueprint)
  | repetition (rule : Blueprint) (min : Int) (max : Option Int)
  | optional (rule : Blueprint)
  | punctuated (element separator : Blueprint) (min : Int) (max : Option Int)
  | andWithArg (first second : Blueprint)
  | map (conversion : Conversion) (rule : Blueprint) (fn : Conversion.Operand) (withArg : Bool)
  | mapRange (rule : Blueprint) (fn : Option Conversion.Operand)
  | discard (rule : Blueprint)
  | expected (rule : Blueprint) (what : Value)
  | name (rule : Blueprint) (label : Value)
  | peek (rule : Blueprint)
  | wrapper (rule : Blueprint)
  | quotedString (quotes escape escapes : Value) (advanced : List Blueprint)
  | rawQuotedString (quotes opening : Value)
  | abstract
  | abstractItem
  | broken (parts : List Blueprint) (f : Failure)

namespace Blueprint

def ruled (r : Except Failure Rule) : Except Failure Operand := Operand.rule <$> r

def testOf : Operand → Test
  | .rule r => .rule r
  | .value v => .value v

mutual

/-- What a blueprint stands for in a grammar. -/
def build (g : Grammar) : Blueprint → Except Failure Operand
  | value v => .ok (.value v)
  | built r => .ok (.rule r)
  | reference id => .ok (.rule (g.reference id))
  | fresh n => .ok (.rule (.reference none n))
  | lexeme kind => .ok (.rule kind.rule)
  | is p => ruled (Rule.makeIs (.predicate p))
  | isLike test => do ruled (Rule.makeIs (testOf (← build g test)))
  | not p => ruled (Rule.makeNot (.predicate p))
  | notLike test => do ruled (Rule.makeNot (testOf (← build g test)))
  | anyOf members => ruled (Rule.makeAnyOf members)
  | one v => ruled (Rule.makeOne v)
  | literal content => ruled (Rule.makeSeq content)
  | start => .ok (.rule .start)
  | finish => .ok (.rule .finish)
  | noOp => .ok (.rule .noOp)
  | never n => .ok (.rule (.never n))
  | and rules => do ruled (Rule.makeAnd (← buildAll g rules))
  | or rules => do ruled (Rule.makeOr (← buildAll g rules))
  | append left right => do
    let l ← build g left
    let r ← build g right
    Rule.append l r
  | orElse left right => do
    let l ← build g left
    let r ← build g right
    Rule.orElse l r
  | repetition rule min max => do ruled (Rule.makeRepeat (← build g rule) min max)
  | optional rule => do ruled (Rule.makeOptional (← build g rule))
  | punctuated element separator min max => do
    let e ← build g element
    let s ← build g separator
    ruled (Rule.makePunctuated e s min max)
  | andWithArg first second => do
    let r ← build g first
    let s ← build g second
    ruled (Rule.makeAndWithArg r s)
  | map conversion rule fn withArg => do
    ruled (Rule.makeMap conversion (← build g rule) fn withArg)
  | mapRange rule fn => do ruled (Rule.makeMapRange (← build g rule) fn)
  | discard rule => do ruled (Rule.makeDiscard (← build g rule))
  | expected rule what => do ruled (Rule.makeExpected (← build g rule) what)
  | name rule label => do ruled (Rule.makeName (← build g rule) label)
  | peek rule => do ruled (Rule.makePeek (← build g rule))
  | wrapper rule => do ruled (Rule.makeWrapper (← build g rule))
  | quotedString quotes escape escapes advanced => do
    ruled (Lexeme.quotedString quotes escape escapes (← buildAll g advanced))
  | rawQuotedString quotes opening => ruled (Lexeme.rawQuotedString quotes opening)
  | abstract => .ok (.rule .abstract)
  | abstractItem => .ok (.rule (.item .abstract))
  | broken parts f => do
    -- a fault in the parts comes before the fault behind them
    let _ ← buildAll g parts
    throw f

/-- What several blueprints stand for, the first fault ending. -/
def buildAll (g : Grammar) : List Blueprint → Except Failure (List Operand)
  | [] => .ok []
  | b :: bs => do
    let o ← build g b
    let os ← buildAll g bs
    return o :: os

end

end Blueprint

namespace Grammar

/-- Gives definitions their rules, one after another. -/
def defineAll (g : Grammar) : List (Nat × Blueprint) → Except Failure Grammar
  | [] => .ok g
  | (id, b) :: rest => do
    let g ← g.define id (← b.build g)
    defineAll g rest

/-- The grammar with definitions of the given arities, some of which get rules. -/
def ofBlueprints (arities : List Int) (rules : List (Nat × Blueprint)) :
    Except Failure Grammar :=
  defineAll (arities.foldl declare empty) rules

end Grammar
end Backtrack
