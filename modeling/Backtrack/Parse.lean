/-
Parsing as a whole: a rule is evaluated, a mismatch becomes a failure that tells where the cursor
stands, and a success gives its single value, or all values if the rule does not have exactly one.
-/
import Backtrack.Evaluation.Suspending
namespace Backtrack

def Evaluation.result (rule : Rule) (c : Cursor) : Outcome → Evaluation Value
  | .mismatch m => do
    let position ← positionOf c
    note (.unmatched rule position)
    fail (m.error (.int position))
  | .success vs => do
    note (.matched rule (← positionOf c))
    -- told by the rule, not by how many values there are
    if rule.arity = 1 then firstValue vs else return .values vs

/-- Parses from a cursor with a rule of a grammar under an argument. -/
def Evaluation.parse (g : Grammar) (path : Path) (fuel : Nat) (rule : Rule) (c : Cursor)
    (arg : Value) : Evaluation Value := do
  note (.parsing (.rule rule) path (← positionOf c))
  let outcome ← onFailure (eval g path fuel rule c arg) fun f => do
    if f.isHard then note (.failedHard rule f)
  result rule c outcome

def Evaluation.Suspending.parse (g : Grammar) (fuel : Nat) (rule : Rule) (c : Cursor)
    (arg : Value) : Evaluation Value := do
  note (.parsing (.rule rule) .suspending (← positionOf c))
  let outcome ← onFailure (Suspending.eval g fuel rule c arg) fun f => do
    if f.isHard then note (.failedHard rule f)
  result rule c outcome

/-! ## Operands that may not be rules -/

/-- The failure of evaluating a plain value. -/
def Evaluation.notRule (path : Path) (v : Value) : Failure :=
  .noAttribute v.typeName (if path = .suspending then "evaluate_async" else "evaluate")

def Evaluation.evalOperand (g : Grammar) (path : Path) (fuel : Nat) (operand : Operand)
    (c : Cursor) (arg : Value) : Evaluation Outcome :=
  match operand, path with
  | .rule r, .blocking => eval g .blocking fuel r c arg
  | .rule r, .suspending => Suspending.eval g fuel r c arg
  | .value v, _ => fail (notRule path v)

/-- Parses with an operand, which has to be a rule. -/
def Evaluation.parseOperand (g : Grammar) (path : Path) (fuel : Nat) (operand : Operand)
    (c : Cursor) (arg : Value) : Evaluation Value :=
  match operand, path with
  | .rule r, .blocking => parse g .blocking fuel r c arg
  | .rule r, .suspending => Suspending.parse g fuel r c arg
  | .value v, _ => do
    note (.parsing operand path (← positionOf c))
    fail (notRule path v)

/-! ## Whole parses -/

/-- More fuel than an evaluation of any practical length uses. -/
def Evaluation.ampleFuel : Nat := 1000000000000

def Evaluation.State.ofSource (s : Source) : Evaluation.State := ⟨s, .empty⟩

/-- Parses the items of a value from their start, in a blocking way. -/
def Grammar.parse (g : Grammar) (rule : Rule) (input arg : Value) : Except Halt Value := do
  let source ← (Source.ofValue input).mapError .failed
  (Evaluation.runFrom (.parse g .blocking Evaluation.ampleFuel rule .root arg)
    (.ofSource source)).1

end Backtrack
