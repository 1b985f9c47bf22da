/-
What each rule does on the suspending path. Wherever a rule reads or evaluates a part, it may leave
off until the feed goes on, so rules with a flow of their own are written out once more for it; what
happens without reading, such as converting values, is shared with the blocking path. The two have
to keep in step.
-/
import Backtrack.Evaluation.Rule
import Backtrack.Source.Suspending
namespace Backtrack.Evaluation.Suspending

/-! ## Rules without parts -/

def item (c : Cursor) (arg : Value) (m : Matcher) : Evaluation Outcome := do
  let items ← onSource (Source.readSuspending c 1)
  match items.get? 0 with
  | none => return .noMatch
  | some v =>
    if ← passes .suspending v arg m then
      onSource (Source.consume c 1)
      return .single v
    else return .noMatch

/-- Whether the next items are the expected ones from the `index`th on, of which `left` are left. -/
def lookAhead (c : Cursor) (expected : Sequence) (index : Nat) : (left : Nat) → Evaluation Bool
  | 0 => return true
  | left + 1 => do
    let items ← onSource (Source.readSuspending c (index + 1))
    match items.get? index, expected.get? index with
    | some v, some w =>
      if v.eqv w then lookAhead c expected (index + 1) left else return false
    | _, _ => return false

def literal (c : Cursor) (content : Value) : Evaluation Outcome := do
  let expected ← ofExcept (Sequence.ofElements content)
  if ← lookAhead c expected 0 expected.size then
    onSource (Source.consume c expected.size)
    return .single content
  else return .noMatch

def start (c : Cursor) : Evaluation Outcome := do
  if (← positionOf c) = 0 then return .success [] else return .noMatch

def finish (c : Cursor) : Evaluation Outcome := do
  let items ← onSource (Source.readSuspending c 1)
  return if items.size = 0 then .success [] else .noMatch

/-! ## Rules with parts -/

def sequence (run : Rule → Evaluation Outcome) (values : List Value) :
    List Rule → Evaluation Outcome
  | [] => return .success values
  | r :: rs => do
    match ← run r with
    | .mismatch m => return .mismatch m
    | .success vs => sequence run (values ++ vs) rs

def choice (run : Cursor → Rule → Evaluation Outcome) (c : Cursor) :
    List Rule → Evaluation Outcome
  | [] => return .noMatch
  | r :: rs => do
    let fork ← onSource (Source.fork c)
    let outcome ← onFailure (run fork r) fun f => do
      if f.isHard then
        onSource (Source.join fork)
        note (.alternativeFailed r f)
    match outcome with
    | .success vs => do
      onSource (Source.join fork)
      return .success vs
    | .mismatch _ => do
      onSource (Source.close fork)
      choice run c rs

def repetition (body : Evaluation Outcome) (min : Int) (max : Option Int) :
    (fuel : Nat) → (count : Int) → (reversed : List Value) → Evaluation Outcome
  | 0, count, reversed =>
    if isFull max count then return repeated min count none reversed else throw .outOfFuel
  | fuel + 1, count, reversed => do
    if isFull max count then return repeated min count none reversed
    match ← body with
    | .mismatch m => return repeated min count (some m) reversed
    | .success vs => do
      let v ← firstValue vs
      repetition body min max fuel (count + 1) (v :: reversed)

def separated (element separator : Cursor → Evaluation Outcome) (c : Cursor) :
    Evaluation (Except Mismatch (Value × Value)) := do
  let fork ← onSource (Source.fork c)
  match ← separator fork with
  | .mismatch m => do
    onSource (Source.close fork)
    return .error m
  | .success ss => do
    match ← element fork with
    | .mismatch m => do
      onSource (Source.close fork)
      return .error m
    | .success es => do
      onSource (Source.join fork)
      let s ← firstValue ss
      let e ← firstValue es
      return .ok (s, e)

def punctuatedRest (pair : Evaluation (Except Mismatch (Value × Value))) (min : Int)
    (max : Option Int) :
    (fuel : Nat) → (count : Int) → (elements separators : List Value) → Evaluation Outcome
  | 0, count, elements, separators =>
    if isFull max count then return punctuatedResult min count none elements separators
    else throw .outOfFuel
  | fuel + 1, count, elements, separators => do
    if isFull max count then return punctuatedResult min count none elements separators
    match ← pair with
    | .error m => return punctuatedResult min count (some m) elements separators
    | .ok (s, e) => punctuatedRest pair min max fuel (count + 1) (e :: elements) (s :: separators)

def punctuated (element separator : Cursor → Evaluation Outcome) (c : Cursor) (min : Int)
    (max : Option Int) (fuel : Nat) : Evaluation Outcome := do
  match ← element c with
  | .mismatch m => return punctuatedResult min 0 (some m) [] []
  | .success es => do
    let e ← firstValue es
    punctuatedRest (separated element separator c) min max fuel 1 [e] []

def optional (body : Evaluation Outcome) : Evaluation Outcome := do
  match ← body with
  | .success vs => return .single (← firstValue vs)
  | .mismatch _ => return .single .none

def andWithArg (first : Evaluation Outcome) (second : Value → Evaluation Outcome) :
    Evaluation Outcome := do
  match ← first with
  | .mismatch m => return .mismatch m
  | .success vs => do
    match ← second (← firstValue vs) with
    | .mismatch m => return .mismatch m
    | .success ws => return .success (vs ++ ws)

def mapRange (body : Evaluation Outcome) (c : Cursor) (fn : Option Mapper) :
    Evaluation Outcome := do
  let first ← positionOf c
  match ← body with
  | .mismatch m => return .mismatch m
  | .success vs => do
    let span := .range first (← positionOf c) 1
    match fn with
    | none => return .success (vs ++ [span])
    | some fn => call .suspending .total fn (vs ++ [span])

def peek (run : Cursor → Evaluation Outcome) (c : Cursor) : Evaluation Outcome := do
  let fork ← onSource (Source.fork c)
  let outcome ← onFailure (run fork) fun _ => onSource (Source.close fork)
  onSource (Source.close fork)
  return outcome

/-! ## All rules -/

def eval (g : Grammar) :
    (fuel : Nat) → Rule → Cursor → (arg : Value) → Evaluation Outcome
  | 0, _, _, _ => throw .outOfFuel
  | fuel + 1, rule, c, arg =>
    match rule with
    | .item m => item c arg m
    | .literal content => literal c content
    | .start => start c
    | .finish => finish c
    | .noOp => return .success []
    | .never _ => return .noMatch
    | .reference target _ =>
      match target.bind g.rule? with
      | some r => eval g fuel r c arg
      | none => fail unbound
    | .and rules => sequence (fun r => eval g fuel r c arg) [] rules
    | .or rules => choice (fun fork r => eval g fuel r fork arg) c rules
    | .repetition r min max => repetition (eval g fuel r c arg) min max fuel 0 []
    | .optional r => optional (eval g fuel r c arg)
    | .punctuated element separator min max =>
      punctuated (fun c => eval g fuel element c arg) (fun c => eval g fuel separator c arg)
        c min max fuel
    | .andWithArg first second =>
      andWithArg (eval g fuel first c arg) (fun v => eval g fuel second c v)
    | .map conversion r fn withArg =>
      map .suspending conversion (eval g fuel r c arg) fn (if withArg then [arg] else [])
    | .mapRange r fn => mapRange (eval g fuel r c arg) c fn
    -- values dropped and labels given need no rule of their own here
    | .discard r => valueless <$> eval g fuel r c arg
    | .expected r what => expected (eval g fuel r c arg) c what
    | .name r label => labelled label <$> eval g fuel r c arg
    | .peek r => peek (fun fork => eval g fuel r fork arg) c
    | .wrapper r => eval g fuel r c arg
    | .abstract => fail notImplemented

end Backtrack.Evaluation.Suspending
