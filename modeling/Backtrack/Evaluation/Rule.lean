/-
What each rule does. The rule is evaluated at a cursor under an argument, on the blocking or the
suspending path. A success leaves the cursor behind what was matched; a mismatch leaves it where
the rule had got to, which only a choice, a lookahead or a pair of separator and element undo, by
working in a fork of their own.
-/
import Backtrack.Evaluation
namespace Backtrack.Evaluation

/-! ## Rules without parts -/

def item (path : Path) (c : Cursor) (arg : Value) (m : Matcher) : Evaluation Outcome := do
  let items ← onSource (Source.read path c 1)
  match items.get? 0 with
  | none => return .noMatch
  | some v =>
    if ← passes path v arg m then
      onSource (Source.consume c 1)
      return .single v
    else return .noMatch

/-- Whether the next items are the expected ones from the `index`th on, of which `left` are left;
looks ahead by one more item at a time. -/
def lookAhead (path : Path) (c : Cursor) (expected : Sequence) (index : Nat) :
    (left : Nat) → Evaluation Bool
  | 0 => return true
  | left + 1 => do
    -- what was read before still waits, so the feed is asked for one more item
    let items ← onSource (Source.read path c (index + 1))
    match items.get? index, expected.get? index with
    | some v, some w =>
      if v.eqv w then lookAhead path c expected (index + 1) left else return false
    | _, _ => return false

/-- The items of a sequence, consumed at once and standing for the sequence itself. -/
def literal (path : Path) (c : Cursor) (content : Value) : Evaluation Outcome := do
  let expected ← ofExcept (Sequence.ofElements content)
  if ← lookAhead path c expected 0 expected.size then
    onSource (Source.consume c expected.size)
    return .single content
  else return .noMatch

def start (c : Cursor) : Evaluation Outcome := do
  if (← positionOf c) = 0 then return .success [] else return .noMatch

def finish (path : Path) (c : Cursor) : Evaluation Outcome := do
  let items ← onSource (Source.read path c 1)
  return if items.size = 0 then .success [] else .noMatch

/-! ## Rules with parts -/

/-- All rules one after another, their values behind `values`. -/
def sequence (run : Rule → Evaluation Outcome) (values : List Value) :
    List Rule → Evaluation Outcome
  | [] => return .success values
  | r :: rs => do
    match ← run r with
    | .mismatch m => return .mismatch m
    | .success vs => sequence run (values ++ vs) rs

/-- The first rule that matches, each in a fork of its own. A hard failure keeps what was
consumed and ends the choice. -/
def choice (run : Cursor → Rule → Evaluation Outcome) (c : Cursor) :
    List Rule → Evaluation Outcome
  | [] => return .noMatch
  | r :: rs => do
    let fork ← onSource (Source.fork c)
    let outcome ← onFailure (run fork r) fun f => do
      -- any other failure leaves the fork behind, and with it what was consumed
      if f.isHard then
        onSource (Source.join fork)
        note (.alternativeFailed r f)
    match outcome with
    | .success vs => do
      onSource (Source.join fork)
      return .success vs
    | .mismatch _ => do
      onSource (Source.close fork)
      choice run c rs

def isFull (max : Option Int) (count : Int) : Bool :=
  match max with
  | none => false
  | some most => most ≤ count

/-- The list of a repetition that has come to its end, or the mismatch that ended it too early. -/
def repeated (min count : Int) (last : Option Mismatch) (reversed : List Value) : Outcome :=
  if count < min then .mismatch (last.getD .plain) else .single (.list reversed.reverse)

/-- A rule again and again, `count` values being there already. -/
def repetition (body : Evaluation Outcome) (min : Int) (max : Option Int) :
    (fuel : Nat) → (count : Int) → (reversed : List Value) → Evaluation Outcome
  | 0, count, reversed =>
    if isFull max count then return repeated min count none reversed else throw .outOfFuel
  | fuel + 1, count, reversed => do
    if isFull max count then return repeated min count none reversed
    -- what a last attempt consumed stays consumed
    match ← body with
    | .mismatch m => return repeated min count (some m) reversed
    | .success vs => do
      let v ← firstValue vs
      repetition body min max fuel (count + 1) (v :: reversed)

/-- The elements and separators that were found, or the mismatch that came too early. -/
def punctuatedResult (min count : Int) (last : Option Mismatch)
    (elements separators : List Value) : Outcome :=
  if count < min then .mismatch (last.getD .plain)
  else .success [.list elements.reverse, .list separators.reverse]

/-- A separator and an element in a fork, which is joined if both match. -/
def separated (element separator : Cursor → Evaluation Outcome) (c : Cursor) :
    Evaluation (Except Mismatch (Value × Value)) := do
  let fork ← onSource (Source.fork c)
  match ← separator fork with
  | .mismatch m => do
    onSource (Source.close fork)
    return .error m
  | .success ss => do
    match ← element fork with
    | .mismatch m => do
      onSource (Source.close fork)
      return .error m
    | .success es => do
      -- joined before the values are looked at
      onSource (Source.join fork)
      let s ← firstValue ss
      let e ← firstValue es
      return .ok (s, e)

/-- Further pairs of separator and element, `count` elements being there already. -/
def punctuatedRest (pair : Evaluation (Except Mismatch (Value × Value))) (min : Int)
    (max : Option Int) :
    (fuel : Nat) → (count : Int) → (elements separators : List Value) → Evaluation Outcome
  | 0, count, elements, separators =>
    if isFull max count then return punctuatedResult min count none elements separators
    else throw .outOfFuel
  | fuel + 1, count, elements, separators => do
    if isFull max count then return punctuatedResult min count none elements separators
    match ← pair with
    | .error m => return punctuatedResult min count (some m) elements separators
    | .ok (s, e) => punctuatedRest pair min max fuel (count + 1) (e :: elements) (s :: separators)

/-- Elements with separators between them. -/
def punctuated (element separator : Cursor → Evaluation Outcome) (c : Cursor) (min : Int)
    (max : Option Int) (fuel : Nat) : Evaluation Outcome := do
  match ← element c with
  | .mismatch m => return punctuatedResult min 0 (some m) [] []
  | .success es => do
    let e ← firstValue es
    punctuatedRest (separated element separator c) min max fuel 1 [e] []

def optional (body : Evaluation Outcome) : Evaluation Outcome := do
  match ← body with
  | .success vs => return .single (← firstValue vs)
  | .mismatch _ => return .single .none

def andWithArg (first : Evaluation Outcome) (second : Value → Evaluation Outcome) :
    Evaluation Outcome := do
  match ← first with
  | .mismatch m => return .mismatch m
  | .success vs => do
    match ← second (← firstValue vs) with
    | .mismatch m => return .mismatch m
    | .success ws => return .success (vs ++ ws)

/-- The values of a rule converted to one. -/
def map (path : Path) (conversion : Conversion) (body : Evaluation Outcome) (fn : Mapper)
    (extra : List Value) : Evaluation Outcome := do
  match ← body with
  | .mismatch m => return .mismatch m
  | .success vs => call path conversion fn (vs ++ extra)

/-- The values of a rule with the range of positions that it covers. -/
def mapRange (path : Path) (body : Evaluation Outcome) (c : Cursor) (fn : Option Mapper) :
    Evaluation Outcome := do
  let first ← positionOf c
  match ← body with
  | .mismatch m => return .mismatch m
  | .success vs => do
    let span := .range first (← positionOf c) 1
    match fn with
    | none => return .success (vs ++ [span])
    | some fn => call path .total fn (vs ++ [span])

/-- The failure of a structure that broke off where a cursor stands. -/
def incomplete (position : Int) (what : Value) : Mismatch → Failure
  | .plain => .incomplete (.int position) what
  | .named label => .namedIncomplete (.int position) what label

def expected (body : Evaluation Outcome) (c : Cursor) (what : Value) : Evaluation Outcome := do
  match ← body with
  | .success vs => return .success vs
  | .mismatch m => do
    let position ← positionOf c
    note (.expectationFailed what position)
    fail (incomplete position what m)

def labelled (label : Value) : Outcome → Outcome
  | .mismatch .plain => .mismatch (.named label)
  | outcome => outcome

def valueless : Outcome → Outcome
  | .success _ => .success []
  | .mismatch m => .mismatch m

/-- A rule in a fork that is closed whatever comes of it. -/
def peek (run : Cursor → Evaluation Outcome) (c : Cursor) : Evaluation Outcome := do
  let fork ← onSource (Source.fork c)
  let outcome ← onFailure (run fork) fun _ => onSource (Source.close fork)
  -- never joined, not even after a success
  onSource (Source.close fork)
  return outcome

/-! ## All rules -/

def unbound : Failure := .runtimeError "Evaluated a `Define` before `define()` was called."

/-- Evaluates a rule of a grammar at a cursor under an argument. -/
def eval (g : Grammar) (path : Path) :
    (fuel : Nat) → Rule → Cursor → (arg : Value) → Evaluation Outcome
  | 0, _, _, _ => throw .outOfFuel
  | fuel + 1, rule, c, arg =>
    match rule with
    | .item m => item path c arg m
    | .literal content => literal path c content
    | .start => start c
    | .finish => finish path c
    | .noOp => return .success []
    | .never _ => return .noMatch
    | .reference target _ =>
      -- looked up when it is evaluated, so a rule can come before its definition
      match target.bind g.rule? with
      | some r => eval g path fuel r c arg
      | none => fail unbound
    | .and rules => sequence (fun r => eval g path fuel r c arg) [] rules
    | .or rules => choice (fun fork r => eval g path fuel r fork arg) c rules
    | .repetition r min max => repetition (eval g path fuel r c arg) min max fuel 0 []
    | .optional r => optional (eval g path fuel r c arg)
    | .punctuated element separator min max =>
      punctuated (fun c => eval g path fuel element c arg)
        (fun c => eval g path fuel separator c arg) c min max fuel
    | .andWithArg first second =>
      andWithArg (eval g path fuel first c arg) (fun v => eval g path fuel second c v)
    | .map conversion r fn withArg =>
      map path conversion (eval g path fuel r c arg) fn (if withArg then [arg] else [])
    | .mapRange r fn => mapRange path (eval g path fuel r c arg) c fn
    | .discard r => valueless <$> eval g path fuel r c arg
    | .expected r what => expected (eval g path fuel r c arg) c what
    | .name r label => labelled label <$> eval g path fuel r c arg
    | .peek r => peek (fun fork => eval g path fuel r fork arg) c
    | .wrapper r => eval g path fuel r c arg
    | .abstract => fail notImplemented

end Backtrack.Evaluation
