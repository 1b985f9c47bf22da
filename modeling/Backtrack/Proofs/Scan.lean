/-
Scans: what rules mean on an input, told by indices alone. A scan starts at an index of the input
and ends at one; there are no cursors, and nothing is joined or closed. A sequence, a pair of rules
and a repetition thread the index through and keep it on a mismatch; a choice starts every
alternative where it began itself, and keeps what an alternative reached on a success and on a
hard failure only; a pair of separator and element keeps what it reached only if both match; and a
lookahead always returns. The items come from a medium, which may be an input that is there as a
whole.
-/
import Backtrack.Evaluation.Rule
namespace Backtrack

/-! ## Media -/

/-- Where the items of an input come from: asked for what lies at an index, a medium in some state
gives the item, nothing if the input ends before it, or a failure, and is in another state. -/
structure Medium (τ : Type) where
  item? : (index : Nat) → τ → Except Failure (Option Value) × τ

/-- An input that is there as a whole. -/
def Medium.fixed (data : Sequence) : Medium Unit where
  item? index state := (.ok (data.get? index), state)

/-! ## Functions -/

/-- Whether an item passes a test under an argument, or the failure of the test. -/
def Matcher.accepts (item arg : Value) : Matcher → Except Failure Bool
  | is p => Value.truthy <$> p.run item arg
  | isMatch m => accepts item arg m
  | not p => (fun v => !v.truthy) <$> p.run item arg
  | notMatch m => Bool.not <$> accepts item arg m
  | anyOf members => members.contains item
  | one v => Members.ofList [v] >>= (·.contains item)
  | abstract => .error Evaluation.notImplemented

/-- What a mapper makes of values. -/
def Conversion.apply (conversion : Conversion) (fn : Mapper) (args : List Value) :
    Except Failure Outcome :=
  match fn.run args with
  | .ok v => .ok (conversion.accept v)
  | .error f => .error (conversion.report f)

/-! ## Computations -/

/-- The index that a scan has reached, and the state of the medium. -/
structure Scan.State (τ : Type) where
  index : Nat
  medium : τ

/-- A computation that goes over an input by its indices. -/
abbrev Scan (τ : Type) := ExceptT Halt (StateM (Scan.State τ))

namespace Scan

variable {τ α β : Type}

/-- The result of a scan from a state, and the state afterwards. -/
def runFrom (x : Scan τ α) (s : State τ) : Except Halt α × State τ := x.run.run s

/-- A result, or a failure. -/
def ofExcept (r : Except Failure α) : Scan τ α :=
  match r with
  | .ok a => pure a
  | .error f => throw (.failed f)

/-- What lies so many places ahead. -/
def look (M : Medium τ) (ahead : Nat) : Scan τ (Option Value) :=
  fun s =>
    let (found, medium) := M.item? (s.index + ahead) s.medium
    (found.mapError .failed, { s with medium := medium })

/-- Goes so many places on. -/
def advance (count : Nat) : Scan τ Unit := modify fun s => { s with index := s.index + count }

/-- The index that is reached. -/
def place : Scan τ Nat := return (← get).index

/-- Returns to the index where a scan began, unless its result is one to keep the index for. -/
def keepIf (keep : Except Halt α → Bool) (x : Scan τ α) : Scan τ α :=
  fun s =>
    let (r, t) := x.runFrom s
    (r, { t with index := if keep r then t.index else s.index })

/-- The first value of a success. -/
def firstValue : List Value → Scan τ Value
  | [] => ofExcept (.error Evaluation.noFirstValue)
  | v :: _ => pure v

/-! ## Running scans -/

@[simp] theorem runFrom_pure (a : α) (s : State τ) : (pure a : Scan τ α).runFrom s = (.ok a, s) := rfl

@[simp] theorem runFrom_throw (h : Halt) (s : State τ) :
    (throw h : Scan τ α).runFrom s = (.error h, s) := rfl

/-- A halt ends a scan where it is. -/
theorem runFrom_bind (x : Scan τ α) (f : α → Scan τ β) (s : State τ) :
    (x >>= f).runFrom s = match x.runFrom s with
      | (.ok a, t) => (f a).runFrom t
      | (.error h, t) => (.error h, t) := by
  show (x >>= f : ExceptT Halt (StateM (State τ)) β).run.run s = _
  rw [ExceptT.run_bind, StateT.run_bind]
  unfold runFrom
  rcases x.run.run s with ⟨r, t⟩
  cases r <;> rfl

@[simp] theorem runFrom_ofExcept (r : Except Failure α) (s : State τ) :
    (ofExcept r : Scan τ α).runFrom s = (r.mapError .failed, s) := by cases r <;> rfl

@[simp] theorem runFrom_look (M : Medium τ) (ahead : Nat) (s : State τ) :
    (look M ahead).runFrom s =
      ((M.item? (s.index + ahead) s.medium).1.mapError .failed,
        ⟨s.index, (M.item? (s.index + ahead) s.medium).2⟩) := rfl

@[simp] theorem runFrom_advance (count : Nat) (s : State τ) :
    (advance count).runFrom s = (.ok (), ⟨s.index + count, s.medium⟩) := rfl

@[simp] theorem runFrom_place (s : State τ) : (place : Scan τ Nat).runFrom s = (.ok s.index, s) := rfl

theorem runFrom_keepIf (keep : Except Halt α → Bool) (x : Scan τ α) (s : State τ) :
    (keepIf keep x).runFrom s =
      ((x.runFrom s).1, ⟨if keep (x.runFrom s).1 then (x.runFrom s).2.index else s.index,
        (x.runFrom s).2.medium⟩) := rfl

/-! ## Rules without parts -/

/-- One item that passes a test. -/
def item (M : Medium τ) (arg : Value) (m : Matcher) : Scan τ Outcome := do
  match ← look M 0 with
  | none => return .noMatch
  | some v =>
    if ← ofExcept (m.accepts v arg) then
      advance 1
      return .single v
    else return .noMatch

/-- Whether the next items are the expected ones from the `index`th on, of which `left` are left. -/
def lookAhead (M : Medium τ) (expected : Sequence) (index : Nat) : (left : Nat) → Scan τ Bool
  | 0 => return true
  | left + 1 => do
    match ← look M index, expected.get? index with
    | some v, some w =>
      if v.eqv w then lookAhead M expected (index + 1) left else return false
    | _, _ => return false

/-- The items of a sequence, standing for the sequence itself. -/
def literal (M : Medium τ) (content : Value) : Scan τ Outcome := do
  let expected ← ofExcept (Sequence.ofElements content)
  if ← lookAhead M expected 0 expected.size then
    advance expected.size
    return .single content
  else return .noMatch

/-- The beginning of the input. -/
def start : Scan τ Outcome := do
  if (← place) = 0 then return .success [] else return .noMatch

/-- The end of the input. -/
def finish (M : Medium τ) : Scan τ Outcome := do
  return if (← look M 0).isNone then .success [] else .noMatch

/-! ## Rules with parts -/

/-- All rules one after another, their values behind `values`. -/
def sequence (run : Rule → Scan τ Outcome) (values : List Value) : List Rule → Scan τ Outcome
  | [] => return .success values
  | r :: rs => do
    match ← run r with
    | .mismatch m => return .mismatch m
    | .success vs => sequence run (values ++ vs) rs

/-- Whether an alternative keeps the index it reached: if it matches or fails hard. -/
def commits : Except Halt Outcome → Bool
  | .ok (.success _) => true
  | .ok (.mismatch _) => false
  | .error (.failed f) => f.isHard
  | .error .outOfFuel => false

/-- The first rule that matches. -/
def choice (run : Rule → Scan τ Outcome) : List Rule → Scan τ Outcome
  | [] => return .noMatch
  | r :: rs => do
    match ← keepIf commits (run r) with
    | .success vs => return .success vs
    | .mismatch _ => choice run rs

/-- A rule again and again, `count` values being there already. -/
def repetition (body : Scan τ Outcome) (min : Int) (max : Option Int) :
    (fuel : Nat) → (count : Int) → (reversed : List Value) → Scan τ Outcome
  | 0, count, reversed =>
    if Evaluation.isFull max count then return Evaluation.repeated min count none reversed
    else throw .outOfFuel
  | fuel + 1, count, reversed => do
    if Evaluation.isFull max count then return Evaluation.repeated min count none reversed
    match ← body with
    | .mismatch m => return Evaluation.repeated min count (some m) reversed
    | .success vs => do
      let v ← firstValue vs
      repetition body min max fuel (count + 1) (v :: reversed)

/-- Whether two rules both matched. -/
def bothMatched : Except Halt (Except Mismatch (List Value × List Value)) → Bool
  | .ok (.ok _) => true
  | _ => false

/-- The values of a separator and of an element, or the mismatch of one of them. -/
def both (element separator : Scan τ Outcome) :
    Scan τ (Except Mismatch (List Value × List Value)) := do
  match ← separator with
  | .mismatch m => return .error m
  | .success ss => do
    match ← element with
    | .mismatch m => return .error m
    | .success es => return .ok (ss, es)

/-- A separator and an element, kept if both match. -/
def separated (element separator : Scan τ Outcome) : Scan τ (Except Mismatch (Value × Value)) := do
  match ← keepIf bothMatched (both element separator) with
  | .error m => return .error m
  | .ok (ss, es) => do
    let s ← firstValue ss
    let e ← firstValue es
    return .ok (s, e)

/-- Further pairs of separator and element, `count` elements being there already. -/
def punctuatedRest (pair : Scan τ (Except Mismatch (Value × Value))) (min : Int)
    (max : Option Int) :
    (fuel : Nat) → (count : Int) → (elements separators : List Value) → Scan τ Outcome
  | 0, count, elements, separators =>
    if Evaluation.isFull max count then
      return Evaluation.punctuatedResult min count none elements separators
    else throw .outOfFuel
  | fuel + 1, count, elements, separators => do
    if Evaluation.isFull max count then
      return Evaluation.punctuatedResult min count none elements separators
    match ← pair with
    | .error m => return Evaluation.punctuatedResult min count (some m) elements separators
    | .ok (s, e) => punctuatedRest pair min max fuel (count + 1) (e :: elements) (s :: separators)

/-- Elements with separators between them. -/
def punctuated (element separator : Scan τ Outcome) (min : Int) (max : Option Int) (fuel : Nat) :
    Scan τ Outcome := do
  match ← element with
  | .mismatch m => return Evaluation.punctuatedResult min 0 (some m) [] []
  | .success es => do
    let e ← firstValue es
    punctuatedRest (separated element separator) min max fuel 1 [e] []

/-- A rule or nothing. -/
def optional (body : Scan τ Outcome) : Scan τ Outcome := do
  match ← body with
  | .success vs => return .single (← firstValue vs)
  | .mismatch _ => return .single .none

/-- Two rules, the value of the first being the argument of the second. -/
def andWithArg (first : Scan τ Outcome) (second : Value → Scan τ Outcome) : Scan τ Outcome := do
  match ← first with
  | .mismatch m => return .mismatch m
  | .success vs => do
    match ← second (← firstValue vs) with
    | .mismatch m => return .mismatch m
    | .success ws => return .success (vs ++ ws)

/-- The values of a rule converted to one. -/
def map (conversion : Conversion) (body : Scan τ Outcome) (fn : Mapper) (extra : List Value) :
    Scan τ Outcome := do
  match ← body with
  | .mismatch m => return .mismatch m
  | .success vs => ofExcept (conversion.apply fn (vs ++ extra))

/-- The values of a rule with the range of indices that it covers. -/
def mapRange (body : Scan τ Outcome) (fn : Option Mapper) : Scan τ Outcome := do
  let first ← place
  match ← body with
  | .mismatch m => return .mismatch m
  | .success vs => do
    let span := .range first (← place) 1
    match fn with
    | none => return .success (vs ++ [span])
    | some fn => ofExcept (Conversion.total.apply fn (vs ++ [span]))

/-- A rule that must match. -/
def expected (body : Scan τ Outcome) (what : Value) : Scan τ Outcome := do
  match ← body with
  | .success vs => return .success vs
  | .mismatch m => do
    let index ← place
    throw (.failed (Evaluation.incomplete index what m))

/-- A rule that consumes nothing, whatever comes of it. -/
def peek (body : Scan τ Outcome) : Scan τ Outcome := keepIf (fun _ => false) body

/-! ## All rules -/

/-- Scans by a rule of a grammar under an argument. -/
def eval (M : Medium τ) (g : Grammar) : (fuel : Nat) → Rule → (arg : Value) → Scan τ Outcome
  | 0, _, _ => throw .outOfFuel
  | fuel + 1, rule, arg =>
    match rule with
    | .item m => item M arg m
    | .literal content => literal M content
    | .start => start
    | .finish => finish M
    | .noOp => return .success []
    | .never _ => return .noMatch
    | .reference target _ =>
      match target.bind g.rule? with
      | some r => eval M g fuel r arg
      | none => ofExcept (.error Evaluation.unbound)
    | .and rules => sequence (fun r => eval M g fuel r arg) [] rules
    | .or rules => choice (fun r => eval M g fuel r arg) rules
    | .repetition r min max => repetition (eval M g fuel r arg) min max fuel 0 []
    | .optional r => optional (eval M g fuel r arg)
    | .punctuated element separator min max =>
      punctuated (eval M g fuel element arg) (eval M g fuel separator arg) min max fuel
    | .andWithArg first second =>
      andWithArg (eval M g fuel first arg) (fun v => eval M g fuel second v)
    | .map conversion r fn withArg =>
      map conversion (eval M g fuel r arg) fn (if withArg then [arg] else [])
    | .mapRange r fn => mapRange (eval M g fuel r arg) fn
    | .discard r => Evaluation.valueless <$> eval M g fuel r arg
    | .expected r what => expected (eval M g fuel r arg) what
    | .name r label => Evaluation.labelled label <$> eval M g fuel r arg
    | .peek r => peek (eval M g fuel r arg)
    | .wrapper r => eval M g fuel r arg
    | .abstract => ofExcept (.error Evaluation.notImplemented)

end Scan
end Backtrack
