/-
Evaluations: computations on a source that may fail, keep a journal, and may run out of fuel. Fuel
bounds how deep rules are evaluated and how often a repetition goes round; an evaluation that has
ended with some fuel ends in the same way with more. State is kept on a failure, so what was
consumed before it stays visible.
-/
import Backtrack.Journal
import Backtrack.Outcome
namespace Backtrack

/-! ## Conversions -/

namespace Conversion

/-- What the result of a mapper is as an outcome. -/
def accept : Conversion → Value → Outcome
  | .total, v => .single v
  | .attempt _, v =>
    match Mismatch.ofValue? v with
    | some m => .mismatch m
    | none => .single v
  | .optional, .none => .noMatch
  | .optional, v => .single v

/-- What the failure of a mapper is reported as: wrapped if it is of a class to be wrapped and not
itself about parsing. -/
def report : Conversion → Failure → Failure
  | .attempt wrap, f =>
    if !f.isA .parseError && wrap.any f.isA then .other (.failure f) else f
  | _, f => f

end Conversion

/-! ## Computations -/

structure Evaluation.State where
  source : Source
  journal : Journal
deriving Inhabited

/-- Why an evaluation has no result: a failure, or the end of the fuel. -/
inductive Halt where
  | failed (f : Failure)
  | outOfFuel

/-- A computation on a source with a journal. -/
abbrev Evaluation := ExceptT Halt (StateM Evaluation.State)

namespace Evaluation

/-- The result of an evaluation from a state, and the state afterwards. -/
def runFrom {α : Type} (action : Evaluation α) (s : State) : Except Halt α × State :=
  action.run.run s

def fail {α : Type} (f : Failure) : Evaluation α := throw (.failed f)

def ofExcept {α : Type} : Except Failure α → Evaluation α
  | .ok a => pure a
  | .error f => fail f

def note (n : Note) : Evaluation Unit :=
  modify fun s => { s with journal := s.journal.addNote n }

/-- Does something to the source, whose reports become notes. -/
def onSource {α : Type} (op : SourceM α) : Evaluation α :=
  fun ⟨source, journal⟩ =>
    -- reports are taken over at once, which keeps all notes in the order of events
    let (result, ⟨buffer, position, forks, events⟩) := op.runOn source
    (result.mapError .failed, ⟨⟨buffer, position, forks, []⟩, journal.addEvents events⟩)

def positionOf (c : Cursor) : Evaluation Int := return (← get).source.positionOf c

/-- What a run ends with when something is done after its failure: the failure all the same,
unless what is done fails in turn. -/
def afterFailure {α : Type} (handle : Failure → Evaluation Unit) :
    Except Halt α × State → Except Halt α × State
  | (.error (.failed f), t) =>
    match (handle f).runFrom t with
    | (.ok (), u) => (.error (.failed f), u)
    | (.error h, u) => (.error h, u)
  | ended => ended

/-- Does something after a failure and fails with it all the same. -/
def onFailure {α : Type} (action : Evaluation α) (handle : Failure → Evaluation Unit) :
    Evaluation α :=
  fun s => afterFailure handle (action.runFrom s)

/-! ## Running evaluations -/

section

variable {α β : Type}

@[simp] theorem runFrom_pure (a : α) (s : State) :
    (pure a : Evaluation α).runFrom s = (.ok a, s) := rfl

@[simp] theorem runFrom_throw (h : Halt) (s : State) :
    (throw h : Evaluation α).runFrom s = (.error h, s) := rfl

@[simp] theorem runFrom_fail (f : Failure) (s : State) :
    (fail f : Evaluation α).runFrom s = (.error (.failed f), s) := rfl

/-- A halt ends a run, and what was done before it stays done. -/
theorem runFrom_bind (x : Evaluation α) (f : α → Evaluation β) (s : State) :
    (x >>= f).runFrom s = match x.runFrom s with
      | (.ok a, t) => (f a).runFrom t
      | (.error h, t) => (.error h, t) := by
  show (x >>= f : ExceptT Halt (StateM State) β).run.run s = _
  rw [ExceptT.run_bind, StateT.run_bind]
  unfold runFrom
  rcases x.run.run s with ⟨r, t⟩
  cases r <;> rfl

@[simp] theorem runFrom_note (n : Note) (s : State) :
    (note n).runFrom s = (.ok (), { s with journal := s.journal.addNote n }) := rfl

/-- An operation on the source does to the source what it does by itself. -/
theorem runFrom_onSource (op : SourceM α) (s : State) :
    (onSource op).runFrom s =
      ((op.runOn s.source).1.mapError .failed,
        ⟨{ (op.runOn s.source).2 with events := [] },
          s.journal.addEvents (op.runOn s.source).2.events⟩) := rfl

theorem runFrom_onFailure (action : Evaluation α) (handle : Failure → Evaluation Unit)
    (s : State) :
    (onFailure action handle).runFrom s = afterFailure handle (action.runFrom s) := rfl

end

/-! ## Functions -/

/-- The failure of a suspending evaluation in which a function signals the end of an iteration. -/
def stoppedCoroutine : Failure := .runtimeError "coroutine raised StopIteration"

end Evaluation

/-- What a failure that a function raises leaves an evaluation as. A suspending evaluation is
itself gone through by iteration, so that the signal of an iteration's end cannot leave it. -/
def Path.surface : Path → Failure → Failure
  | .blocking, f => f
  | .suspending, f => if f.isA .stopIteration then Evaluation.stoppedCoroutine else f

namespace Path

variable {path : Path} {f : Failure}

theorem surface_eq (h : f.isA .stopIteration = false) : path.surface f = f := by
  cases path with
  | blocking => rfl
  | suspending => rw [surface, h]; rfl

/-- No class is below that of the signal, so that whatever surfaces otherwise is of this class. -/
theorem surface_eq_or (path : Path) (f : Failure) :
    path.surface f = f ∨ f.cls = .stopIteration ∧ path.surface f = Evaluation.stoppedCoroutine := by
  cases hsignal : f.isA .stopIteration with
  | false => exact .inl (surface_eq hsignal)
  | true =>
    have hcls : f.cls = .stopIteration := by
      revert hsignal
      rw [Failure.isA]
      cases f.cls <;> decide
    cases path with
    | blocking => exact .inl rfl
    | suspending => exact .inr ⟨hcls, by rw [surface, hsignal]; rfl⟩

theorem isHard_surface (path : Path) (f : Failure) : (path.surface f).isHard = f.isHard := by
  rcases surface_eq_or path f with h | ⟨hcls, h⟩
  · rw [h]
  · rw [h, Failure.isHard, Failure.isHard, Failure.isA, Failure.isA, hcls]
    rfl

end Path

namespace Evaluation

/-- Records a call if it is to be recorded. -/
def recordCall (recorded : Bool) (name : Text) (args : List Value) : Evaluation Unit :=
  if recorded then modify fun s => { s with journal := s.journal.addCall ⟨name, args⟩ }
  else pure ()

/-- The truth of a predicate for an item and an argument. -/
def holds (path : Path) (p : Predicate) (item arg : Value) : Evaluation Bool := do
  recordCall p.recorded p.name [item, arg]
  return (← ofExcept ((p.run item arg).mapError path.surface)).truthy

def notImplemented : Failure := .plain .notImplementedError []

def passes (path : Path) (item arg : Value) : Matcher → Evaluation Bool
  | .is p => holds path p item arg
  | .isMatch m => passes path item arg m
  | .not p => Bool.not <$> holds path p item arg
  | .notMatch m => Bool.not <$> passes path item arg m
  | .anyOf members => ofExcept (members.contains item)
  -- a single item is the only member of a collection
  | .one v => ofExcept (Members.ofList [v] >>= (·.contains item))
  | .abstract => fail notImplemented

def noFirstValue : Failure := .withText .indexError "tuple index out of range"

def firstValue : List Value → Evaluation Value
  | [] => fail noFirstValue
  | v :: _ => pure v

/-- Calls a mapper. Its failure is reported where it is called, and then surfaces. -/
def call (path : Path) (conversion : Conversion) (fn : Mapper) (args : List Value) :
    Evaluation Outcome := do
  recordCall fn.recorded fn.name args
  match fn.run args with
  | .ok v => return conversion.accept v
  | .error f => fail (path.surface (conversion.report f))

end Evaluation
end Backtrack
