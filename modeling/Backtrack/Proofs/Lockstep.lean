/-
Evaluation on either path. A rule evaluated on the suspending path, over a feed of either kind,
does what it does on the blocking path over a blocking feed: the result is the same, and the states
differ afterwards in the path of the feed only, so that the cursors stand at the same positions, the
same items wait, and as many elements were taken from the feed. The journals are the same behind
whatever was noted before, which for whole parses are opening notes that name the path. What the
paths do not have in common is how the signal of an iteration's end surfaces that a function raises.
-/
import Backtrack.Proofs.Paths
import Backtrack.Proofs.Coupling
import Backtrack.Proofs.Suspending
namespace Backtrack

/-! ## States behind earlier notes -/

/-- The state with earlier notes before its own. -/
def Evaluation.State.behind (earlier : Array Note) (s : State) : State :=
  { s with journal := s.journal.behind earlier }

@[simp] theorem Evaluation.State.behind_empty (s : State) : s.behind #[] = s := by
  simp [State.behind, Journal.behind]

namespace Evaluation

/-! ## Evaluations in step -/

/-- From states that differ in the path of the feed and in what was noted earlier, the evaluations
give the same result as it surfaces, and the states differ in that only afterwards. -/
def InStep {α : Type} (q : Path) (earlier earlier' : Array Note) (x y : Evaluation α) : Prop :=
  ∀ s : State, ∃ (r : Except Halt α) (t : State),
    x.runFrom ((s.fedOn .blocking).behind earlier) = (r, (t.fedOn .blocking).behind earlier) ∧
    y.runFrom ((s.fedOn q).behind earlier') =
      (r.mapError (Halt.surfaced .suspending), (t.fedOn q).behind earlier')

namespace InStep

variable {α : Type} {q : Path} {earlier earlier' : Array Note}

/-- The coupling of a blocking run over a blocking feed and a suspending run over a feed of a path;
nothing is ever lost. -/
def coupling (q : Path) (earlier earlier' : Array Note) : Coupling where
  path := .blocking
  path' := .suspending
  surfacing := .suspending
  earlier := earlier
  earlier' := earlier'
  related := fun b b' => ∃ a : Buffer, b = a.fedOn .blocking ∧ b' = a.fedOn q
  lost := fun _ => False

instance : (coupling q earlier earlier').Lawful where
  surface _ := rfl
  available := by
    rintro _ _ ⟨a, rfl, rfl⟩
    simp
  countFailure? := by
    rintro _ _ ⟨a, rfl, rfl⟩
    simp
  slice := by
    rintro _ _ ⟨a, rfl, rfl⟩ first last
    simp
  consume := by
    rintro _ _ ⟨a, rfl, rfl⟩ n
    rw [Buffer.consume_fedOn, Buffer.consume_fedOn]
    exact ⟨rfl, _, rfl, rfl⟩
  fill := by
    rintro _ _ ⟨a, rfl, rfl⟩ n
    obtain ⟨filled, events, failure, hblocking, hsuspending⟩ := a.fill_inStep q n
    show _ ∨ ((a.fedOn q).fill .suspending n).2 = ((a.fedOn .blocking).fill .blocking n).2 ∧
      ∃ a' : Buffer, ((a.fedOn .blocking).fill .blocking n).1 = a'.fedOn .blocking ∧
        ((a.fedOn q).fill .suspending n).1 = a'.fedOn q
    rw [hblocking, hsuspending]
    exact .inr ⟨rfl, filled, rfl, rfl⟩
  lost_consume h := h.elim
  lost_fill h := h.elim

/-- Sources that belong together are one and the same but for the path of their feed. -/
theorem exists_of_sources {s s' : Source} (h : (coupling q earlier earlier').Sources s s') :
    ∃ u : Source, s = u.fedOn .blocking ∧ s' = u.fedOn q := by
  obtain ⟨buffer, position, forks, events⟩ := s
  obtain ⟨buffer', position', forks', events'⟩ := s'
  obtain ⟨⟨a, ha, ha'⟩, hposition, hforks, hevents⟩ := h
  cases ha
  cases ha'
  cases hposition
  cases hforks
  cases hevents
  exact ⟨⟨a, position, forks, events⟩, rfl, rfl⟩

/-- Coupled computations are in step. -/
theorem of_coupled {x y : Evaluation α} (h : Coupled (coupling q earlier earlier') x y) :
    InStep q earlier earlier' x y := by
  intro s
  have hs : (coupling q earlier earlier').States ((s.fedOn .blocking).behind earlier)
      ((s.fedOn q).behind earlier') :=
    ⟨⟨⟨s.source.buffer, rfl, rfl⟩, rfl, rfl, rfl⟩, s.journal, rfl, rfl⟩
  rcases h.agrees _ _ hs with hlost | ⟨r, ⟨t, j⟩, ⟨t', j'⟩, hx, hy, hsources, k, hk, hk'⟩
  · exact hlost.elim
  · obtain ⟨u, rfl, rfl⟩ := exists_of_sources hsources
    cases hk
    cases hk'
    exact ⟨r, ⟨u, k⟩, hx, hy⟩

protected theorem eval (g : Grammar) (fuel : Nat) (rule : Rule) (c : Cursor) (arg : Value) :
    InStep q earlier earlier' (eval g .blocking fuel rule c arg) (eval g .suspending fuel rule c arg) :=
  .of_coupled (.eval (coupling q earlier earlier') g fuel rule c arg)

/-- What a parse does behind its opening note. -/
protected theorem afterOpening (g : Grammar) (fuel : Nat) (rule : Rule) (c : Cursor) (arg : Value) :
    InStep q earlier earlier'
      (onFailure (eval g .blocking fuel rule c arg)
        (fun f => if f.isHard then note (.failedHard rule f) else pure ()) >>= result rule c)
      (onFailure (eval g .suspending fuel rule c arg)
        (fun f => if f.isHard then note (.failedHard rule f) else pure ()) >>= result rule c) :=
  .of_coupled (.afterOpening (coupling q earlier earlier') g fuel rule c arg)

end InStep

/-- The note that opens a parse. -/
def opening (rule : Rule) (path : Path) (position : Int) : Note :=
  .parsing (.rule rule) path position

/-- A parse begins with its opening note. -/
theorem runFrom_parse (g : Grammar) (path : Path) (fuel : Nat) (rule : Rule) (c : Cursor)
    (arg : Value) (s : State) (q : Path) :
    (parse g path fuel rule c arg).runFrom (s.fedOn q) =
      (onFailure (eval g path fuel rule c arg)
        (fun f => if f.isHard then note (.failedHard rule f) else pure ()) >>=
          result rule c).runFrom
        ((State.fedOn q { s with journal := { s.journal with notes := #[] } }).behind
          (s.journal.notes.push (opening rule path (s.source.positionOf c)))) := by
  have hopened : (State.fedOn q { s with journal := { s.journal with notes := #[] } }).behind
      (s.journal.notes.push (opening rule path (s.source.positionOf c))) =
      { s.fedOn q with
        journal := s.journal.addNote (opening rule path (s.source.positionOf c)) } := by
    simp [State.behind, State.fedOn, Journal.behind, Journal.addNote]
  rw [hopened]
  rfl

/-- On the suspending path, over a feed of either kind, an evaluation gives the result that it
gives on the blocking path over a blocking feed, except that the signal of an iteration's end, which
a function may raise, surfaces as another failure; and the states afterwards differ in the path of
the feed only. Without a feed they do not differ at all. A whole parse gives the same result in this
sense and notes the same behind its opening note. A plain value in place of a rule fails with what
each path looks for. -/
theorem suspending_eq_blocking (g : Grammar) (fuel : Nat) (rule : Rule) (c : Cursor) (arg : Value)
    (s : State) (q : Path) :
    (∃ (r : Except Halt Outcome) (t : State),
      (eval g .blocking fuel rule c arg).runFrom (s.fedOn .blocking) = (r, t.fedOn .blocking) ∧
      (Suspending.eval g fuel rule c arg).runFrom (s.fedOn q) =
        (r.mapError (Halt.surfaced .suspending), t.fedOn q)) ∧
    (s.source.buffer.pulled? = none →
      (Suspending.eval g fuel rule c arg).runFrom s =
        (((eval g .blocking fuel rule c arg).runFrom s).1.mapError (Halt.surfaced .suspending),
          ((eval g .blocking fuel rule c arg).runFrom s).2)) ∧
    (∃ (r : Except Halt Value) (t : State),
      (parse g .blocking fuel rule c arg).runFrom (s.fedOn .blocking) =
        (r, (t.fedOn .blocking).behind
          (s.journal.notes.push (opening rule .blocking (s.source.positionOf c)))) ∧
      (Suspending.parse g fuel rule c arg).runFrom (s.fedOn q) =
        (r.mapError (Halt.surfaced .suspending), (t.fedOn q).behind
          (s.journal.notes.push (opening rule .suspending (s.source.positionOf c))))) ∧
    ∀ (path : Path) (v : Value),
      (evalOperand g path fuel (.value v) c arg).runFrom s =
        (.error (.failed (notRule path v)), s) ∧
      ((parseOperand g path fuel (.value v) c arg).runFrom s).1 =
        .error (.failed (notRule path v)) := by
  have heval : ∀ q, ∃ (r : Except Halt Outcome) (t : State),
      (eval g .blocking fuel rule c arg).runFrom (s.fedOn .blocking) = (r, t.fedOn .blocking) ∧
      (eval g .suspending fuel rule c arg).runFrom (s.fedOn q) =
        (r.mapError (Halt.surfaced .suspending), t.fedOn q) := by
    intro q
    -- with nothing noted earlier on either side
    have h : InStep q #[] #[] _ _ := InStep.eval g fuel rule c arg
    simpa only [State.behind_empty] using h s
  rw [Suspending.eval_eq, Suspending.parse_eq]
  refine ⟨heval q, fun hmemory => ?_, ?_, fun path v => ⟨rfl, rfl⟩⟩
  · -- without a feed there is no path to tell the states apart
    obtain ⟨r, t, hblocking, hsuspending⟩ := heval .blocking
    rw [State.fedOn_of_pulled? hmemory] at hblocking hsuspending
    rw [hblocking, hsuspending]
  · rw [runFrom_parse, runFrom_parse]
    exact InStep.afterOpening g fuel rule c arg _

theorem suspending_eq_blocking_text :
    (State.ofSource (.ofData (.str [97]))).source.buffer.pulled? = none ∧
    (Suspending.eval .empty 3 (.or [.peek .finish, .start]) .root .none).runFrom
        (.ofSource (.ofData (.str [97]))) =
      (eval .empty .blocking 3 (.or [.peek .finish, .start]) .root .none).runFrom
        (.ofSource (.ofData (.str [97]))) := by
  have hmemory : (State.ofSource (.ofData (.str [97]))).source.buffer.pulled? = none := rfl
  have h := suspending_eq_blocking .empty 3 (.or [.peek .finish, .start]) .root .none
    (.ofSource (.ofData (.str [97]))) .suspending
  exact ⟨hmemory, h.2.1 hmemory⟩

/-- The signal leaves a blocking evaluation as it is, but not a suspending one. And what the paths
miss in a value that is no rule has another name on each. -/
theorem suspending_ne_blocking_signalling :
    ((eval .empty .blocking 2 (.map .total .noOp signalling false) .root .none).runFrom
      (.ofSource (.ofData (.str [97])))).1 = .error (.failed (.plain .stopIteration [])) ∧
    ((Suspending.eval .empty 2 (.map .total .noOp signalling false) .root .none).runFrom
      (.ofSource (.ofData (.str [97])))).1 =
      .error (.failed (.runtimeError "coroutine raised StopIteration")) ∧
    ((evalOperand .empty .blocking 1 (.value (.int 5)) .root .none).runFrom
      (.ofSource (.ofData (.str [97])))).1 = .error (.failed (.noAttribute "int" "evaluate")) ∧
    ((evalOperand .empty .suspending 1 (.value (.int 5)) .root .none).runFrom
      (.ofSource (.ofData (.str [97])))).1 =
      .error (.failed (.noAttribute "int" "evaluate_async")) :=
  ⟨rfl, rfl, rfl, rfl⟩

end Evaluation
end Backtrack
