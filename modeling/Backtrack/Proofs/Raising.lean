/-
Raising. A failure that a predicate, a mapper, a lookup, an expectation or a feed raises, wherever in
the course of an evaluation, ends the whole evaluation, and nothing is evaluated, called or pulled
after it. No combinator turns it into a mismatch or into another failure. Only a conversion that wraps
reports a failure of its own mapper as another one, and on the suspending path the signal of an
iteration's end surfaces otherwise than a function raised it; neither befalls a hard failure.
-/
import Backtrack.Proofs.Calling
import Backtrack.Proofs.Suspending
namespace Backtrack

namespace Evaluation

variable {g : Grammar} {path : Path} {s t : State} {c : Cursor}

/-! ## Looking ahead -/

/-- Of what was read the item at the index is the one that is expected there. -/
def finds (items expected : Sequence) (index : Nat) : Bool :=
  match items.get? index, expected.get? index with
  | some v, some w => v.eqv w
  | _, _ => false

/-- Looking ahead goes on as long as it finds what is expected. -/
theorem lookAhead_succ (path : Path) (c : Cursor) (expected : Sequence) (index left : Nat) :
    lookAhead path c expected index (left + 1) =
      onSource (Source.read path c (index + 1)) >>= fun items =>
        if finds items expected index then lookAhead path c expected (index + 1) left
        else pure false := by
  rw [lookAhead]
  refine congrArg _ (funext fun items => ?_)
  unfold finds
  cases items.get? index with
  | none => rfl
  | some v =>
    cases expected.get? index with
    | none => rfl
    | some w => rfl

namespace Visit

variable {K K' : Visit} {o : Origin} {e f : Failure}

/-- An expectation whose part mismatches fails where the part has left its cursor. -/
theorem run_of_expectation {J : Visit} {r : Rule} {what : Value} {m : Mismatch}
    (hrule : K.rule = .expected r what) (hpart : J ∈ K.parts g path)
    (hrun : J.run g path = (.ok (.mismatch m), t)) :
    ∃ u, K.run g path = (.error (.failed (incomplete (t.source.positionOf K.cursor) what m)), u) ∧
      u.source = t.source ∧ t.Unwound u := by
  obtain ⟨fuel, rule, c, arg, s⟩ := K
  cases hrule
  cases fuel with
  | zero => cases hpart
  | succ n =>
    cases List.mem_singleton.1 hpart
    have hbody : (eval g path n r c arg).runFrom s = (.ok (.mismatch m), t) := hrun
    refine ⟨{ t with journal := t.journal.addNote (.expectationFailed what (t.source.positionOf c)) },
      ?_, rfl, rfl, rfl⟩
    show (expected (eval g path n r c arg) c what).runFrom s = _
    rw [expected, runFrom_bind, hbody]
    rfl

theorem orderly_of_comesTo (hs : K.state.source.Orderly) (h : K.ComesTo g path K') :
    K'.state.source.Orderly := by
  induction h with
  | refl => exact hs
  | tail _ hmem ih => exact orderly_of_mem_parts ih hmem

end Visit

/-- The state in which a parse evaluates its rule: it has noted that it begins. -/
def State.parsing (s : State) (path : Path) (rule : Rule) (c : Cursor) : State :=
  { s with journal := s.journal.addNote (.parsing (.rule rule) path (s.source.positionOf c)) }

/-- A parse evaluates its rule once it has noted that it begins, and makes a value of the outcome. -/
theorem runFrom_parse_eq (g : Grammar) (path : Path) (fuel : Nat) (rule : Rule) (c : Cursor)
    (arg : Value) (s : State) :
    (parse g path fuel rule c arg).runFrom s =
      (onFailure (eval g path fuel rule c arg) (fun f => do
        if f.isHard then note (.failedHard rule f)) >>= result rule c).runFrom
        (s.parsing path rule c) := rfl

theorem evalOperand_rule (g : Grammar) (path : Path) (fuel : Nat) (rule : Rule) (c : Cursor)
    (arg : Value) : evalOperand g path fuel (.rule rule) c arg = eval g path fuel rule c arg := by
  cases path with
  | blocking => rfl
  | suspending => exact Suspending.eval_eq g fuel rule c arg

theorem parseOperand_rule (g : Grammar) (path : Path) (fuel : Nat) (rule : Rule) (c : Cursor)
    (arg : Value) : parseOperand g path fuel (.rule rule) c arg = parse g path fuel rule c arg := by
  cases path with
  | blocking => rfl
  | suspending => exact Suspending.parse_eq g fuel rule c arg

/-- What a visit raises leaves its rule as it surfaces by the path, unless the rule wraps the failures
of its own mapper and this is one to be wrapped. Only functions raise what surfaces otherwise. -/
theorem Visit.Raises.surface {K : Visit} {o : Origin} {e f : Failure}
    (h : K.Raises g path o e f t) :
    (f = path.surface e ∨ ∃ wrap r fn withArg, o = .mapper ∧
      K.rule = .map (.attempt wrap) r fn withArg ∧ e.isA .parseError = false ∧
      wrap.any e.isA = true ∧ f = .other (.failure e)) ∧
    (o ≠ .predicate → o ≠ .mapper → f = e) := by
  cases h with
  | predicate => exact ⟨.inl rfl, fun h => absurd rfl h⟩
  | lookup htests hraise =>
    refine ⟨.inl (Path.surface_eq ?_).symm, fun _ _ => rfl⟩
    rw [Matcher.eq_writableView_of_lookup? hraise]
    rfl
  | @mapper conversion fn args e s' hmaps hraise =>
    refine ⟨?_, fun _ h => absurd rfl h⟩
    cases conversion with
    | total => exact .inl rfl
    | optional => exact .inl rfl
    | attempt wrap =>
      rw [Conversion.report]
      split
      next hwrap =>
        simp only [Bool.and_eq_true, Bool.not_eq_true'] at hwrap
        cases hmaps with
        | @values _ r _ withArg J vs _ hrule hpart hrun =>
          exact .inr ⟨wrap, r, fn, withArg, rfl, hrule, hwrap.1, hwrap.2, Path.surface_eq rfl⟩
      next => exact .inl rfl
  | @expectation r what J m e s' hrule hpart hrun hraise =>
    refine ⟨.inl (Path.surface_eq ?_).symm, fun _ _ => rfl⟩
    rw [hraise]
    cases m <;> rfl
  | feed _ _ _ hfill => exact ⟨.inl (Path.surface_eq (Buffer.isA_of_fill hfill)).symm, fun _ _ => rfl⟩

/-- A one that must be there. -/
def expectedOne : Rule := .expected (.item (.one (.int 1))) (.str [120])

end Evaluation
end Backtrack
