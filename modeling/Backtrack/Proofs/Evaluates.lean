/-
How evaluations end when fuel is no matter: `g.Evaluates path rule c arg s r t` says that with
enough fuel the rule ends with `r` in the state `t`, and `g.Shows path rule c arg s r position pulled`
tells of that state only where the cursor is and how much was pulled. An evaluation ends in one way at
most, and with all fuel from some amount on; so several evaluations that end can be taken with the same
fuel.
-/
import Backtrack.Proofs.Fuel
namespace Backtrack

open Filter
open Evaluation (State eval)

/-- With enough fuel, evaluating the rule ends so. -/
def Grammar.Evaluates (g : Grammar) (path : Path) (rule : Rule) (c : Cursor) (arg : Value)
    (s : State) (r : Except Failure Outcome) (t : State) : Prop :=
  ∃ fuel, (eval g path fuel rule c arg).runFrom s = (r.mapError .failed, t)

/-- With enough fuel, evaluating the rule ends with `r`, leaves the cursor at the position, and has
taken so many elements of the feed, if there is one. -/
def Grammar.Shows (g : Grammar) (path : Path) (rule : Rule) (c : Cursor) (arg : Value) (s : State)
    (r : Except Failure Outcome) (position : Int) (pulled : Option Nat) : Prop :=
  ∃ t, g.Evaluates path rule c arg s r t ∧ t.source.positionOf c = position ∧
    t.source.buffer.pulled? = pulled

namespace Evaluation

/-- What ended did not run out of fuel. -/
theorem mapError_failed_ne_outOfFuel {α : Type} (r : Except Failure α) :
    r.mapError Halt.failed ≠ .error .outOfFuel := by
  cases r <;> rintro ⟨⟩

theorem mapError_failed_inj {α : Type} {r r' : Except Failure α}
    (h : r.mapError Halt.failed = r'.mapError Halt.failed) : r = r' := by
  cases r <;> cases r' <;> cases h <;> rfl

/-- What approximates an end is the same end. -/
theorem Approximates.runFrom_eq {x y : Evaluation Outcome} (h : Approximates x y) {s t : State}
    {r : Except Failure Outcome} (hrun : x.runFrom s = (r.mapError .failed, t)) :
    y.runFrom s = (r.mapError .failed, t) := by
  rcases h s with hout | hsame
  · rw [hrun] at hout
    exact absurd hout (mapError_failed_ne_outOfFuel r)
  · rw [hsame, hrun]

end Evaluation

namespace Grammar.Evaluates

variable {g : Grammar} {path : Path} {rule : Rule} {c : Cursor} {arg : Value} {s t u : State}
  {r r' : Except Failure Outcome}

/-- What a run ends with, it ends with in some state. -/
theorem exists_of_fst {fuel : Nat}
    (h : ((eval g path fuel rule c arg).runFrom s).1 = r.mapError .failed) :
    ∃ t, g.Evaluates path rule c arg s r t := ⟨_, fuel, Prod.ext h rfl⟩

/-- An evaluation that ends does so with all fuel from some amount on. -/
theorem eventually (h : g.Evaluates path rule c arg s r t) :
    ∀ᶠ fuel in atTop, (eval g path fuel rule c arg).runFrom s = (r.mapError .failed, t) := by
  obtain ⟨fuel, hrun⟩ := h
  filter_upwards [eventually_ge_atTop fuel] with fuel' hle
  exact Evaluation.eval_eq_of_le hrun (Evaluation.mapError_failed_ne_outOfFuel r) hle

/-- One unit of fuel goes to reach the evaluation of the parts. -/
theorem of_eventually_succ
    (h : ∀ᶠ fuel in atTop, (eval g path (fuel + 1) rule c arg).runFrom s = (r.mapError .failed, t)) :
    g.Evaluates path rule c arg s r t := by
  obtain ⟨fuel, hrun⟩ := h.exists
  exact ⟨fuel + 1, hrun⟩

/-- What ended did so with some fuel left for the parts. -/
theorem exists_succ (h : g.Evaluates path rule c arg s r t) :
    ∃ fuel, (eval g path (fuel + 1) rule c arg).runFrom s = (r.mapError .failed, t) := by
  obtain ⟨_ | fuel, hrun⟩ := h
  · exact absurd (congrArg Prod.fst hrun).symm (Evaluation.mapError_failed_ne_outOfFuel r)
  · exact ⟨fuel, hrun⟩

/-- An evaluation ends in one way at most. -/
theorem unique (h : g.Evaluates path rule c arg s r t) (h' : g.Evaluates path rule c arg s r' u) :
    r = r' ∧ t = u := by
  obtain ⟨fuel, hrun, hrun'⟩ := (h.eventually.and h'.eventually).exists
  rw [hrun] at hrun'
  obtain ⟨hr, ht⟩ := Prod.mk.inj hrun'
  exact ⟨Evaluation.mapError_failed_inj hr, ht⟩

end Grammar.Evaluates

end Backtrack
