/-
Fuel only decides whether an evaluation ends, never how. `x.Approximates y` says that `y` ends as `x`
does wherever `x` does not run out of fuel; less fuel approximates more, rule by rule. So an
evaluation that has ended with some fuel ends in the same way with any more.
-/
import Backtrack.Parse
import Mathlib.Tactic
namespace Backtrack.Evaluation

variable {α β : Type}

/-- Wherever `x` does not run out of fuel, `y` ends as `x` does. -/
def Approximates (x y : Evaluation α) : Prop :=
  ∀ s, (x.runFrom s).1 = .error .outOfFuel ∨ y.runFrom s = x.runFrom s

namespace Approximates

protected theorem refl (x : Evaluation α) : Approximates x x := fun _ => .inr rfl

theorem outOfFuel (y : Evaluation α) : Approximates (throw .outOfFuel) y := fun _ => .inl rfl

protected theorem bind {x y : Evaluation α} {f g : α → Evaluation β} (h : Approximates x y)
    (hf : ∀ a, Approximates (f a) (g a)) : Approximates (x >>= f) (y >>= g) := by
  intro s
  rw [runFrom_bind, runFrom_bind]
  rcases h s with hx | hx
  · rcases hrun : x.runFrom s with ⟨r, t⟩
    rw [hrun] at hx
    cases hx
    exact .inl rfl
  · rw [hx]
    rcases x.runFrom s with ⟨e | a, t⟩
    · exact .inr rfl
    · exact hf a t

protected theorem map {x y : Evaluation α} (f : α → β) (h : Approximates x y) :
    Approximates (f <$> x) (f <$> y) := by
  rw [map_eq_pure_bind, map_eq_pure_bind]
  exact h.bind fun a => .refl _

/-- What is done after a failure is no matter of fuel. -/
protected theorem onFailure {x y : Evaluation α} (h : Approximates x y)
    (handle : Failure → Evaluation Unit) :
    Approximates (onFailure x handle) (onFailure y handle) := by
  intro s
  rw [runFrom_onFailure, runFrom_onFailure]
  rcases h s with hx | hx
  · rcases hrun : x.runFrom s with ⟨r, t⟩
    rw [hrun] at hx
    cases hx
    exact .inl rfl
  · rw [hx]
    exact .inr rfl

/-! ## Rules with parts -/

protected theorem sequence {run run' : Rule → Evaluation Outcome}
    (h : ∀ r, Approximates (run r) (run' r)) : ∀ (rules : List Rule) (values : List Value),
    Approximates (sequence run values rules) (sequence run' values rules)
  | [], values => .refl _
  | r :: rs, values => by
    refine (h r).bind fun o => ?_
    cases o with
    | mismatch m => exact .refl _
    | success vs => exact Approximates.sequence h rs (values ++ vs)

protected theorem choice {run run' : Cursor → Rule → Evaluation Outcome}
    (h : ∀ c r, Approximates (run c r) (run' c r)) (c : Cursor) : ∀ rules : List Rule,
    Approximates (choice run c rules) (choice run' c rules)
  | [] => .refl _
  | r :: rs => by
    refine (Approximates.refl _).bind fun fork => ((h fork r).onFailure _).bind fun o => ?_
    cases o with
    | success vs => exact .refl _
    | mismatch m => exact (Approximates.refl _).bind fun _ => Approximates.choice h c rs

end Approximates

/-- A full repetition needs no fuel. -/
theorem repetition_of_isFull {max : Option Int} {count : Int} (h : isFull max count = true)
    (body : Evaluation Outcome) (min : Int) (fuel : Nat) (reversed : List Value) :
    repetition body min max fuel count reversed = pure (repeated min count none reversed) := by
  cases fuel with
  | zero => rw [repetition, if_pos h]
  | succ fuel => rw [repetition, if_pos h]

/-- Full lists of elements and separators need no fuel. -/
theorem punctuatedRest_of_isFull {max : Option Int} {count : Int} (h : isFull max count = true)
    (pair : Evaluation (Except Mismatch (Value × Value))) (min : Int) (fuel : Nat)
    (elements separators : List Value) :
    punctuatedRest pair min max fuel count elements separators =
      pure (punctuatedResult min count none elements separators) := by
  cases fuel with
  | zero => rw [punctuatedRest, if_pos h]
  | succ fuel => rw [punctuatedRest, if_pos h]

namespace Approximates

/-- A repetition is cut short by the fuel of its body or by its own. -/
protected theorem repetition {body body' : Evaluation Outcome} (h : Approximates body body')
    (min : Int) (max : Option Int) : ∀ {fuel fuel' : Nat}, fuel ≤ fuel' →
    ∀ (count : Int) (reversed : List Value),
    Approximates (repetition body min max fuel count reversed)
      (repetition body' min max fuel' count reversed)
  | 0, fuel', _, count, reversed => by
    by_cases hfull : isFull max count = true
    · rw [repetition_of_isFull hfull, repetition_of_isFull hfull]
      exact .refl _
    · rw [repetition, if_neg hfull]
      exact .outOfFuel _
  | fuel + 1, fuel' + 1, hle, count, reversed => by
    rw [repetition, repetition]
    split
    · exact .refl _
    · refine h.bind fun o => ?_
      cases o with
      | mismatch m => exact .refl _
      | success vs =>
        exact (Approximates.refl _).bind fun v =>
          Approximates.repetition h min max (Nat.le_of_succ_le_succ hle) (count + 1) (v :: reversed)

protected theorem separated {element element' separator separator' : Cursor → Evaluation Outcome}
    (he : ∀ c, Approximates (element c) (element' c))
    (hs : ∀ c, Approximates (separator c) (separator' c)) (c : Cursor) :
    Approximates (separated element separator c) (separated element' separator' c) := by
  refine (Approximates.refl _).bind fun fork => (hs fork).bind fun o => ?_
  cases o with
  | mismatch m => exact .refl _
  | success ss =>
    refine (he fork).bind fun o => ?_
    cases o with
    | mismatch m => exact .refl _
    | success es => exact .refl _

protected theorem punctuatedRest {pair pair' : Evaluation (Except Mismatch (Value × Value))}
    (h : Approximates pair pair') (min : Int) (max : Option Int) :
    ∀ {fuel fuel' : Nat}, fuel ≤ fuel' →
    ∀ (count : Int) (elements separators : List Value),
    Approximates (punctuatedRest pair min max fuel count elements separators)
      (punctuatedRest pair' min max fuel' count elements separators)
  | 0, fuel', _, count, elements, separators => by
    by_cases hfull : isFull max count = true
    · rw [punctuatedRest_of_isFull hfull, punctuatedRest_of_isFull hfull]
      exact .refl _
    · rw [punctuatedRest, if_neg hfull]
      exact .outOfFuel _
  | fuel + 1, fuel' + 1, hle, count, elements, separators => by
    rw [punctuatedRest, punctuatedRest]
    split
    · exact .refl _
    · refine h.bind fun o => ?_
      cases o with
      | error m => exact .refl _
      | ok values =>
        exact Approximates.punctuatedRest h min max (Nat.le_of_succ_le_succ hle) (count + 1)
          (values.2 :: elements) (values.1 :: separators)

protected theorem punctuated {element element' separator separator' : Cursor → Evaluation Outcome}
    (he : ∀ c, Approximates (element c) (element' c))
    (hs : ∀ c, Approximates (separator c) (separator' c)) (c : Cursor) (min : Int)
    (max : Option Int) {fuel fuel' : Nat} (hle : fuel ≤ fuel') :
    Approximates (punctuated element separator c min max fuel)
      (punctuated element' separator' c min max fuel') := by
  refine (he c).bind fun o => ?_
  cases o with
  | mismatch m => exact .refl _
  | success es =>
    exact (Approximates.refl _).bind fun e =>
      Approximates.punctuatedRest (.separated he hs c) min max hle 1 [e] []

protected theorem optional {body body' : Evaluation Outcome} (h : Approximates body body') :
    Approximates (optional body) (optional body') :=
  h.bind fun _ => .refl _

protected theorem andWithArg {first first' : Evaluation Outcome}
    {second second' : Value → Evaluation Outcome} (hf : Approximates first first')
    (hs : ∀ v, Approximates (second v) (second' v)) :
    Approximates (andWithArg first second) (andWithArg first' second') := by
  refine hf.bind fun o => ?_
  cases o with
  | mismatch m => exact .refl _
  | success vs => exact (Approximates.refl _).bind fun v => (hs v).bind fun _ => .refl _

theorem map_rule {body body' : Evaluation Outcome} (h : Approximates body body')
    (path : Path) (conversion : Conversion) (fn : Mapper) (extra : List Value) :
    Approximates (Evaluation.map path conversion body fn extra)
      (Evaluation.map path conversion body' fn extra) :=
  h.bind fun _ => .refl _

protected theorem mapRange {body body' : Evaluation Outcome} (h : Approximates body body')
    (path : Path) (c : Cursor) (fn : Option Mapper) :
    Approximates (mapRange path body c fn) (mapRange path body' c fn) :=
  (Approximates.refl _).bind fun _ => h.bind fun _ => .refl _

protected theorem expected {body body' : Evaluation Outcome} (h : Approximates body body')
    (c : Cursor) (what : Value) : Approximates (expected body c what) (expected body' c what) :=
  h.bind fun _ => .refl _

protected theorem peek {run run' : Cursor → Evaluation Outcome}
    (h : ∀ c, Approximates (run c) (run' c)) (c : Cursor) :
    Approximates (peek run c) (peek run' c) :=
  (Approximates.refl _).bind fun fork => ((h fork).onFailure _).bind fun _ => .refl _

end Approximates

/-! ## All rules -/

/-- Evaluating a rule with less fuel approximates evaluating it with more. -/
theorem eval_approximates (g : Grammar) (path : Path) : ∀ {fuel fuel' : Nat}, fuel ≤ fuel' →
    ∀ (rule : Rule) (c : Cursor) (arg : Value),
    Approximates (eval g path fuel rule c arg) (eval g path fuel' rule c arg)
  | 0, _, _, rule, c, arg => .outOfFuel _
  | fuel + 1, fuel' + 1, hle, rule, c, arg => by
    have hle' := Nat.le_of_succ_le_succ hle
    have ih := fun r c v => eval_approximates g path hle' r c v
    cases rule with
    | item m => exact .refl _
    | literal content => exact .refl _
    | start => exact .refl _
    | finish => exact .refl _
    | noOp => exact .refl _
    | never n => exact .refl _
    | reference target n =>
      rw [eval, eval]
      cases target.bind g.rule? with
      | none => exact .refl _
      | some r => exact ih r c arg
    | and rules => exact .sequence (fun r => ih r c arg) rules []
    | or rules => exact .choice (fun c r => ih r c arg) c rules
    | repetition r min max => exact .repetition (ih r c arg) min max hle' 0 []
    | optional r => exact .optional (ih r c arg)
    | punctuated element separator min max =>
      exact .punctuated (fun c => ih element c arg) (fun c => ih separator c arg) c min max hle'
    | andWithArg first second => exact .andWithArg (ih first c arg) fun v => ih second c v
    | map conversion r fn withArg => exact .map_rule (ih r c arg) path conversion fn _
    | mapRange r fn => exact .mapRange (ih r c arg) path c fn
    | discard r => exact (ih r c arg).map _
    | expected r what => exact .expected (ih r c arg) c what
    | name r label => exact (ih r c arg).map _
    | peek r => exact .peek (fun c => ih r c arg) c
    | wrapper r => exact ih r c arg
    | abstract => exact .refl _

/-- An evaluation that has ended ends in the same way with more fuel. -/
theorem eval_eq_of_le {g : Grammar} {path : Path} {fuel fuel' : Nat} {rule : Rule} {c : Cursor}
    {arg : Value} {s t : State} {r : Except Halt Outcome}
    (h : (eval g path fuel rule c arg).runFrom s = (r, t)) (hr : r ≠ .error .outOfFuel)
    (hle : fuel ≤ fuel') : (eval g path fuel' rule c arg).runFrom s = (r, t) := by
  rcases eval_approximates g path hle rule c arg s with hout | heq
  · rw [h] at hout
    exact absurd hout hr
  · rw [heq, h]

end Backtrack.Evaluation
