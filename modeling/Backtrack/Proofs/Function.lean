/-
Predicates and mappers during an evaluation: calling one leaves the source alone, and what it gives
does not depend on the state of the evaluation. Only the journal may tell of the call. A failure
surfaces by the path; that of a test by equality does so on either path as what it is.
-/
import Backtrack.Proofs.Scan
import Backtrack.Proofs.Signals
import Mathlib.Tactic
namespace Backtrack

namespace Evaluation

variable {α β : Type}

/-- The computation leaves the source alone, and gives `r` whatever the state. -/
def Still (x : Evaluation α) (r : Except Failure α) : Prop :=
  ∀ s, (x.runFrom s).1 = r.mapError .failed ∧ (x.runFrom s).2.source = s.source

theorem Still.pure (v : α) : Still (pure v) (.ok v) := fun _ => ⟨rfl, rfl⟩

theorem Still.ofExcept (r : Except Failure α) : Still (ofExcept r) r := by
  intro s
  cases r with
  | ok v => exact ⟨rfl, rfl⟩
  | error f => exact ⟨rfl, rfl⟩

theorem Still.bind {x : Evaluation α} {r : Except Failure α} {f : α → Evaluation β}
    {q : α → Except Failure β} (hx : Still x r) (hf : ∀ v, Still (f v) (q v)) :
    Still (x >>= f) (r >>= q) := by
  intro s
  obtain ⟨hr, hs⟩ := hx s
  rw [runFrom_bind]
  rcases h : x.runFrom s with ⟨r', t⟩
  rw [h] at hr hs
  simp only at hr hs
  subst hr
  cases r with
  | error e => exact ⟨rfl, hs⟩
  | ok v => exact ⟨(hf v t).1, (hf v t).2.trans hs⟩

/-- It fails only where there is nothing to give. -/
theorem Still.eq_error {x : Evaluation α} {r : Except Failure α} (h : Still x r) {s : State}
    {f : Failure} (hf : (x.runFrom s).1 = .error (.failed f)) : r = .error f := by
  rw [(h s).1] at hf
  cases r with
  | ok v => cases hf
  | error e =>
    cases hf
    rfl

theorem Still.map {x : Evaluation α} {r : Except Failure α} (f : α → β) (h : Still x r) :
    Still (f <$> x) (f <$> r) := by
  rw [map_eq_pure_bind, map_eq_pure_bind]
  exact h.bind fun v => .pure (f v)

theorem Still.recordCall (recorded : Bool) (name : Text) (args : List Value) :
    Still (recordCall recorded name args) (.ok ()) := by
  intro s
  cases recorded with
  | false => exact ⟨rfl, rfl⟩
  | true => exact ⟨rfl, rfl⟩

theorem Still.holds (path : Path) (p : Predicate) (item arg : Value) :
    Still (holds path p item arg) (Value.truthy <$> (p.run item arg).mapError path.surface) :=
  (Still.recordCall _ _ _).bind fun _ => .map _ (.ofExcept _)

/-- A test gives what the item is told to pass by, up to how failures surface. -/
theorem Still.passes (path : Path) (item arg : Value) : ∀ m : Matcher,
    Still (passes path item arg m) ((m.accepts item arg).mapError path.surface)
  | .is p => by
    rw [Matcher.accepts, Except.mapError_map]
    exact .holds path p item arg
  | .isMatch m => passes path item arg m
  | .not p => by
    rw [Matcher.accepts, Except.mapError_map]
    have h := (Still.holds path p item arg).map Bool.not
    rwa [← comp_map] at h
  | .notMatch m => by
    rw [Matcher.accepts, Except.mapError_map]
    exact (passes path item arg m).map _
  | .anyOf members => by
    rw [Matcher.accepts, Path.mapError_surface fun f h => by
      rw [Members.eq_writableView_of_contains h]; rfl]
    exact .ofExcept _
  | .one v => by
    rw [Matcher.accepts, Path.mapError_surface fun f h => by
      rw [Members.eq_writableView_of_found h]; rfl]
    exact .ofExcept _
  | .abstract => by
    rw [Matcher.accepts, Path.mapError_surface fun f h => by cases h; rfl]
    exact .ofExcept (.error notImplemented)

theorem Still.call (path : Path) (conversion : Conversion) (fn : Mapper) (args : List Value) :
    Still (call path conversion fn args) ((conversion.apply fn args).mapError path.surface) := by
  refine (Still.recordCall _ _ _).bind
    (q := fun _ => (conversion.apply fn args).mapError path.surface) fun _ => ?_
  rw [Conversion.apply]
  cases fn.run args with
  | ok v => exact .pure (conversion.accept v)
  | error f => exact .ofExcept (.error (path.surface (conversion.report f)))

end Evaluation
end Backtrack
