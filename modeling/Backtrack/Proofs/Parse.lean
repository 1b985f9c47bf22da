/-
Evaluations and whole parses, told by what rules read. What scanning ends with over an input in memory,
an evaluation shows at any cursor; and what a rule reads of an input, a parse of a fresh source over that
input gives, whether the input lies in memory or is fed, and on either path.
-/
import Backtrack.Proofs.Evaluates
import Backtrack.Proofs.Raising
import Backtrack.Proofs.Reading
import Backtrack.Proofs.Stack
namespace Backtrack

variable {X : List Value} {path : Path} {data : Sequence} {g : Grammar} {rule : Rule} {arg v : Value}

/-- What scanning ends with, evaluating at an open cursor of a source in memory ends with as it surfaces,
and the cursor gets to where the scan gets. -/
theorem Scan.Ends.shows {s : Evaluation.State} {c : Cursor} {i j : Nat} {r : Except Failure Outcome}
    (h : Ends (fun fuel => Scan.eval (.fixed data) g fuel rule arg) i r j) (hs : s.source.IsOver data)
    (hopen : s.source.isClosed c = false) (hi : s.source.positionOf c = i) (hle : i ≤ data.size)
    (path : Path) : g.Shows path rule c arg s (r.mapError path.surface) j none := by
  obtain ⟨fuel, hfuel⟩ := h
  have hagrees := hs.agrees g path fuel rule arg hopen hi hle
  have hresult := hagrees.result
  have hposition := hagrees.stands.position
  rw [hfuel fuel (le_refl _), Halt.mapError_surfaced_failed] at hresult
  rw [hfuel fuel (le_refl _)] at hposition
  have hbuffer : ((Evaluation.eval g path fuel rule c arg).runFrom s).2.source.buffer =
      .memory data _ := hagrees.stands.shows
  exact ⟨_, ⟨fuel, Prod.ext hresult rfl⟩, hposition, by rw [hbuffer]; rfl⟩

/-- A failure that is not the signal of an iteration's end is shown as it is. -/
theorem Scan.Fails.shows {s : Evaluation.State} {c : Cursor} {i j : Nat} {e : Failure}
    (h : Fails data g arg rule i e j) (he : e.isA .stopIteration = false) (hs : s.source.IsOver data)
    (hopen : s.source.isClosed c = false) (hi : s.source.positionOf c = i) (hle : i ≤ data.size)
    (path : Path) : g.Shows path rule c arg s (.error e) j none := by
  have hshows := Ends.shows h hs hopen hi hle path
  rwa [Except.mapError, Path.surface_eq he] at hshows

/-- A fresh source shows its items, and the root stands before the first of them. -/
theorem Source.Fresh.presented {s : Source} (h : s.Fresh X path) :
    ∃ (data : Sequence) (P : Presentation (.fixed data) path), data.toList = X ∧
      P.Stands ⟨0, ()⟩ s .root := by
  cases h with
  | @memory v data hv hcount hdata =>
    exact ⟨data, .memory data path, hdata,
      (Source.IsOver.ofData hv hcount).stands rfl rfl (Nat.zero_le _)⟩
  | @feed feed chunked feedPath hfeed hpath =>
    have hitems : (Sequence.items .list X.toArray).toList = X := by simp [Sequence.toList]
    exact ⟨.items .list X.toArray, .stream _ path, hitems,
      ⟨_, rfl, hpath, le_refl _, .ofFeed (hitems.symm ▸ hfeed) feedPath⟩, rfl, rfl, le_refl _,
      le_refl _⟩

namespace Evaluation

/-- A parse by a rule with one value gives that value. -/
theorem runFrom_parse_of_single {fuel : Nat} {c : Cursor} {s u : State} (harity : rule.arity = 1)
    (h : (eval g path fuel rule c arg).runFrom (s.parsing path rule c) = (.ok (.single v), u)) :
    ∃ w, (parse g path fuel rule c arg).runFrom s = (.ok v, w) ∧ w.source = u.source := by
  rw [runFrom_parse_eq, runFrom_bind, runFrom_onFailure, h]
  refine ⟨{ u with journal := u.journal.addNote (.matched rule (u.source.positionOf c)) }, ?_, rfl⟩
  simp only [afterFailure, Outcome.single, result, if_pos harity]
  rfl

end Evaluation

/-- A rule that reads of an input up to an index gives what it reads, and leaves the root there. -/
theorem Scan.Reads.parse {s : Source} {j : Nat} (hs : s.Fresh X path) (harity : rule.arity = 1)
    (h : ∀ data, data.toList = X → Reads data g arg rule 0 (.single v) j) :
    ∃ least, ∀ fuel ≥ least, ∃ t,
      (Evaluation.parseOperand g path fuel (.rule rule) .root arg).runFrom (.ofSource s) =
        (.ok v, t) ∧ t.source.position = j := by
  obtain ⟨data, P, hdata, hstands⟩ := hs.presented
  obtain ⟨n, hn⟩ := h data hdata
  refine ⟨n, fun fuel hfuel => ?_⟩
  have hagrees := Presentation.eval_simulates P g fuel rule .root arg ⟨0, ()⟩
    ((Evaluation.State.ofSource s).parsing path rule .root) hstands
  have hresult := hagrees.result
  have hposition := hagrees.stands.position
  rw [hn fuel hfuel] at hresult hposition
  obtain ⟨t, hrun, hsource⟩ := Evaluation.runFrom_parse_of_single (u := _) harity
    (Prod.ext hresult rfl)
  refine ⟨t, by rw [Evaluation.parseOperand_rule, hrun], ?_⟩
  rw [hsource]
  simpa [Source.positionOf, Source.offset] using hposition

end Backtrack
