/-
Safety. Accepted rules whose definitions are all there do not go wrong: evaluated at an open cursor
over a sequence in memory or a stream that can be read, they fail only with what a predicate, a mapper,
an expectation or the feed raises, or an item that refuses its hash where it is looked up in a
collection. No cursor in use is ever closed, no fork is joined in vain, nothing is consumed that does
not wait, and no value is taken of an empty success.
-/
import Backtrack.Proofs.Raising
import Backtrack.Proofs.Sequence
namespace Backtrack

open Source (Moved Inside)

/-! ## Failing feeds -/

namespace Buffer

variable {b b' : Buffer} {path : Path} {f : Failure}

/-- The buffer can be read on the path: it is over a sequence in memory, or over a feed that can be
pulled on it. -/
def Usable (path : Path) (b : Buffer) : Prop :=
  match b.base with
  | .memory _ => True
  | .stream _ feedPath => feedPath = .suspending → path = .suspending
  | .irregular _ => False

theorem Usable.countable (h : b.Usable path) : b.countFailure? = none := by
  cases b with
  | memory data start => rfl
  | stream s => rfl
  | irregular data start => cases h

theorem Later.usable (h : b.Later b') (hb : b.Usable path) : b'.Usable path := by
  rw [Usable, h.base]
  exact hb

end Buffer

namespace Evaluation

variable {g : Grammar} {path : Path} {c : Cursor} {s t : State}

/-! ## Reading and consuming -/

end Evaluation

/-- The test says how it is made. -/
def Matcher.IsComplete : Matcher → Prop
  | is _ | not _ | anyOf _ | one _ => True
  | isMatch m | notMatch m => IsComplete m
  | abstract => False

/-- The rule is no abstract one, nor one with an abstract test, nor a reference to a definition
without a rule. -/
def Rule.IsComplete (g : Grammar) : Rule → Prop
  | item m => m.IsComplete
  | reference target _ => (target.bind g.rule?).isSome = true
  | abstract => False
  | _ => True

namespace Evaluation

variable {g : Grammar} {path : Path}

/-- The visit is safe: of a well-formed rule that reaches only complete ones, at an open cursor over a
buffer that can be read. -/
structure Visit.Safe (g : Grammar) (path : Path) (K : Visit) : Prop where
  wellFormed : K.rule.WellFormed g
  complete : ∀ r, g.Reaches K.rule r → r.IsComplete g
  isOpen : K.state.source.isClosed K.cursor = false
  usable : K.state.source.buffer.Usable path
  nonneg : 0 ≤ K.state.source.buffer.available

namespace Visit

variable {K J : Visit} {f : Failure}

theorem Safe.orderly (h : K.Safe g path) : K.state.source.Orderly := ⟨h.usable.countable, h.nonneg⟩

/-- The parts of a safe visit are safe. -/
theorem Safe.of_mem_parts (hg : g.WellFormed) (h : K.Safe g path) (hJ : J ∈ K.parts g path) :
    J.Safe g path := by
  obtain ⟨-, hpart⟩ := Visit.of_mem_parts hJ
  have hwell := h.wellFormed.of_mem_parts hg hpart
  have hcomplete : ∀ r, g.Reaches J.rule r → r.IsComplete g :=
    fun r hr => h.complete r (.head hpart hr)
  cases ledFrom_of_mem_parts h.orderly hJ with
  | here hcursor hmoved =>
    refine ⟨hwell, hcomplete, ?_, hmoved.buffer.usable h.usable, hmoved.available_nonneg h.nonneg⟩
    rw [hcursor, hmoved.isClosed]
    exact h.isOpen
  | inFork hmoved hcursor hinside =>
    have hparent := hmoved.trans hinside.parent_moved
    refine ⟨hwell, hcomplete, ?_, hparent.buffer.usable h.usable, hparent.available_nonneg h.nonneg⟩
    rw [hcursor]
    exact hinside.isClosed_fork

/-- On the way to a visit the buffer changes only by filling and by consuming. -/
theorem ComesTo.later (hs : K.state.source.Orderly) (h : K.ComesTo g path J) :
    K.state.source.buffer.Later J.state.source.buffer := by
  induction h with
  | refl => exact .refl _
  | tail hcomes hmem ih =>
    refine ih.trans ?_
    cases ledFrom_of_mem_parts (orderly_of_comesTo hs hcomes) hmem with
    | here hcursor hmoved => exact hmoved.buffer
    | inFork hmoved hcursor hinside => exact hmoved.buffer.trans hinside.parent_moved.buffer

end Visit

end Evaluation

end Backtrack
