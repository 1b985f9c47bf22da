/-
Looking ahead is invisible. Nobody but the rule itself can tell whether it was evaluated at a cursor or
in a fork of it, and what a lookahead leaves behind is at most a buffer that has got further. So a
lookahead has the result of its rule and pulls what the rule pulls; and the rule behind it is replayed
where the rule succeeded (`eval_again`), and has the result and the position of the rule alone.
-/
import Backtrack.Proofs.Leading
import Backtrack.Proofs.Factoring
namespace Backtrack

open Source (Inside Moved Stands)

namespace Evaluation

open Tandem (same)

variable {g : Grammar} {path : Path} {fuel : Nat} {rule : Rule} {arg : Value} {c d : Cursor}
  {s u v : State} {r : Except Halt Outcome}

/-! ## A rule at a cursor and in a fork -/

/-- The runs have the same result, pulled the same, and leave their cursors at the same position. -/
structure Abreast (c d : Cursor) (ran ran' : Except Halt Outcome × State) : Prop where
  result : ran'.1 = ran.1
  position : ran'.2.source.positionOf d = ran.2.source.positionOf c
  pulled : ran'.2.source.buffer.pulled? = ran.2.source.buffer.pulled?

/-- It makes no difference whether a rule is evaluated at a cursor or in a new fork of it, as long as the
root, if it is the cursor, can take over what its forks consume. -/
theorem abreast_fork (hs : c = .root → s.source.Orderly) (hc : s.source.isClosed c = false) (g : Grammar)
    (path : Path) (fuel : Nat) (rule : Rule) (arg : Value) :
    Abreast c (.fork s.source.forks.size) ((eval g path fuel rule c arg).runFrom s)
      ((eval g path fuel rule (.fork s.source.forks.size) arg).runFrom (s.addFork c)) := by
  rcases hrun : (eval g path fuel rule c arg).runFrom s with ⟨r, t⟩
  cases c with
  | root =>
    have hshifted : Pairing.shift.States .root (.fork s.source.forks.size) s (s.addFork .root) :=
      (hs rfl).shifted_fork.withEvents s.source.events []
    have hagree := Pairing.Together.eval .shift g path fuel rule arg arg (fun _ => rfl) _ _ _ _ hshifted
    rw [hrun] at hagree
    rcases hagree with ⟨⟨⟩, -⟩ | ⟨u, hrun', hu⟩
    rw [hrun']
    exact ⟨rfl, hu.positionOf, hu.buffer.pulled?⟩
  | fork id =>
    have hself : same.Alike (.fork id) (.fork id) s.source s.source :=
      ⟨rfl, rfl, rfl, trivial, nofun, nofun, hc, hc⟩
    have hforks : same.Alike (.fork id) (.fork s.source.forks.size) s.source
        (s.addFork (.fork id)).source := hself.fork_right.withEvents s.source.events []
    rcases Tandem.eval same hforks hrun with ⟨⟨⟩, -⟩ | ⟨u, hrun', hu⟩
    rw [hrun']
    exact ⟨rfl, hu.positionOf, congrArg Buffer.pulled? hu.buffer⟩

/-! ## Looking ahead -/

/-- A lookahead ends as its rule does in a fork. What the rule has pulled stays pulled, and the cursor
stands where it stood. -/
theorem Tries.peek {x : Cursor → Evaluation Outcome} (h : Tries x c s r u) :
    ∃ v, (Evaluation.peek x c).runFrom s = (r, v) ∧ v.source.buffer = u.source.buffer ∧
      Stands c s.source v.source := by
  obtain ⟨v, hclose, hv⟩ := h.close
  rw [Evaluation.peek, runFrom_bind_of_ok (runFrom_fork h.inside.isOpen), runFrom_bind, runFrom_onFailure,
    h.run]
  rcases r with (f | _) | o
  · refine ⟨v, ?_, hv⟩
    simp only [afterFailure, hclose]
  · exact ⟨u, rfl, rfl, h.stands⟩
  · refine ⟨v, ?_, hv⟩
    simp only [afterFailure]
    rw [runFrom_bind_of_ok hclose, runFrom_pure]

/-- The fork in which a rule is tried. -/
theorem tries (hc : s.source.isClosed c = false) (g : Grammar) (path : Path) (fuel : Nat) (rule : Rule)
    (arg : Value) :
    Tries (fun c => eval g path fuel rule c arg) c s
      ((eval g path fuel rule (.fork s.source.forks.size) arg).runFrom (s.addFork c)).1
      ((eval g path fuel rule (.fork s.source.forks.size) arg).runFrom (s.addFork c)).2 :=
  .of_run (fun c => eval_moves g path fuel rule c arg) hc rfl

variable (g path fuel rule arg) in
/-- A rule behind a lookahead for it, which gives no values. -/
def foreseen (c : Cursor) : Evaluation Outcome :=
  followedBy (valueless <$> peek (fun c => eval g path fuel rule c arg) c) (eval g path fuel rule c arg)

/-- After a lookahead the rule is replayed. -/
theorem abreast_again (hs : c = .root → s.source.Orderly) {o : Outcome}
    (h : Tries (fun c => eval g path fuel rule c arg) c s (.ok o) u)
    (hv : Stands c s.source v.source) (hbuffer : v.source.buffer = u.source.buffer) :
    Abreast (.fork s.source.forks.size) c (.ok o, u) ((eval g path fuel rule c arg).runFrom v) := by
  have hopen := h.inside.isOpen
  obtain ⟨w, hagain, hstays, halike⟩ := eval_again hopen h.run hv (hbuffer ▸ .refl _)
    fun hidle => hbuffer.trans hidle.buffer.1
  have horderly : c = .root → v.source.Orderly := fun hroot => by
    have hu : u.source.Orderly := h.inside.parent_moved.orderly (hs hroot)
    exact ⟨hbuffer ▸ hu.countable, hbuffer ▸ hu.nonneg⟩
  have habreast := abreast_fork horderly hv.isOpen g path fuel rule arg
  rw [hagain] at habreast
  exact ⟨habreast.result.symm, habreast.position.symm.trans halike.positionOf,
    habreast.pulled.symm.trans (congrArg Buffer.pulled? (hstays.trans hbuffer))⟩

variable (g path fuel rule arg) in
/-- A lookahead has the result of its rule, pulls what the rule pulls, and leaves its cursor where it
was. -/
theorem peek_eq_eval (hs : c = .root → s.source.Orderly) (hc : s.source.isClosed c = false) :
    ∃ v, (peek (fun c => eval g path fuel rule c arg) c).runFrom s =
        (((eval g path fuel rule c arg).runFrom s).1, v) ∧
      Stands c s.source v.source ∧
      v.source.buffer.pulled? = ((eval g path fuel rule c arg).runFrom s).2.source.buffer.pulled? := by
  have habreast := abreast_fork hs hc g path fuel rule arg
  obtain ⟨v, hpeek, hbuffer, hv⟩ := (tries hc g path fuel rule arg).peek
  rw [habreast.result] at hpeek
  exact ⟨v, hpeek, hv, (congrArg Buffer.pulled? hbuffer).trans habreast.pulled⟩

variable (g path fuel rule arg) in
/-- Behind a lookahead the rule has its own result, pulls what it pulls alone, and gets where it gets
alone if it succeeds. -/
theorem foreseen_eq_eval (hs : c = .root → s.source.Orderly) (hc : s.source.isClosed c = false) :
    ∃ w, (foreseen g path fuel rule arg c).runFrom s = (((eval g path fuel rule c arg).runFrom s).1, w) ∧
      w.source.buffer.pulled? = ((eval g path fuel rule c arg).runFrom s).2.source.buffer.pulled? ∧
      ∀ vs, ((eval g path fuel rule c arg).runFrom s).1 = .ok (.success vs) →
        w.source.positionOf c = ((eval g path fuel rule c arg).runFrom s).2.source.positionOf c := by
  have habreast := abreast_fork hs hc g path fuel rule arg
  have htries := tries hc g path fuel rule arg
  obtain ⟨v, hpeek, hbuffer, hv⟩ := htries.peek
  rw [← habreast.result, ← habreast.position, ← habreast.pulled]
  have hdiscard : (valueless <$> peek (fun c => eval g path fuel rule c arg) c).runFrom s = _ :=
    runFrom_map_of_eq valueless hpeek
  rcases hrun : (eval g path fuel rule (.fork s.source.forks.size) arg).runFrom (s.addFork c) with
    ⟨e | (vs | m), u⟩ <;> rw [hrun] at htries hdiscard hbuffer
  · exact ⟨v, followedBy_of_error hdiscard, congrArg Buffer.pulled? hbuffer, nofun⟩
  · -- the rule is replayed
    rcases hagain : (eval g path fuel rule c arg).runFrom v with ⟨q, w⟩
    have hreplayed := abreast_again hs htries hv hbuffer
    rw [hagain] at hreplayed
    obtain ⟨rfl, hposition, hpulled⟩ := hreplayed
    exact ⟨w, followedBy_of_success hdiscard hagain, hpulled, fun _ _ => hposition⟩
  · exact ⟨v, followedBy_of_mismatch hdiscard, congrArg Buffer.pulled? hbuffer, nofun⟩

/-! ## With enough fuel -/

theorem foreseen_approximates (g : Grammar) (path : Path) (fuel : Nat) (rule : Rule) (arg : Value)
    (c : Cursor) :
    Approximates (foreseen g path fuel rule arg c)
      (eval g path (fuel + 3) (.and [.discard (.peek rule), rule]) c arg) := by
  rw [eval, sequence_pair]
  exact .followedBy (.refl _) (eval_approximates g path (Nat.le_add_right fuel 2) rule c arg)

theorem approximates_foreseen (g : Grammar) (path : Path) (fuel : Nat) (rule : Rule) (arg : Value)
    (c : Cursor) :
    Approximates (eval g path (fuel + 1) (.and [.discard (.peek rule), rule]) c arg)
      (foreseen g path fuel rule arg c) := by
  rw [eval, sequence_pair]
  exact .followedBy (eval_approximates g path (Nat.le_add_right fuel 2) (.discard (.peek rule)) c arg)
    (.refl _)

end Evaluation

open Evaluation

namespace Grammar

variable {g : Grammar} {path : Path} {rule : Rule} {c : Cursor} {arg : Value} {s : State}

theorem shows_peek_iff (hs : c = .root → s.source.Orderly) (hc : s.source.isClosed c = false)
    {r : Except Failure Outcome} {position : Int} {pulled : Option Nat} :
    g.Shows path (.peek rule) c arg s r position pulled ↔
      position = s.source.positionOf c ∧ ∃ p, g.Shows path rule c arg s r p pulled := by
  constructor
  · rintro ⟨t, ht, rfl, rfl⟩
    obtain ⟨fuel, hrun⟩ := ht.exists_succ
    obtain ⟨v, hpeek, hv, hpulled⟩ := peek_eq_eval g path fuel rule arg hs hc
    obtain ⟨hresult, rfl⟩ := Prod.mk.inj (hpeek.symm.trans hrun)
    exact ⟨hv.positionOf, _, _, ⟨fuel, Prod.ext hresult rfl⟩, rfl, hpulled.symm⟩
  · rintro ⟨rfl, p, t, ⟨fuel, hrun⟩, -, rfl⟩
    obtain ⟨v, hpeek, hv, hpulled⟩ := peek_eq_eval g path fuel rule arg hs hc
    rw [hrun] at hpeek hpulled
    exact ⟨v, ⟨fuel + 1, hpeek⟩, hv.positionOf, hpulled⟩

/-- What a rule shows behind a lookahead for it, it shows alone, at the same position if it succeeds. -/
theorem Shows.of_foreseen (hs : c = .root → s.source.Orderly) (hc : s.source.isClosed c = false)
    {r : Except Failure Outcome} {position : Int} {pulled : Option Nat}
    (h : g.Shows path (.and [.discard (.peek rule), rule]) c arg s r position pulled) :
    ∃ p, g.Shows path rule c arg s r p pulled ∧ ∀ vs, r = .ok (.success vs) → p = position := by
  obtain ⟨t, ht, rfl, rfl⟩ := h
  obtain ⟨fuel, hrun⟩ := ht.exists_succ
  obtain ⟨w, hforeseen, hpulled, hposition⟩ := foreseen_eq_eval g path fuel rule arg hs hc
  have hrun' := (approximates_foreseen g path fuel rule arg c).runFrom_eq hrun
  obtain ⟨hresult, rfl⟩ := Prod.mk.inj (hforeseen.symm.trans hrun')
  refine ⟨_, ⟨_, ⟨fuel, Prod.ext hresult rfl⟩, rfl, hpulled.symm⟩, ?_⟩
  rintro vs rfl
  exact (hposition vs hresult).symm

/-- What a rule shows alone, it shows behind a lookahead for it, at the same position if it succeeds. -/
theorem Shows.foreseen (hs : c = .root → s.source.Orderly) (hc : s.source.isClosed c = false)
    {r : Except Failure Outcome} {position : Int} {pulled : Option Nat}
    (h : g.Shows path rule c arg s r position pulled) :
    ∃ p, g.Shows path (.and [.discard (.peek rule), rule]) c arg s r p pulled ∧
      ∀ vs, r = .ok (.success vs) → p = position := by
  obtain ⟨t, ⟨fuel, hrun⟩, rfl, rfl⟩ := h
  obtain ⟨w, hforeseen, hpulled, hposition⟩ := foreseen_eq_eval g path fuel rule arg hs hc
  rw [hrun] at hforeseen hpulled hposition
  have hrun' := (foreseen_approximates g path fuel rule arg c).runFrom_eq hforeseen
  refine ⟨_, ⟨w, ⟨fuel + 3, hrun'⟩, rfl, hpulled⟩, ?_⟩
  rintro vs rfl
  exact hposition vs rfl

/-- Looking ahead is invisible, at the root as long as its items can be counted. A lookahead ends as its
rule does from the same state, be it with values, with a mismatch or with a failure, and leaves its
cursor where it was. A rule behind a lookahead for it ends as it does alone, and gets where it gets alone
if it succeeds. In either case the feed gives as many elements as to the rule alone. -/
theorem lookahead_invisible (g : Grammar) (path : Path) (rule : Rule) (arg : Value)
    (hs : c = .root → s.source.Orderly) (hc : s.source.isClosed c = false) (r : Except Failure Outcome)
    (position : Int) (pulled : Option Nat) :
    (g.Shows path (.peek rule) c arg s r position pulled ↔
      position = s.source.positionOf c ∧ ∃ p, g.Shows path rule c arg s r p pulled) ∧
    ((∃ p, g.Shows path (.and [.discard (.peek rule), rule]) c arg s r p pulled) ↔
      ∃ p, g.Shows path rule c arg s r p pulled) ∧
    ∀ vs, r = .ok (.success vs) →
      (g.Shows path (.and [.discard (.peek rule), rule]) c arg s r position pulled ↔
        g.Shows path rule c arg s r position pulled) := by
  refine ⟨shows_peek_iff hs hc, ⟨?_, ?_⟩, fun vs hr => ⟨fun h => ?_, fun h => ?_⟩⟩
  · rintro ⟨p, h⟩
    obtain ⟨p', h', -⟩ := h.of_foreseen hs hc
    exact ⟨p', h'⟩
  · rintro ⟨p, h⟩
    obtain ⟨p', h', -⟩ := h.foreseen hs hc
    exact ⟨p', h'⟩
  · obtain ⟨p, h', hp⟩ := h.of_foreseen hs hc
    exact hp vs hr ▸ h'
  · obtain ⟨p, h', hp⟩ := h.foreseen hs hc
    exact hp vs hr ▸ h'

/-- Two ones, behind which the feed fails: they are looked for, and looked for ahead and then read. -/
theorem lookahead_invisible_ones :
    let ones : Rule := .and [.item (.one (.int 1)), .item (.one (.int 1))]
    let s : State := .ofSource
      (.ofFeed [.value (.int 1), .value (.int 1), .failing ⟨.lengthTooLarge, rfl⟩] false .blocking)
    (s.source.Orderly ∧ s.source.isClosed .root = false) ∧
      Grammar.empty.Shows .blocking (.peek ones) .root .none s (.ok (.success [.int 1, .int 1])) 0
        (some 2) ∧
      Grammar.empty.Shows .blocking (.and [.discard (.peek ones), ones]) .root .none s
        (.ok (.success [.int 1, .int 1])) 2 (some 2) := by
  intro ones s
  have hs : s.source.Orderly := ⟨rfl, by decide⟩
  have hopen : s.source.isClosed .root = false := rfl
  have hones : Grammar.empty.Shows .blocking ones .root .none s (.ok (.success [.int 1, .int 1])) 2
      (some 2) := ⟨_, ⟨2, rfl⟩, rfl, rfl⟩
  obtain ⟨hpeek, -, -⟩ := lookahead_invisible .empty .blocking ones .none (fun _ => hs) hopen
    (.ok (.success [.int 1, .int 1])) 0 (some 2)
  obtain ⟨-, -, hbehind⟩ := lookahead_invisible .empty .blocking ones .none (fun _ => hs) hopen
    (.ok (.success [.int 1, .int 1])) 2 (some 2)
  exact ⟨⟨hs, hopen⟩, hpeek.2 ⟨rfl, 2, hones⟩, (hbehind _ rfl).2 hones⟩

/-- Over a range with more members than a length can tell, the root cannot take over what an alternative
consumed, even if that is nothing; to a lookahead, which gives its fork up, it never comes to that. -/
theorem not_lookahead_invisible_longRange :
    let s : State := .ofSource (.ofData (.range 0 (2 ^ 63) 1))
    s.source.isClosed .root = false ∧
      Grammar.empty.Shows .blocking (.peek (.or [.noOp])) .root .none s (.ok (.success [])) 0 none ∧
      Grammar.empty.Shows .blocking (.or [.noOp]) .root .none s (.error .lengthTooLarge) 0 none ∧
      ¬ ∃ p, Grammar.empty.Shows .blocking (.or [.noOp]) .root .none s (.ok (.success [])) p none := by
  intro s
  have halone : Grammar.empty.Evaluates .blocking (.or [.noOp]) .root .none s (.error .lengthTooLarge)
      ((Evaluation.eval .empty .blocking 2 (.or [.noOp]) .root .none).runFrom s).2 := ⟨2, rfl⟩
  refine ⟨rfl, ⟨_, ⟨3, rfl⟩, rfl, rfl⟩, ⟨_, halone, rfl, rfl⟩, ?_⟩
  rintro ⟨p, t, ht, -, -⟩
  cases (halone.unique ht).1

end Grammar

end Backtrack
