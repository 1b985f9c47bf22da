/-
Two runs side by side. A coupling says which buffers of two evaluations belong together, and which
buffers of the first one are lost: from them on nothing is said any more. Two computations are coupled
if from states that belong together they give the same result in states that belong together, but for
how failures surface, or else the first one is lost. Buffers that belong together have to show the
same: as many items wait, slices are the same, and they go on belonging together where they are filled
or consumed. Then every operation at a cursor is coupled, and every rule, whatever paths the two
evaluations take and whatever was noted before.
-/
import Backtrack.Parse
import Backtrack.Proofs.Signals
namespace Backtrack

/-! ## Journals behind earlier notes -/

/-- The journal with earlier notes before its own. -/
def Journal.behind (earlier : Array Note) (j : Journal) : Journal :=
  { j with notes := earlier ++ j.notes }

@[simp] theorem Journal.behind_empty (j : Journal) : j.behind #[] = j := by simp [behind]

theorem Journal.addNote_behind (earlier : Array Note) (j : Journal) (n : Note) :
    (j.behind earlier).addNote n = (j.addNote n).behind earlier := by
  simp [behind, addNote]

theorem Journal.addEvents_behind (earlier : Array Note) : ∀ (events : List Event) (j : Journal),
    (j.behind earlier).addEvents events = (j.addEvents events).behind earlier
  | [], j => rfl
  | e :: events, j => by
    rw [addEvents, addEvents, addNote_behind, addEvents_behind earlier events]

/-! ## Couplings -/

/-- What two evaluations are compared by: the paths that they take, the path as on which failures of
the first one have still to surface, what was noted before each of them, which buffers belong together,
and which buffers of the first evaluation are lost. -/
structure Coupling where
  path : Path
  path' : Path
  surfacing : Path
  earlier : Array Note
  earlier' : Array Note
  related : Buffer → Buffer → Prop
  lost : Buffer → Prop

namespace Coupling

/-- Buffers that belong together show the same and go on belonging together, unless the first is lost;
what is lost stays lost. -/
class Lawful (C : Coupling) : Prop where
  surface (f : Failure) : C.surfacing.surface (C.path.surface f) = C.path'.surface f
  available {b b' : Buffer} (h : C.related b b') : b'.available = b.available
  countFailure? {b b' : Buffer} (h : C.related b b') : b'.countFailure? = b.countFailure?
  slice {b b' : Buffer} (h : C.related b b') (first last : Int) :
    b'.slice first last = b.slice first last
  consume {b b' : Buffer} (h : C.related b b') (n : Int) :
    (b'.consume n).2 = (b.consume n).2 ∧ C.related (b.consume n).1 (b'.consume n).1
  fill {b b' : Buffer} (h : C.related b b') (n : Int) :
    C.lost (b.fill C.path n).1 ∨
      (b'.fill C.path' n).2 = (b.fill C.path n).2 ∧ C.related (b.fill C.path n).1 (b'.fill C.path' n).1
  lost_consume {b : Buffer} (h : C.lost b) (n : Int) : C.lost (b.consume n).1
  lost_fill {b : Buffer} (h : C.lost b) (n : Int) : C.lost (b.fill C.path n).1

/-- The sources differ in their buffers only, and these belong together. -/
structure Sources (C : Coupling) (s s' : Source) : Prop where
  buffer : C.related s.buffer s'.buffer
  position : s'.position = s.position
  forks : s'.forks = s.forks
  events : s'.events = s.events

/-- The sources differ in their buffers only, and the journals in what was noted before. -/
structure States (C : Coupling) (s s' : Evaluation.State) : Prop where
  source : C.Sources s.source s'.source
  journal : ∃ j : Journal, s.journal = j.behind C.earlier ∧ s'.journal = j.behind C.earlier'

namespace Sources

variable {C : Coupling} {s s' : Source}

theorem eq (h : C.Sources s s') : s' = { s with buffer := s'.buffer } := by
  obtain ⟨buffer, position, forks, events⟩ := s
  obtain ⟨buffer', position', forks', events'⟩ := s'
  obtain ⟨-, hposition, hforks, hevents⟩ := h
  cases hposition
  cases hforks
  cases hevents
  rfl

theorem offset (h : C.Sources s s') (c : Cursor) : s'.offset c = s.offset c := by
  rw [h.eq]
  rfl

theorem isClosed (h : C.Sources s s') (c : Cursor) : s'.isClosed c = s.isClosed c := by
  rw [h.eq]
  rfl

theorem forkAt (h : C.Sources s s') (id : Nat) : s'.forkAt id = s.forkAt id := by
  rw [h.eq]
  rfl

theorem positionOf (h : C.Sources s s') (c : Cursor) : s'.positionOf c = s.positionOf c := by
  rw [h.eq]
  rfl

theorem setFork (h : C.Sources s s') (id : Nat) (f : Fork → Fork) :
    C.Sources (s.setFork id f) (s'.setFork id f) :=
  ⟨h.buffer, h.position, by rw [Source.setFork, Source.setFork, h.forks], h.events⟩

theorem addFork (h : C.Sources s s') (c : Cursor) : C.Sources (s.addFork c) (s'.addFork c) :=
  ⟨h.buffer, h.position, by rw [Source.addFork, Source.addFork, h.forks, h.offset], h.events⟩

theorem withEvents (h : C.Sources s s') (events : List Event) :
    C.Sources { s with events := events } { s' with events := events } :=
  ⟨h.buffer, h.position, h.forks, rfl⟩

theorem consumeFailure? [C.Lawful] (h : C.Sources s s') (offset amount : Int) :
    Source.consumeFailure? s'.buffer offset amount = Source.consumeFailure? s.buffer offset amount := by
  simp only [Source.consumeFailure?, Lawful.countFailure? h.buffer, Lawful.available h.buffer]

end Sources

/-- What is added to a journal does not depend on what was noted before. -/
theorem States.journaling {C : Coupling} {s s' : Evaluation.State} (h : C.States s s')
    {t t' : Source} (ht : C.Sources t t') (add : Journal → Journal)
    (hadd : ∀ earlier j, add (j.behind earlier) = (add j).behind earlier) :
    C.States ⟨t, add s.journal⟩ ⟨t', add s'.journal⟩ := by
  obtain ⟨j, hj, hj'⟩ := h.journal
  exact ⟨ht, add j, by rw [hj, hadd], by rw [hj', hadd]⟩

end Coupling

/-! ## Operations -/

/-- From sources that belong together the operations give the same result and sources that belong
together, unless the first source is lost; what is lost stays lost. -/
structure SourceM.Coupled (C : Coupling) {α : Type} (x y : SourceM α) : Prop where
  stays : ∀ s, C.lost s.buffer → C.lost (x.runOn s).2.buffer
  agrees : ∀ s s', C.Sources s s' → C.lost (x.runOn s).2.buffer ∨
    (y.runOn s').1 = (x.runOn s).1 ∧ C.Sources (x.runOn s).2 (y.runOn s').2

namespace SourceM.Coupled

open Source
open Coupling (Lawful Sources)

variable {C : Coupling}

protected theorem fork (c : Cursor) : Coupled C (fork c) (fork c) := by
  refine ⟨fun s hs => ?_, fun s s' hs => .inr ?_⟩
  · cases hc : s.isClosed c with
    | true => rwa [runOn_fork_of_closed hc]
    | false => rwa [runOn_fork hc]
  · cases hc : s.isClosed c with
    | true =>
      rw [runOn_fork_of_closed hc, runOn_fork_of_closed ((hs.isClosed c).trans hc)]
      exact ⟨rfl, hs⟩
    | false =>
      rw [runOn_fork hc, runOn_fork ((hs.isClosed c).trans hc), hs.forks]
      exact ⟨rfl, hs.addFork c⟩

protected theorem close (c : Cursor) : Coupled C (close c) (close c) := by
  cases c with
  | root => exact ⟨fun s hs => hs, fun s s' hs => .inr ⟨rfl, hs⟩⟩
  | fork id => exact ⟨fun s hs => hs, fun s s' hs => .inr ⟨rfl, hs.setFork id _⟩⟩

variable [C.Lawful]

protected theorem read (c : Cursor) (amount : Int) :
    Coupled C (read C.path c amount) (read C.path' c amount) := by
  refine ⟨fun s hs => ?_, fun s s' hs => ?_⟩
  · cases hc : s.isClosed c with
    | true => rwa [runOn_read_of_closed hc]
    | false =>
      rw [runOn_read hc]
      exact Lawful.lost_fill hs _
  · cases hc : s.isClosed c with
    | true =>
      rw [runOn_read_of_closed hc, runOn_read_of_closed ((hs.isClosed c).trans hc)]
      exact .inr ⟨rfl, hs⟩
    | false =>
      rw [runOn_read hc, runOn_read ((hs.isClosed c).trans hc), hs.offset]
      rcases Lawful.fill hs.buffer (s.offset c + amount) with hlost | ⟨hsame, hbuffer⟩
      · exact .inl hlost
      · refine .inr ⟨?_, hbuffer, hs.position, hs.forks, ?_⟩
        · rw [hsame, Lawful.slice hbuffer]
        · show s'.events ++ _ = s.events ++ _
          rw [hsame, hs.events]

protected theorem consumeRoot (amount : Int) : Coupled C (consumeRoot amount) (consumeRoot amount) := by
  refine ⟨fun s hs => ?_, fun s s' hs => .inr ?_⟩
  · cases h : consumeFailure? s.buffer 0 amount with
    | some f => rwa [runOn_consumeRoot_of_some h]
    | none =>
      rw [runOn_consumeRoot h]
      exact Lawful.lost_consume hs amount
  · cases h : consumeFailure? s.buffer 0 amount with
    | some f =>
      rw [runOn_consumeRoot_of_some h,
        runOn_consumeRoot_of_some ((hs.consumeFailure? 0 amount).trans h)]
      exact ⟨rfl, hs⟩
    | none =>
      obtain ⟨hevents, hbuffer⟩ := Lawful.consume hs.buffer amount
      rw [runOn_consumeRoot h, runOn_consumeRoot ((hs.consumeFailure? 0 amount).trans h), hevents,
        hs.position, hs.events]
      exact ⟨rfl, hbuffer, rfl, hs.forks, rfl⟩

protected theorem consume (c : Cursor) (amount : Int) :
    Coupled C (consume c amount) (consume c amount) := by
  cases c with
  | root => exact .consumeRoot amount
  | fork id =>
    refine ⟨fun s hs => ?_, fun s s' hs => .inr ?_⟩
    · cases hc : s.isClosed (.fork id) with
      | true => rwa [runOn_consume_of_closed hc]
      | false =>
        cases h : consumeFailure? s.buffer (s.offset (.fork id)) amount with
        | some f => rwa [runOn_consume_fork_of_some hc h]
        | none => rwa [runOn_consume_fork hc h]
    · cases hc : s.isClosed (.fork id) with
      | true =>
        rw [runOn_consume_of_closed hc, runOn_consume_of_closed ((hs.isClosed _).trans hc)]
        exact ⟨rfl, hs⟩
      | false =>
        have hc' := (hs.isClosed _).trans hc
        have hfailure := hs.consumeFailure? (s.offset (.fork id)) amount
        rw [← hs.offset] at hfailure
        cases h : consumeFailure? s.buffer (s.offset (.fork id)) amount with
        | some f =>
          rw [runOn_consume_fork_of_some hc h,
            runOn_consume_fork_of_some hc' (hfailure.trans (hs.offset _ ▸ h))]
          exact ⟨rfl, hs⟩
        | none =>
          rw [runOn_consume_fork hc h, runOn_consume_fork hc' (hfailure.trans (hs.offset _ ▸ h))]
          exact ⟨rfl, hs.setFork id _⟩

protected theorem join (c : Cursor) : Coupled C (join c) (join c) := by
  cases c with
  | root => exact ⟨fun s hs => hs, fun s s' hs => .inr ⟨rfl, hs⟩⟩
  | fork id =>
    refine ⟨fun s hs => ?_, fun s s' hs => ?_⟩
    · rw [runOn_join_fork]
      split
      · exact hs
      · split
        · exact (SourceM.Coupled.consumeRoot _).stays _ hs
        · split
          · exact hs
          · exact hs
    · have hclosing := hs.setFork id fun f => { f with closed := true }
      rw [runOn_join_fork, runOn_join_fork, hs.isClosed, hs.forkAt]
      split
      · exact .inr ⟨rfl, hs⟩
      · split
        · exact (SourceM.Coupled.consumeRoot _).agrees _ _ hclosing
        · rw [hclosing.isClosed]
          split
          · exact .inr ⟨rfl, hclosing⟩
          · exact .inr ⟨rfl, hclosing.setFork _ _⟩

end SourceM.Coupled

namespace Evaluation

/-! ## Computations one after another -/

/-- From states that belong together the computations give the same result in states that belong
together, but for how failures surface, unless the first one is lost; what is lost stays lost. -/
structure Coupled (C : Coupling) {α : Type} (x y : Evaluation α) : Prop where
  stays : ∀ s : State, C.lost s.source.buffer → C.lost (x.runFrom s).2.source.buffer
  agrees : ∀ s s' : State, C.States s s' → C.lost (x.runFrom s).2.source.buffer ∨
    ∃ r t t', x.runFrom s = (r, t) ∧ y.runFrom s' = (r.mapError (Halt.surfaced C.surfacing), t') ∧
      C.States t t'

namespace Coupled

variable {α β : Type} {C : Coupling}

protected theorem pure (a : α) : Coupled C (pure a) (pure a) :=
  ⟨fun _ h => h, fun s s' h => .inr ⟨.ok a, s, s', rfl, rfl, h⟩⟩

protected theorem throw (e : Halt) :
    Coupled C (throw e : Evaluation α) (throw (e.surfaced C.surfacing)) :=
  ⟨fun _ h => h, fun s s' h => .inr ⟨.error e, s, s', rfl, rfl, h⟩⟩

protected theorem outOfFuel : Coupled C (throw .outOfFuel : Evaluation α) (throw .outOfFuel) :=
  .throw .outOfFuel

protected theorem fail {f : Failure} (h : f.isA .stopIteration = false) :
    Coupled C (fail f : Evaluation α) (fail f) := by
  have hthrow := Coupled.throw (C := C) (α := α) (.failed f)
  rwa [Halt.surfaced, Path.surface_eq h] at hthrow

/-- What is lost after a beginning is lost after all that follows. -/
theorem lost_bind {x : Evaluation α} {f g : α → Evaluation β} {s : State}
    (hx : C.lost (x.runFrom s).2.source.buffer) (hf : ∀ a, Coupled C (f a) (g a)) :
    C.lost ((x >>= f).runFrom s).2.source.buffer := by
  rw [runFrom_bind]
  rcases hrun : x.runFrom s with ⟨e | a, t⟩
  · rw [hrun] at hx
    exact hx
  · rw [hrun] at hx
    exact (hf a).stays t hx

protected theorem bind {x y : Evaluation α} {f g : α → Evaluation β} (h : Coupled C x y)
    (hf : ∀ a, Coupled C (f a) (g a)) : Coupled C (x >>= f) (y >>= g) := by
  refine ⟨fun s hs => lost_bind (h.stays s hs) hf, fun s s' hs => ?_⟩
  rcases h.agrees s s' hs with hlost | ⟨r, t, t', hx, hy, ht⟩
  · exact .inl (lost_bind hlost hf)
  · rw [runFrom_bind, runFrom_bind, hx, hy]
    cases r with
    | error e => exact .inr ⟨.error e, t, t', rfl, rfl, ht⟩
    | ok a => exact (hf a).agrees t t' ht

protected theorem map {x y : Evaluation α} (f : α → β) (h : Coupled C x y) :
    Coupled C (f <$> x) (f <$> y) := by
  rw [map_eq_pure_bind, map_eq_pure_bind]
  exact h.bind fun a => .pure (f a)

protected theorem ite {p : Prop} [Decidable p] {x x' y y' : Evaluation α} (h : Coupled C x y)
    (h' : Coupled C x' y') : Coupled C (if p then x else x') (if p then y else y') := by
  split
  · exact h
  · exact h'

protected theorem ofExcept {r : Except Failure α} (h : ∀ f, r = .error f → f.isA .stopIteration = false) :
    Coupled C (ofExcept r) (ofExcept r) := by
  cases r with
  | ok a => exact .pure a
  | error f => exact .fail (h f rfl)

/-- What a function raises surfaces by the path that each evaluation takes. -/
theorem raised [C.Lawful] (f : Failure) :
    Coupled C (fail (C.path.surface f) : Evaluation α) (fail (C.path'.surface f)) := by
  rw [← Coupling.Lawful.surface f]
  exact .throw _

/-- What is lost in a failure is lost after what is done then. -/
theorem lost_afterFailure {f g : Failure → Evaluation Unit} {ran : Except Halt α × State}
    (hran : C.lost ran.2.source.buffer) (hf : ∀ e, Coupled C (f e) (g (C.surfacing.surface e))) :
    C.lost (afterFailure f ran).2.source.buffer := by
  rcases ran with ⟨(e | _) | a, t⟩
  · have hlost := (hf e).stays t hran
    simp only [afterFailure]
    generalize (f e).runFrom t = ended at hlost ⊢
    rcases ended with ⟨_ | _, u⟩
    · exact hlost
    · exact hlost
  · exact hran
  · exact hran

protected theorem onFailure {x y : Evaluation α} {f g : Failure → Evaluation Unit}
    (h : Coupled C x y) (hf : ∀ e, Coupled C (f e) (g (C.surfacing.surface e))) :
    Coupled C (onFailure x f) (onFailure y g) := by
  refine ⟨fun s hs => lost_afterFailure (h.stays s hs) hf, fun s s' hs => ?_⟩
  rcases h.agrees s s' hs with hlost | ⟨r, t, t', hx, hy, ht⟩
  · exact .inl (lost_afterFailure hlost hf)
  · rw [runFrom_onFailure, runFrom_onFailure, hx, hy]
    rcases r with (e | _) | a
    · -- a handler that fails replaces the failure, and it does so on both sides
      simp only [Except.mapError, Halt.surfaced, afterFailure]
      rcases (hf e).agrees t t' ht with hlost | ⟨r, u, u', hf', hg', hu⟩
      · refine .inl ?_
        generalize (f e).runFrom t = ended at hlost ⊢
        rcases ended with ⟨_ | _, u⟩
        · exact hlost
        · exact hlost
      · rw [hf', hg']
        cases r with
        | ok _ => exact .inr ⟨.error (.failed e), u, u', rfl, rfl, hu⟩
        | error e' => exact .inr ⟨.error e', u, u', rfl, rfl, hu⟩
    · exact .inr ⟨.error .outOfFuel, t, t', rfl, rfl, ht⟩
    · exact .inr ⟨.ok a, t, t', rfl, rfl, ht⟩

/-- Hard failures surface as what they are, so that what is done about them is the same. -/
theorem ifHard {x y : Failure → Evaluation Unit} (h : ∀ f, Coupled C (x f) (y f)) (f : Failure) :
    Coupled C (if f.isHard then x f else pure ())
      (if (C.surfacing.surface f).isHard then y (C.surfacing.surface f) else pure ()) := by
  rw [Path.isHard_surface]
  split
  next hard =>
    rcases Path.surface_eq_or C.surfacing f with heq | ⟨hcls, -⟩
    · rw [heq]
      exact h f
    · rw [Failure.isHard, Failure.isA, hcls] at hard
      exact absurd hard (by decide)
  next => exact .pure ()

/-! ## Operations and notes -/

protected theorem positionOf (c : Cursor) : Coupled C (positionOf c) (positionOf c) := by
  refine ⟨fun s hs => hs, fun s s' hs => .inr ⟨.ok (s.source.positionOf c), s, s', rfl, ?_, hs⟩⟩
  rw [← hs.source.positionOf]
  rfl

protected theorem note (n : Note) : Coupled C (note n) (note n) :=
  ⟨fun _ hs => hs, fun _ _ hs => .inr ⟨.ok (), _, _, rfl, rfl,
    hs.journaling hs.source (fun j => j.addNote n) fun earlier j => j.addNote_behind earlier n⟩⟩

protected theorem recordCall (recorded : Bool) (name : Text) (args : List Value) :
    Coupled C (recordCall recorded name args) (recordCall recorded name args) := by
  cases recorded with
  | false => exact .pure ()
  | true =>
    exact ⟨fun _ hs => hs, fun _ _ hs => .inr ⟨.ok (), _, _, rfl, rfl,
      hs.journaling hs.source (fun j => j.addCall ⟨name, args⟩) fun earlier j => rfl⟩⟩

/-- Coupled operations make coupled evaluations: what they report is noted on both sides, and they
fail with no signal. -/
protected theorem onSource {x y : SourceM α} (h : SourceM.Coupled C x y) (hx : x.NeverSignals) :
    Coupled C (onSource x) (onSource y) := by
  refine ⟨fun s hs => h.stays s.source hs, fun s s' hs => ?_⟩
  rw [runFrom_onSource, runFrom_onSource]
  rcases h.agrees s.source s'.source hs.source with hlost | ⟨hresult, hsources⟩
  · exact .inl hlost
  · rw [hresult, hsources.events]
    refine .inr ⟨_, _, _, rfl, Prod.ext ?_ rfl, hs.journaling (hsources.withEvents [])
      (fun j => j.addEvents (x.runOn s.source).2.events) fun earlier j => j.addEvents_behind earlier _⟩
    cases hr : (x.runOn s.source).1 with
    | ok a => rfl
    | error f => exact Halt.mapError_surfaced (hx _ _ hr)

protected theorem read [C.Lawful] (c : Cursor) (amount : Int) :
    Coupled C (onSource (Source.read C.path c amount)) (onSource (Source.read C.path' c amount)) :=
  .onSource (.read c amount) (Source.read_neverSignals _ c amount)

protected theorem consume [C.Lawful] (c : Cursor) (amount : Int) :
    Coupled C (onSource (Source.consume c amount)) (onSource (Source.consume c amount)) :=
  .onSource (.consume c amount) (Source.consume_neverSignals c amount)

protected theorem fork (c : Cursor) :
    Coupled C (onSource (Source.fork c)) (onSource (Source.fork c)) :=
  .onSource (.fork c) (Source.fork_neverSignals c)

protected theorem close (c : Cursor) :
    Coupled C (onSource (Source.close c)) (onSource (Source.close c)) :=
  .onSource (.close c) (Source.close_neverSignals c)

protected theorem join [C.Lawful] (c : Cursor) :
    Coupled C (onSource (Source.join c)) (onSource (Source.join c)) :=
  .onSource (.join c) (Source.join_neverSignals c)

/-! ## Functions -/

protected theorem holds [C.Lawful] (p : Predicate) (item arg : Value) :
    Coupled C (holds C.path p item arg) (holds C.path' p item arg) := by
  refine (Coupled.recordCall _ _ _).bind fun _ => .map _ ?_
  cases p.run item arg with
  | ok v => exact .pure v
  | error f => exact .raised f

protected theorem passes [C.Lawful] (item arg : Value) :
    ∀ m : Matcher, Coupled C (passes C.path item arg m) (passes C.path' item arg m)
  | .is p => .holds p item arg
  | .isMatch m => Coupled.passes item arg m
  | .not p => (Coupled.holds p item arg).map _
  | .notMatch m => (Coupled.passes item arg m).map _
  | .anyOf _ => .ofExcept fun f h => by rw [Members.eq_writableView_of_contains h]; rfl
  | .one _ => .ofExcept fun f h => by rw [Members.eq_writableView_of_found h]; rfl
  | .abstract => .fail rfl

protected theorem firstValue (vs : List Value) : Coupled C (firstValue vs) (firstValue vs) := by
  cases vs with
  | nil => exact .fail rfl
  | cons v vs => exact .pure v

protected theorem call [C.Lawful] (conversion : Conversion) (fn : Mapper) (args : List Value) :
    Coupled C (call C.path conversion fn args) (call C.path' conversion fn args) := by
  refine (Coupled.recordCall _ _ _).bind fun _ => ?_
  cases fn.run args with
  | ok v => exact .pure _
  | error f => exact .raised _

/-! ## Rules without parts -/

protected theorem item [C.Lawful] (c : Cursor) (arg : Value) (m : Matcher) :
    Coupled C (item C.path c arg m) (item C.path' c arg m) := by
  refine (Coupled.read c 1).bind fun items => ?_
  cases items.get? 0 with
  | none => exact .pure _
  | some v =>
    refine (Coupled.passes v arg m).bind fun passed => ?_
    exact .ite ((Coupled.consume c 1).bind fun _ => .pure _) (.pure _)

protected theorem lookAhead [C.Lawful] (c : Cursor) (expected : Sequence) : ∀ left index : Nat,
    Coupled C (lookAhead C.path c expected index left) (lookAhead C.path' c expected index left)
  | 0, _ => .pure true
  | left + 1, index => by
    refine (Coupled.read c _).bind fun items => ?_
    cases items.get? index with
    | none => exact .pure false
    | some v =>
      cases expected.get? index with
      | none => exact .pure false
      | some w => exact .ite (Coupled.lookAhead c expected left (index + 1)) (.pure false)

protected theorem literal [C.Lawful] (c : Cursor) (content : Value) :
    Coupled C (literal C.path c content) (literal C.path' c content) := by
  refine (Coupled.ofExcept fun _ => Sequence.isA_of_ofElements).bind fun expected => ?_
  refine (Coupled.lookAhead c expected expected.size 0).bind fun found => ?_
  exact .ite ((Coupled.consume c _).bind fun _ => .pure _) (.pure _)

protected theorem start (c : Cursor) : Coupled C (start c) (start c) :=
  (Coupled.positionOf c).bind fun _ => .ite (.pure _) (.pure _)

protected theorem finish [C.Lawful] (c : Cursor) : Coupled C (finish C.path c) (finish C.path' c) :=
  (Coupled.read c 1).bind fun _ => .pure _

/-! ## Rules with parts -/

section

variable {body body' : Evaluation Outcome}

protected theorem sequence {run run' : Rule → Evaluation Outcome}
    (h : ∀ r, Coupled C (run r) (run' r)) : ∀ (rules : List Rule) (vs : List Value),
    Coupled C (sequence run vs rules) (sequence run' vs rules)
  | [], vs => .pure (Outcome.success vs)
  | r :: rules, vs => by
    refine (h r).bind fun outcome => ?_
    cases outcome with
    | mismatch m => exact .pure _
    | success ws => exact Coupled.sequence h rules (vs ++ ws)

protected theorem choice [C.Lawful] {run run' : Cursor → Rule → Evaluation Outcome}
    (h : ∀ c r, Coupled C (run c r) (run' c r)) (c : Cursor) :
    ∀ rules : List Rule, Coupled C (choice run c rules) (choice run' c rules)
  | [] => .pure Outcome.noMatch
  | r :: rules => by
    refine (Coupled.fork c).bind fun fork => ?_
    refine ((h fork r).onFailure (.ifHard fun f =>
      (Coupled.join fork).bind fun _ => .note (.alternativeFailed r f))).bind fun outcome => ?_
    cases outcome with
    | success vs => exact (Coupled.join fork).bind fun _ => .pure _
    | mismatch m => exact (Coupled.close fork).bind fun _ => Coupled.choice h c rules

protected theorem repetition (h : Coupled C body body') (min : Int) (max : Option Int) :
    ∀ (fuel : Nat) (count : Int) (reversed : List Value),
    Coupled C (repetition body min max fuel count reversed)
      (repetition body' min max fuel count reversed)
  | 0, _, _ => .ite (.pure _) .outOfFuel
  | fuel + 1, count, reversed => by
    refine .ite (.pure _) (h.bind fun outcome => ?_)
    cases outcome with
    | mismatch m => exact .pure _
    | success vs =>
      exact (Coupled.firstValue vs).bind fun v =>
        Coupled.repetition h min max fuel (count + 1) (v :: reversed)

protected theorem separated [C.Lawful] {element element' separator separator' : Cursor → Evaluation Outcome}
    (he : ∀ c, Coupled C (element c) (element' c))
    (hs : ∀ c, Coupled C (separator c) (separator' c)) (c : Cursor) :
    Coupled C (separated element separator c) (separated element' separator' c) := by
  refine (Coupled.fork c).bind fun fork => (hs fork).bind fun outcome => ?_
  cases outcome with
  | mismatch m => exact (Coupled.close fork).bind fun _ => .pure _
  | success ss =>
    refine (he fork).bind fun outcome => ?_
    cases outcome with
    | mismatch m => exact (Coupled.close fork).bind fun _ => .pure _
    | success es =>
      exact (Coupled.join fork).bind fun _ => (Coupled.firstValue ss).bind fun _ =>
        (Coupled.firstValue es).bind fun _ => .pure _

protected theorem punctuatedRest {pair pair' : Evaluation (Except Mismatch (Value × Value))}
    (h : Coupled C pair pair') (min : Int) (max : Option Int) :
    ∀ (fuel : Nat) (count : Int) (elements separators : List Value),
    Coupled C (punctuatedRest pair min max fuel count elements separators)
      (punctuatedRest pair' min max fuel count elements separators)
  | 0, _, _, _ => .ite (.pure _) .outOfFuel
  | fuel + 1, count, elements, separators => by
    refine .ite (.pure _) (h.bind fun found => ?_)
    cases found with
    | error m => exact .pure _
    | ok found => exact Coupled.punctuatedRest h min max fuel (count + 1) _ _

protected theorem punctuated [C.Lawful] {element element' separator separator' : Cursor → Evaluation Outcome}
    (he : ∀ c, Coupled C (element c) (element' c))
    (hs : ∀ c, Coupled C (separator c) (separator' c)) (c : Cursor) (min : Int)
    (max : Option Int) (fuel : Nat) :
    Coupled C (punctuated element separator c min max fuel)
      (punctuated element' separator' c min max fuel) := by
  refine (he c).bind fun outcome => ?_
  cases outcome with
  | mismatch m => exact .pure _
  | success es =>
    exact (Coupled.firstValue es).bind fun e =>
      Coupled.punctuatedRest (Coupled.separated he hs c) min max fuel 1 [e] []

protected theorem optional (h : Coupled C body body') :
    Coupled C (optional body) (optional body') := by
  refine h.bind fun outcome => ?_
  cases outcome with
  | mismatch m => exact .pure _
  | success vs => exact (Coupled.firstValue vs).bind fun _ => .pure _

protected theorem andWithArg {second second' : Value → Evaluation Outcome}
    (h : Coupled C body body') (h' : ∀ v, Coupled C (second v) (second' v)) :
    Coupled C (andWithArg body second) (andWithArg body' second') := by
  refine h.bind fun outcome => ?_
  cases outcome with
  | mismatch m => exact .pure _
  | success vs =>
    refine (Coupled.firstValue vs).bind fun v => (h' v).bind fun outcome => ?_
    cases outcome with
    | mismatch m => exact .pure _
    | success ws => exact .pure _

protected theorem map_rule [C.Lawful] (h : Coupled C body body') (conversion : Conversion)
    (fn : Mapper) (extra : List Value) :
    Coupled C (Evaluation.map C.path conversion body fn extra)
      (Evaluation.map C.path' conversion body' fn extra) := by
  refine h.bind fun outcome => ?_
  cases outcome with
  | mismatch m => exact .pure _
  | success vs => exact .call conversion fn (vs ++ extra)

protected theorem mapRange [C.Lawful] (h : Coupled C body body') (c : Cursor) (fn : Option Mapper) :
    Coupled C (mapRange C.path body c fn) (mapRange C.path' body' c fn) := by
  refine (Coupled.positionOf c).bind fun first => h.bind fun outcome => ?_
  cases outcome with
  | mismatch m => exact .pure _
  | success vs =>
    refine (Coupled.positionOf c).bind fun last => ?_
    cases fn with
    | none => exact .pure _
    | some fn => exact .call .total fn _

protected theorem expected (h : Coupled C body body') (c : Cursor) (what : Value) :
    Coupled C (expected body c what) (expected body' c what) := by
  refine h.bind fun outcome => ?_
  cases outcome with
  | success vs => exact .pure _
  | mismatch m =>
    exact (Coupled.positionOf c).bind fun _ =>
      (Coupled.note _).bind fun _ => .fail (by cases m <;> rfl)

protected theorem peek {run run' : Cursor → Evaluation Outcome}
    (h : ∀ c, Coupled C (run c) (run' c)) (c : Cursor) :
    Coupled C (peek run c) (peek run' c) :=
  (Coupled.fork c).bind fun fork =>
    ((h fork).onFailure fun _ => .close fork).bind fun _ =>
      (Coupled.close fork).bind fun _ => .pure _

end

/-! ## All rules -/

protected theorem eval (C : Coupling) [C.Lawful] (g : Grammar) :
    ∀ (fuel : Nat) (rule : Rule) (c : Cursor) (arg : Value),
    Coupled C (eval g C.path fuel rule c arg) (eval g C.path' fuel rule c arg)
  | 0, _, _, _ => .outOfFuel
  | fuel + 1, rule, c, arg => by
    have ih := fun r c v => Coupled.eval C g fuel r c v
    cases rule with
    | item m => exact .item c arg m
    | literal content => exact .literal c content
    | start => exact .start c
    | finish => exact .finish c
    | noOp => exact .pure _
    | never n => exact .pure _
    | reference target n =>
      rw [Evaluation.eval, Evaluation.eval]
      cases target.bind g.rule? with
      | none => exact .fail rfl
      | some r => exact ih r c arg
    | and rules => exact .sequence (fun r => ih r c arg) rules []
    | or rules => exact .choice (fun c r => ih r c arg) c rules
    | repetition r min max => exact .repetition (ih r c arg) min max fuel 0 []
    | optional r => exact .optional (ih r c arg)
    | punctuated element separator min max =>
      exact .punctuated (fun c => ih element c arg) (fun c => ih separator c arg) c min max fuel
    | andWithArg first second => exact .andWithArg (ih first c arg) fun v => ih second c v
    | map conversion r fn withArg => exact .map_rule (ih r c arg) conversion fn _
    | mapRange r fn => exact .mapRange (ih r c arg) c fn
    | discard r => exact (ih r c arg).map _
    | expected r what => exact .expected (ih r c arg) c what
    | name r label => exact (ih r c arg).map _
    | peek r => exact .peek (fun c => ih r c arg) c
    | wrapper r => exact ih r c arg
    | abstract => exact .fail rfl

/-! ## Whole parses -/

protected theorem result (rule : Rule) (c : Cursor) (outcome : Outcome) :
    Coupled C (result rule c outcome) (result rule c outcome) := by
  cases outcome with
  | mismatch m =>
    exact (Coupled.positionOf c).bind fun _ => (Coupled.note _).bind fun _ => .fail rfl
  | success vs =>
    exact (Coupled.positionOf c).bind fun _ => (Coupled.note _).bind fun _ =>
      .ite (.firstValue vs) (.pure _)

/-- What a parse does behind its opening note. -/
protected theorem afterOpening (C : Coupling) [C.Lawful] (g : Grammar) (fuel : Nat) (rule : Rule)
    (c : Cursor) (arg : Value) :
    Coupled C
      (onFailure (Evaluation.eval g C.path fuel rule c arg)
        (fun f => if f.isHard then Evaluation.note (.failedHard rule f) else pure ()) >>=
          Evaluation.result rule c)
      (onFailure (Evaluation.eval g C.path' fuel rule c arg)
        (fun f => if f.isHard then Evaluation.note (.failedHard rule f) else pure ()) >>=
          Evaluation.result rule c) :=
  ((Coupled.eval C g fuel rule c arg).onFailure (.ifHard fun f =>
    .note (.failedHard rule f))).bind fun outcome => .result rule c outcome

end Coupled

end Evaluation
end Backtrack
