/-
The signal that an iteration is over is raised by functions only. Whatever an evaluation fails with
on its own account is something else: a value without items, a test by equality, a feed, a cursor.
So it surfaces on either path as what it is.
-/
import Backtrack.Evaluation
import Backtrack.Proofs.Cursor
import Mathlib.Tactic
namespace Backtrack

variable {α β : Type} {v : Value} {f : Failure} {path : Path}

theorem Except.of_bind_eq_error {ε : Type} {x : Except ε α} {g : α → Except ε β} {e : ε}
    (h : (x >>= g) = .error e) : x = .error e ∨ ∃ a, x = .ok a ∧ g a = .error e := by
  cases x with
  | ok a => exact .inr ⟨a, rfl, h⟩
  | error e' =>
    cases h
    exact .inl rfl

theorem Except.mapError_map {ε : Type} {r : Except ε α} {g : α → β} {e : ε → ε} :
    (g <$> r).mapError e = g <$> r.mapError e := by cases r <;> rfl

/-- What a halt leaves an evaluation as. -/
def Halt.surfaced (path : Path) : Halt → Halt
  | failed f => failed (path.surface f)
  | outOfFuel => outOfFuel

theorem Halt.mapError_surfaced (h : f.isA .stopIteration = false) :
    (.error (.failed f) : Except Halt α) = (Except.error (.failed f)).mapError (surfaced path) := by
  rw [Except.mapError, surfaced, Path.surface_eq h]

theorem Halt.mapError_surfaced_failed (r : Except Failure α) :
    (r.mapError failed).mapError (surfaced path) = (r.mapError path.surface).mapError failed := by
  cases r <;> rfl

/-- Nothing surfaces otherwise on the blocking path. -/
theorem Halt.mapError_surfaced_blocking (r : Except Halt α) : r.mapError (surfaced .blocking) = r := by
  rcases r with (e | _) | a <;> rfl

/-- Where no signal is raised, nothing changes. -/
theorem Path.mapError_surface {r : Except Failure α} (h : ∀ f, r = .error f → f.isA .stopIteration = false) :
    r.mapError path.surface = r := by
  cases r with
  | ok v => rfl
  | error f => exact congrArg _ (surface_eq (h f rfl))

/-! ## Values -/

/-- The signal is about no parsing. -/
theorem Failure.isA_stopIteration_of_parseError (h : f.isA .parseError = true) :
    f.isA .stopIteration = false := by
  revert h
  rw [isA, isA]
  cases f.cls <;> decide

theorem Value.isA_of_elements (h : v.elements = .error f) : f.isA .stopIteration = false := by
  rw [elements] at h
  cases hhold : v.holdFailure? with
  | some e =>
    rw [hhold] at h
    cases h
    cases v with
    | range start stop step =>
      rw [holdFailure?] at hhold
      split at hhold
      · cases hhold
        rfl
      · split at hhold <;> cases hhold
        rfl
    | _ => cases hhold
  | none =>
    rw [hhold] at h
    dsimp only at h
    split at h <;> cases h
    rfl

theorem Sequence.isA_of_ofElements (h : ofElements v = .error f) : f.isA .stopIteration = false := by
  rw [ofElements] at h
  split at h
  · cases h
  · rcases Except.of_bind_eq_error (g := fun content : List Value => .ok (items .list content.toArray)) h with
      h | ⟨_, -, h⟩
    · exact Value.isA_of_elements h
    · cases h

/-! ## Tests by equality -/

theorem Value.eq_writableView_of_hasHash (h : v.hasHash = .error f) : f = .writableView := by
  rw [hasHash, requireHashable] at h
  cases hu : v.unhashable? with
  | none =>
    rw [hu] at h
    cases h
  | some u =>
    rw [hu] at h
    cases u with
    | byteView view =>
      cases h
      rfl
    | _ => cases h

namespace Members

variable {items : List Value}

theorem eq_writableView_of_contains {m : Members} (h : m.contains v = .error f) : f = .writableView := by
  cases m with
  | scan items => cases h
  | set items =>
    rw [contains] at h
    rcases Except.of_bind_eq_error h with h | ⟨_, -, h⟩
    · exact Value.eq_writableView_of_hasHash h
    · cases h

theorem eq_writableView_of_ofList (h : ofList items = .error f) : f = .writableView := by
  rw [ofList] at h
  rcases Except.of_bind_eq_error h with h | ⟨_, -, h⟩
  · exact Value.eq_writableView_of_hasHash h
  · cases h

/-- Nor does looking for an item fail otherwise where the collection is only made for it. -/
theorem eq_writableView_of_found (h : (ofList items >>= (·.contains v)) = .error f) :
    f = .writableView := by
  rcases Except.of_bind_eq_error h with h | ⟨m, -, h⟩
  · exact eq_writableView_of_ofList h
  · exact eq_writableView_of_contains h

end Members

/-! ## Sources -/

theorem Stream.isA_of_reported (f : Failure) : (reported f).isA .stopIteration = false := by
  rw [reported]
  split
  · exact Failure.isA_stopIteration_of_parseError ‹_›
  · rfl

theorem Stream.isA_of_pull {amount : Int} : ∀ {feed : List Element} {s : Stream},
    (pull amount feed s).failure = some f → f.isA .stopIteration = false := by
  intro feed
  induction feed with
  | nil =>
    intro s h
    rw [pull] at h
    split at h <;> cases h
  | cons e feed ih =>
    intro s h
    cases e with
    | stop =>
      rw [pull] at h
      split at h <;> cases h
    | failing e =>
      rw [pull] at h
      split at h <;> cases h
      exact isA_of_reported _
    | value v =>
      rw [pull] at h
      split at h
      · cases h
      · cases hv : contribution s.chunked v with
        | ok vs =>
          rw [hv] at h
          exact ih h
        | error e =>
          rw [hv] at h
          cases h
          rw [contribution] at hv
          split at hv
          · exact Value.isA_of_elements hv
          · cases hv

namespace Buffer

variable {b : Buffer}

theorem isA_of_fill {amount : Int} (h : (b.fill path amount).2.2 = some f) :
    f.isA .stopIteration = false := by
  cases b with
  | memory data start => cases h
  | irregular data start => cases h
  | stream s =>
    have hfill : (s.fill path amount).failure = some f := h
    rw [Stream.fill] at hfill
    split at hfill
    · cases hfill
      rfl
    · split at hfill
      · cases hfill
      · exact Stream.isA_of_pull hfill

theorem isA_of_slice {first last : Int} (h : b.slice first last = .error f) :
    f.isA .stopIteration = false := by
  cases b with
  | memory data start => cases h
  | stream s => cases h
  | irregular data start =>
    rw [slice] at h
    split at h <;> cases h
    cases data <;> rfl

theorem isA_of_countFailure? (h : b.countFailure? = some f) : f.isA .stopIteration = false := by
  cases b with
  | memory data start => cases h
  | stream s => cases h
  | irregular data start =>
    rw [countFailure?, Value.length] at h
    split at h
    · cases h
    · rename_i hlength
      cases h
      split at hlength
      · split at hlength <;> cases hlength
        rfl
      · cases hlength
        rfl

end Buffer

/-- An operation on a source that fails with no signal. -/
def SourceM.NeverSignals (op : SourceM α) : Prop :=
  ∀ s f, (op.runOn s).1 = .error f → f.isA .stopIteration = false

namespace SourceM.NeverSignals

protected theorem pure (a : α) : NeverSignals (pure a) := nofun

protected theorem throw (h : f.isA .stopIteration = false) : NeverSignals (throw f : SourceM α) := by
  intro s e he
  cases he
  exact h

protected theorem bind {x : SourceM α} {g : α → SourceM β} (hx : NeverSignals x)
    (hg : ∀ a, NeverSignals (g a)) : NeverSignals (x >>= g) := by
  intro s e he
  rw [runOn_bind] at he
  rcases hrun : x.runOn s with ⟨_ | a, t⟩
  · rw [hrun] at he
    cases he
    exact hx s _ (by rw [hrun])
  · rw [hrun] at he
    exact hg a t e he

protected theorem get : NeverSignals get := nofun

protected theorem modify (g : Source → Source) : NeverSignals (modify g) := nofun

protected theorem ofExcept {r : Except Failure α} (h : ∀ f, r = .error f → f.isA .stopIteration = false) :
    NeverSignals (MonadExcept.ofExcept r) := by
  intro s e he
  rw [runOn_ofExcept] at he
  exact h e he

end SourceM.NeverSignals

namespace Source

open SourceM (NeverSignals)

theorem checkOpen_neverSignals (c : Cursor) : NeverSignals (checkOpen c) := by
  refine .bind .get fun s => ?_
  split
  · exact .throw rfl
  · exact .pure ()

theorem fill_neverSignals (path : Path) (amount : Int) : NeverSignals (fill path amount) := by
  intro s e he
  rw [runOn_fill] at he
  cases hfailure : (s.buffer.fill path amount).2.2 with
  | some f =>
    rw [hfailure] at he
    cases he
    exact Buffer.isA_of_fill hfailure
  | none =>
    rw [hfailure] at he
    cases he

theorem read_neverSignals (path : Path) (c : Cursor) (amount : Int) : NeverSignals (read path c amount) :=
  (checkOpen_neverSignals c).bind fun _ => .bind .get fun _ =>
    (fill_neverSignals path _).bind fun _ => .bind .get fun _ => .ofExcept fun _ => Buffer.isA_of_slice

theorem isA_of_consumeFailure? {b : Buffer} {offset amount : Int}
    (h : consumeFailure? b offset amount = some f) : f.isA .stopIteration = false := by
  rw [consumeFailure?] at h
  split at h
  · rename_i hcount
    cases h
    exact Buffer.isA_of_countFailure? hcount
  · split at h <;> cases h
    rfl

theorem consumeRoot_neverSignals (amount : Int) : NeverSignals (consumeRoot amount) := by
  intro s e he
  cases h : consumeFailure? s.buffer 0 amount with
  | none =>
    rw [runOn_consumeRoot h] at he
    cases he
  | some f =>
    rw [runOn_consumeRoot_of_some h] at he
    cases he
    exact isA_of_consumeFailure? h

theorem consume_neverSignals (c : Cursor) (amount : Int) : NeverSignals (consume c amount) := by
  cases c with
  | root => exact consumeRoot_neverSignals amount
  | fork id =>
    refine (checkOpen_neverSignals _).bind fun _ => .bind .get fun s => ?_
    cases h : consumeFailure? s.buffer (s.offset (.fork id)) amount with
    | some f => exact .throw (isA_of_consumeFailure? h)
    | none => exact .modify _

theorem fork_neverSignals (c : Cursor) : NeverSignals (fork c) :=
  (checkOpen_neverSignals c).bind fun _ => nofun

theorem close_neverSignals (c : Cursor) : NeverSignals (close c) := by
  cases c with
  | root => exact .pure ()
  | fork id => exact .modify _

theorem join_neverSignals (c : Cursor) : NeverSignals (join c) := by
  cases c with
  | root => exact .pure ()
  | fork id =>
    refine (checkOpen_neverSignals _).bind fun _ => (close_neverSignals _).bind fun _ =>
      .bind .get fun s => ?_
    dsimp only
    cases (s.forkAt id).parent with
    | none => exact consumeRoot_neverSignals _
    | some parent => exact (checkOpen_neverSignals _).bind fun _ => .modify _

end Source

/-- A mapper that signals the end of an iteration. -/
def signalling : Mapper := .anonymous fun _ => .error (.plain .stopIteration [])

end Backtrack
