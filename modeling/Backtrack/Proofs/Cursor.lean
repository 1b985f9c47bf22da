/-
What the operations do at an open cursor, and what they leave alone: `Frame c s u` says that from
`s` to `u` only the cursor `c`, the buffer and forks younger than `s` have changed, and that the
root has stood still unless it is the cursor itself.
-/
import Backtrack.Source
import Mathlib.Tactic
namespace Backtrack.Source

/-! ## The table of forks -/

@[simp] theorem buffer_setFork (s : Source) (id : Nat) (f : Fork → Fork) :
    (s.setFork id f).buffer = s.buffer := rfl

@[simp] theorem position_setFork (s : Source) (id : Nat) (f : Fork → Fork) :
    (s.setFork id f).position = s.position := rfl

@[simp] theorem size_forks_setFork (s : Source) (id : Nat) (f : Fork → Fork) :
    (s.setFork id f).forks.size = s.forks.size := by simp [setFork]

theorem forkAt_setFork_self {s : Source} {id : Nat} (h : id < s.forks.size) (f : Fork → Fork) :
    (s.setFork id f).forkAt id = f (s.forkAt id) := by
  simp only [forkAt, setFork, Array.getD_eq_getD_getElem?, Array.getElem?_modify]
  simp [h]

theorem forkAt_setFork_ne (s : Source) {id other : Nat} (h : id ≠ other) (f : Fork → Fork) :
    (s.setFork id f).forkAt other = s.forkAt other := by
  simp only [forkAt, setFork, Array.getD_eq_getD_getElem?, Array.getElem?_modify, if_neg h]

@[simp] theorem buffer_addFork (s : Source) (c : Cursor) : (s.addFork c).buffer = s.buffer := rfl

@[simp] theorem position_addFork (s : Source) (c : Cursor) :
    (s.addFork c).position = s.position := rfl

@[simp] theorem size_forks_addFork (s : Source) (c : Cursor) :
    (s.addFork c).forks.size = s.forks.size + 1 := by simp [addFork]

theorem forkAt_addFork_new (s : Source) (c : Cursor) :
    (s.addFork c).forkAt s.forks.size = ⟨parentOf c, s.offset c, false⟩ := by
  simp [forkAt, addFork, Array.getD_eq_getD_getElem?]

theorem forkAt_addFork_old {s : Source} {id : Nat} (h : id < s.forks.size) (c : Cursor) :
    (s.addFork c).forkAt id = s.forkAt id := by
  have hne : id ≠ s.forks.size := by omega
  simp [forkAt, addFork, Array.getD_eq_getD_getElem?, Array.getElem?_push, hne]

/-- A fork that is open has been given out. -/
theorem lt_size_of_open {s : Source} {id : Nat} (h : s.isClosed (.fork id) = false) :
    id < s.forks.size := by
  by_contra hge
  have hnone : s.forks[id]? = none := Array.getElem?_eq_none (Nat.le_of_not_lt hge)
  simp [isClosed, forkAt, Array.getD_eq_getD_getElem?, hnone] at h

/-! ## Operations at an open cursor -/

variable {s : Source} {c : Cursor}

theorem runOn_checkOpen (h : s.isClosed c = false) : (checkOpen c).runOn s = (.ok (), s) := by
  simp [checkOpen, SourceM.runOn_bind, h]

theorem runOn_fill (s : Source) (path : Path) (amount : Int) :
    (fill path amount).runOn s =
      (match (s.buffer.fill path amount).2.2 with
        | some f => .error f
        | none => .ok (),
        { s with
          buffer := (s.buffer.fill path amount).1
          events := s.events ++ (s.buffer.fill path amount).2.1 }) := rfl

/-- A read fills the buffer, and cuts a slice out of it if nothing failed. -/
theorem runOn_read (h : s.isClosed c = false) (path : Path) (amount : Int) :
    (read path c amount).runOn s =
      (match (s.buffer.fill path (s.offset c + amount)).2.2 with
        | some f => .error f
        | none =>
          (s.buffer.fill path (s.offset c + amount)).1.slice (s.offset c) (s.offset c + amount),
        { s with
          buffer := (s.buffer.fill path (s.offset c + amount)).1
          events := s.events ++ (s.buffer.fill path (s.offset c + amount)).2.1 }) := by
  simp only [read, SourceM.runOn_bind, runOn_checkOpen h, SourceM.runOn_get, runOn_fill]
  cases (s.buffer.fill path (s.offset c + amount)).2.2 <;> simp

theorem runOn_consumeRoot {amount : Int} (h : consumeFailure? s.buffer 0 amount = none) :
    (consumeRoot amount).runOn s =
      (.ok (), { s with
        buffer := (s.buffer.consume amount).1
        position := s.position + amount
        events := s.events ++ (s.buffer.consume amount).2 }) := by
  show consumeRoot amount s = _
  simp only [consumeRoot, h]

theorem runOn_consumeRoot_of_some {amount : Int} {f : Failure}
    (h : consumeFailure? s.buffer 0 amount = some f) :
    (consumeRoot amount).runOn s = (.error f, s) := by
  show consumeRoot amount s = _
  simp only [consumeRoot, h]

theorem runOn_consume_fork {id : Nat} {amount : Int} (hc : s.isClosed (.fork id) = false)
    (h : consumeFailure? s.buffer (s.offset (.fork id)) amount = none) :
    (consume (.fork id) amount).runOn s =
      (.ok (), s.setFork id fun f => { f with offset := f.offset + amount }) := by
  simp [consume, SourceM.runOn_bind, runOn_checkOpen hc, h]

theorem runOn_consume_fork_of_some {id : Nat} {amount : Int} {f : Failure}
    (hc : s.isClosed (.fork id) = false)
    (h : consumeFailure? s.buffer (s.offset (.fork id)) amount = some f) :
    (consume (.fork id) amount).runOn s = (.error f, s) := by
  simp [consume, SourceM.runOn_bind, runOn_checkOpen hc, h]

theorem runOn_fork (h : s.isClosed c = false) :
    (fork c).runOn s = (.ok (.fork s.forks.size), s.addFork c) := by
  simp only [fork, SourceM.runOn_bind, runOn_checkOpen h]
  rfl

theorem runOn_close_fork (s : Source) (id : Nat) :
    (close (.fork id)).runOn s = (.ok (), s.setFork id fun f => { f with closed := true }) := by
  simp [close]

/-- Joining a fork closes it and hands its offset on, if the fork is open and its parent can take it
over. -/
theorem runOn_join_fork (s : Source) (id : Nat) :
    (join (.fork id)).runOn s =
      if s.isClosed (.fork id) then (.error forkClosed, s)
      else
        match (s.forkAt id).parent with
        | none => (consumeRoot (s.forkAt id).offset).runOn
            (s.setFork id fun f => { f with closed := true })
        | some parent =>
          if (s.setFork id fun f => { f with closed := true }).isClosed (.fork parent) then
            (.error forkClosed, s.setFork id fun f => { f with closed := true })
          else
            (.ok (), (s.setFork id fun f => { f with closed := true }).setFork parent
              fun p => { p with offset := (s.forkAt id).offset }) := by
  cases h : s.isClosed (.fork id) with
  | true => simp [join, SourceM.runOn_bind, checkOpen, h]
  | false =>
    simp only [join, SourceM.runOn_bind, runOn_checkOpen h, runOn_close_fork, SourceM.runOn_get,
      forkAt_setFork_self (lt_size_of_open h), Bool.false_eq_true, if_false]
    cases (s.forkAt id).parent with
    | none => rfl
    | some parent =>
      cases hp : (s.setFork id fun f => { f with closed := true }).isClosed (.fork parent) with
      | true => simp [SourceM.runOn_bind, checkOpen, hp]
      | false => simp [SourceM.runOn_bind, runOn_checkOpen hp, hp]

/-- A fork of the root hands its offset to the root. -/
theorem runOn_join_of_root {id : Nat} (h : s.isClosed (.fork id) = false)
    (hp : (s.forkAt id).parent = none) :
    (join (.fork id)).runOn s =
      (consumeRoot (s.forkAt id).offset).runOn
        (s.setFork id fun f => { f with closed := true }) := by
  simp [runOn_join_fork, h, hp]

/-- A fork of an open fork makes it stand where it stands itself. -/
theorem runOn_join_of_fork {id parent : Nat} (h : s.isClosed (.fork id) = false)
    (hp : (s.forkAt id).parent = some parent) (hne : id ≠ parent)
    (hopen : s.isClosed (.fork parent) = false) :
    (join (.fork id)).runOn s =
      (.ok (), (s.setFork id fun f => { f with closed := true }).setFork parent
        fun p => { p with offset := (s.forkAt id).offset }) := by
  -- closing the fork does not close its parent
  have hopen' : (s.setFork id fun f => { f with closed := true }).isClosed (.fork parent) = false := by
    simpa [isClosed, forkAt_setFork_ne s hne] using hopen
  simp [runOn_join_fork, h, hp, hopen']

/-! ## Operations at a closed cursor -/

theorem runOn_checkOpen_of_closed (h : s.isClosed c = true) :
    (checkOpen c).runOn s = (.error forkClosed, s) := by
  simp [checkOpen, SourceM.runOn_bind, h]

theorem runOn_read_of_closed (h : s.isClosed c = true) (path : Path) (amount : Int) :
    (read path c amount).runOn s = (.error forkClosed, s) := by
  simp [read, SourceM.runOn_bind, runOn_checkOpen_of_closed h]

theorem runOn_consume_of_closed {id : Nat} (h : s.isClosed (.fork id) = true) (amount : Int) :
    (consume (.fork id) amount).runOn s = (.error forkClosed, s) := by
  simp [consume, SourceM.runOn_bind, runOn_checkOpen_of_closed h]

theorem runOn_fork_of_closed (h : s.isClosed c = true) :
    (fork c).runOn s = (.error forkClosed, s) := by
  simp [fork, SourceM.runOn_bind, runOn_checkOpen_of_closed h]

/-! ## Frames -/

/-- Only the cursor `c`, the buffer and younger forks have changed from `s` to `u`. -/
structure Frame (c : Cursor) (s u : Source) : Prop where
  size : s.forks.size ≤ u.forks.size
  others : ∀ id < s.forks.size, .fork id ≠ c → u.forkAt id = s.forkAt id
  parent : ∀ id, .fork id = c → (u.forkAt id).parent = (s.forkAt id).parent
  position : c ≠ .root → u.position = s.position
  available : c ≠ .root → s.buffer.available ≤ u.buffer.available

theorem Frame.refl (c : Cursor) (s : Source) : Frame c s s :=
  ⟨le_refl _, fun _ _ _ => rfl, fun _ _ => rfl, fun _ => rfl, fun _ => le_refl _⟩

theorem Frame.trans {s t u : Source} (h : Frame c s t) (h' : Frame c t u) : Frame c s u :=
  ⟨le_trans h.size h'.size,
    fun id hid hne => (h'.others id (lt_of_lt_of_le hid h.size) hne).trans (h.others id hid hne),
    fun id hid => (h'.parent id hid).trans (h.parent id hid),
    fun hc => (h'.position hc).trans (h.position hc),
    fun hc => le_trans (h.available hc) (h'.available hc)⟩

/-- What is reported is in every frame. -/
theorem Frame.withEvents {u : Source} (h : Frame c s u) (events : List Event) :
    Frame c s { u with events := events } :=
  ⟨h.size, h.others, h.parent, h.position, h.available⟩

theorem Frame.of_withEvents {u : Source} {events : List Event}
    (h : Frame c { s with events := events } u) : Frame c s u :=
  ⟨h.size, h.others, h.parent, h.position, h.available⟩

/-- A change to a fork that is younger than the frame's beginning, or that keeps the parent of the
cursor itself, is in the frame. -/
theorem Frame.setFork {u : Source} (h : Frame c s u) {id : Nat} {f : Fork → Fork}
    (hid : s.forks.size ≤ id ∨ .fork id = c) (hf : ∀ x, (f x).parent = x.parent) :
    Frame c s (u.setFork id f) := by
  refine ⟨by simpa using h.size, fun other hother hne => ?_, fun other hother => ?_, h.position,
    h.available⟩
  · -- forks older than the frame are not the one that changes, unless it is the cursor
    have hne' : id ≠ other := by
      rcases hid with hid | hid
      · omega
      · rintro rfl; exact hne hid
    rw [forkAt_setFork_ne u hne', h.others other hother hne]
  · rw [← h.parent other hother]
    by_cases heq : id = other
    · subst heq
      by_cases hlt : id < u.forks.size
      · rw [forkAt_setFork_self hlt, hf]
      · simp [forkAt, Source.setFork, Array.getD_eq_getD_getElem?, hlt]
    · rw [forkAt_setFork_ne u heq]

/-- What happens in a new fork of an open cursor is in the frame of the cursor. -/
theorem Frame.of_fork {u : Source} (hc : s.isClosed c = false)
    (h : Frame (.fork s.forks.size) (s.addFork c) u) : Frame c s u := by
  have hold : ∀ id < s.forks.size, u.forkAt id = s.forkAt id := by
    intro id hid
    rw [h.others id (by simp; omega) (by simp; omega), forkAt_addFork_old hid]
  have hsize := h.size
  rw [size_forks_addFork] at hsize
  refine ⟨by omega, fun id hid _ => hold id hid, ?_, fun _ => h.position (by simp),
    fun _ => h.available (by simp)⟩
  rintro id rfl
  rw [hold id (lt_size_of_open hc)]

end Backtrack.Source
