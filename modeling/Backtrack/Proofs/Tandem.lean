/-
Two runs of one rule at different forks, which stand at the same position over buffers that may
differ. A tandem says which buffers go together, which places the forks may stand at, and whether the
comparison may be given up once the first run has failed. What the runs ask of a buffer is little: to
look one item further than where an item was found before, and to consume what was found. If buffers
that go together answer both in the same way, the two runs have the same result, whatever the rule,
and their forks stand at the same position again. A coupling (`Coupling`) would need the same forks on
both sides.
-/
import Backtrack.Proofs.Pairing
namespace Backtrack

open Source (consumeFailure?)

/-! ## Tandems -/

/-- What two runs are compared by: the buffers that go together, the offsets that a fork over the
first one may have, and whether nothing is said of a first run that fails. -/
structure Tandem where
  related : Buffer → Buffer → Prop
  admits : Buffer → Int → Prop
  lenient : Prop

namespace Tandem

/-- Buffers that go together answer alike whether there is one more item behind those found, and
whether what was found can be consumed; a failure of the first one alone is none of a tandem that is
lenient. -/
class Lawful (T : Tandem) : Prop where
  reaches {b u : Buffer} {o : Int} (h : T.admits b o) (hu : b.Reaches u) : T.admits u o
  look {b b' : Buffer} {o : Int} {n : Nat} (h : T.related b b') (ho : T.admits b o)
    (hn : b.Finds o n) (path : Path) :
    (T.lenient ∧ (b.fill path (o + (n + 1))).2.2 ≠ none) ∨
    (b'.fill path (o + (n + 1))).2.2 = (b.fill path (o + (n + 1))).2.2 ∧
      T.related (b.fill path (o + (n + 1))).1 (b'.fill path (o + (n + 1))).1 ∧
      ((b.fill path (o + (n + 1))).2.2 = none →
        (b'.fill path (o + (n + 1))).1.slice o (o + (n + 1)) =
          (b.fill path (o + (n + 1))).1.slice o (o + (n + 1)))
  consume {b b' : Buffer} {o : Int} {n : Nat} (h : T.related b b') (ho : T.admits b o)
    (hn : b.Finds o n) :
    (T.lenient ∧ consumeFailure? b o n ≠ none) ∨
    consumeFailure? b' o n = consumeFailure? b o n ∧
      (consumeFailure? b o n = none → T.admits b (o + n))

/-- Two open forks stand at the same position, over buffers that go together. -/
structure Alike (T : Tandem) (d d' : Cursor) (s s' : Source) : Prop where
  buffer : T.related s.buffer s'.buffer
  position : s'.position = s.position
  offset : s'.offset d' = s.offset d
  admits : T.admits s.buffer (s.offset d)
  isFork : d ≠ .root
  isFork' : d' ≠ .root
  isOpen : s.isClosed d = false
  isOpen' : s'.isClosed d' = false

namespace Alike

variable {T : Tandem} {d d' : Cursor} {s s' : Source}

theorem positionOf (h : T.Alike d d' s s') : s'.positionOf d' = s.positionOf d := by
  rw [Source.positionOf, Source.positionOf, h.position, h.offset]

theorem withEvents (h : T.Alike d d' s s') (events events' : List Event) :
    T.Alike d d' { s with events := events } { s' with events := events' } :=
  ⟨h.buffer, h.position, h.offset, h.admits, h.isFork, h.isFork', h.isOpen, h.isOpen'⟩

/-- Forks that get to the same offset are alike there. -/
theorem setFork {id id' : Nat} (h : T.Alike (.fork id) (.fork id') s s') (f f' : Fork → Fork)
    (hoffset : (f' (s'.forkAt id')).offset = (f (s.forkAt id)).offset)
    (hadmits : T.admits s.buffer (f (s.forkAt id)).offset) (hf : ∀ x, (f x).closed = x.closed)
    (hf' : ∀ x, (f' x).closed = x.closed) :
    T.Alike (.fork id) (.fork id') (s.setFork id f) (s'.setFork id' f') := by
  have hid := Source.lt_size_of_open h.isOpen
  have hid' := Source.lt_size_of_open h.isOpen'
  refine ⟨h.buffer, h.position, ?_, ?_, h.isFork, h.isFork', ?_, ?_⟩
  · rw [Source.offset, Source.offset, Source.forkAt_setFork_self hid, Source.forkAt_setFork_self hid',
      hoffset]
  · rwa [Source.offset, Source.forkAt_setFork_self hid]
  · rw [Source.isClosed, Source.forkAt_setFork_self hid, hf]
    exact h.isOpen
  · rw [Source.isClosed, Source.forkAt_setFork_self hid', hf']
    exact h.isOpen'

/-- Other forks may change. -/
theorem setFork_ne {id id' : Nat} (h : T.Alike d d' s s') (hid : d ≠ .fork id) (hid' : d' ≠ .fork id')
    (f f' : Fork → Fork) : T.Alike d d' (s.setFork id f) (s'.setFork id' f') := by
  cases d with
  | root => exact absurd rfl h.isFork
  | fork other =>
    cases d' with
    | root => exact absurd rfl h.isFork'
    | fork other' =>
      have hsame := Source.forkAt_setFork_ne s (fun heq => hid (congrArg Cursor.fork heq.symm)) f
      have hsame' := Source.forkAt_setFork_ne s' (fun heq => hid' (congrArg Cursor.fork heq.symm)) f'
      refine ⟨h.buffer, h.position, ?_, ?_, h.isFork, h.isFork', ?_, ?_⟩
      · rw [Source.offset, Source.offset, hsame, hsame']
        exact h.offset
      · rw [Source.offset, hsame]
        exact h.admits
      · rw [Source.isClosed, hsame]
        exact h.isOpen
      · rw [Source.isClosed, hsame']
        exact h.isOpen'

/-- New forks are alike if they are made at the same place, over buffers that go together. -/
theorem of_place (hbuffer : T.related s.buffer s'.buffer) (hposition : s'.position = s.position)
    (hoffset : s'.offset d' = s.offset d) (hadmits : T.admits s.buffer (s.offset d)) :
    T.Alike (.fork s.forks.size) (.fork s'.forks.size) (s.addFork d) (s'.addFork d') := by
  refine ⟨hbuffer, hposition, ?_, ?_, nofun, nofun, ?_, ?_⟩
  · rw [Source.offset_addFork_new, Source.offset_addFork_new, hoffset]
  · rw [Source.offset_addFork_new]
    exact hadmits
  · rw [Source.isClosed, Source.forkAt_addFork_new]
  · rw [Source.isClosed, Source.forkAt_addFork_new]

/-- New forks of forks that are alike are alike. -/
theorem addFork (h : T.Alike d d' s s') :
    T.Alike (.fork s.forks.size) (.fork s'.forks.size) (s.addFork d) (s'.addFork d') :=
  .of_place h.buffer h.position h.offset h.admits

/-- A new fork stands where its parent stands. -/
theorem fork_right (h : T.Alike d d' s s') :
    T.Alike d (.fork s'.forks.size) s (s'.addFork d') := by
  refine ⟨h.buffer, h.position, ?_, h.admits, h.isFork, nofun, h.isOpen, ?_⟩
  · rw [Source.offset_addFork_new, h.offset]
  · rw [Source.isClosed, Source.forkAt_addFork_new]

end Alike

/-! ## Reading and consuming -/

/-- The pairing of forks that are alike. -/
def pairing (T : Tandem) : Pairing := ⟨T.Alike, T.lenient⟩

section

variable {T : Tandem} [T.Lawful] {d d' : Cursor} {s s' : Source}

/-- Both forks look one item further than they have found items. -/
theorem Alike.read (h : T.Alike d d' s s') {n : Nat} (hn : s.buffer.Finds (s.offset d) n)
    (path : Path) :
    T.pairing.Agree (T.Alike d d') ((Source.read path d (n + 1)).runOn s)
      ((Source.read path d' (n + 1)).runOn s') := by
  rw [Source.runOn_read h.isOpen, Source.runOn_read h.isOpen', h.offset]
  rcases Lawful.look h.buffer h.admits hn path with ⟨hlenient, hfails⟩ | ⟨hfailure, hbuffer, hslice⟩
  · refine .inl ⟨hlenient, ?_⟩
    cases hfill : (s.buffer.fill path (s.offset d + (n + 1))).2.2 with
    | none => exact absurd hfill hfails
    | some f => exact ⟨f, rfl⟩
  · refine .inr ⟨_, Prod.ext ?_ rfl, hbuffer, h.position, h.offset,
      Lawful.reaches h.admits (s.buffer.reaches_fill path _), h.isFork, h.isFork', h.isOpen, h.isOpen'⟩
    rw [hfailure]
    cases hfill : (s.buffer.fill path (s.offset d + (n + 1))).2.2 with
    | some f => rfl
    | none => exact hslice hfill

/-- Both forks consume the items that were found. -/
theorem Alike.consume (h : T.Alike d d' s s') {n : Nat} (hn : s.buffer.Finds (s.offset d) n) :
    T.pairing.Agree (T.Alike d d') ((Source.consume d n).runOn s) ((Source.consume d' n).runOn s') := by
  cases d with
  | root => exact absurd rfl h.isFork
  | fork id =>
    cases d' with
    | root => exact absurd rfl h.isFork'
    | fork id' =>
      have hsame := Lawful.consume h.buffer h.admits hn
      cases hfailure : consumeFailure? s.buffer (s.offset (.fork id)) n with
      | some f =>
        rw [hfailure] at hsame
        rw [Source.runOn_consume_fork_of_some h.isOpen hfailure]
        rcases hsame with ⟨hlenient, -⟩ | ⟨hfailure', -⟩
        · exact .inl ⟨hlenient, f, rfl⟩
        · rw [Source.runOn_consume_fork_of_some h.isOpen' (h.offset ▸ hfailure')]
          exact .inr ⟨s', rfl, h⟩
      | none =>
        rw [hfailure] at hsame
        rcases hsame with ⟨-, hnone⟩ | ⟨hfailure', hadmits⟩
        · exact absurd rfl hnone
        · have hoffset := h.offset
          have hnext := hadmits rfl
          rw [Source.offset, Source.offset] at hoffset
          rw [Source.runOn_consume_fork h.isOpen hfailure,
            Source.runOn_consume_fork h.isOpen' (h.offset ▸ hfailure')]
          exact .inr ⟨_, rfl, h.setFork (fun f => { f with offset := f.offset + n })
            (fun f => { f with offset := f.offset + n }) (congrArg (· + (n : Int)) hoffset) hnext
            (fun _ => rfl) fun _ => rfl⟩

/-! ## Forks of the forks -/

variable {t t' : Source}

/-- Forks whose forks are alike are alike, whatever becomes of these. -/
theorem Alike.left (h : T.pairing.Nested d d' s s' t t') : T.Alike d d' t t' := by
  obtain ⟨houter, hforked, hforked', hinner⟩ := h
  have hinside := hforked.toMoved.inside
  have hinside' := hforked'.toMoved.inside
  refine ⟨hinner.buffer, hinner.position, ?_, ?_, houter.isFork, houter.isFork', ?_, ?_⟩
  · rw [hinside.offset_parent, hinside'.offset_parent, houter.offset]
  · rw [hinside.offset_parent]
    exact Lawful.reaches houter.admits hforked.reaches
  · exact hinside.parent_moved.isClosed.trans houter.isOpen
  · exact hinside'.parent_moved.isClosed.trans houter.isOpen'

/-- The forks of the forks may be closed, or change in any other way. -/
theorem Alike.setFork_inner (h : T.pairing.Nested d d' s s' t t') (f f' : Fork → Fork) :
    T.Alike d d' (t.setFork s.forks.size f) (t'.setFork s'.forks.size f') := by
  refine (Alike.left h).setFork_ne ?_ ?_ f f'
  · rintro rfl
    exact absurd (Source.lt_size_of_open h.forked.isOpen) (lt_irrefl _)
  · rintro rfl
    exact absurd (Source.lt_size_of_open h.forked'.isOpen) (lt_irrefl _)

/-- Forks take over where their forks stand. -/
theorem Alike.join (h : T.pairing.Nested d d' s s' t t') :
    T.pairing.Agree (T.Alike d d') ((Source.join (.fork s.forks.size)).runOn t)
      ((Source.join (.fork s'.forks.size)).runOn t') := by
  have hinside := h.forked.toMoved.inside
  have hinside' := h.forked'.toMoved.inside
  cases d with
  | root => exact absurd rfl (Alike.left h).isFork
  | fork id =>
    cases d' with
    | root => exact absurd rfl (Alike.left h).isFork'
    | fork id' =>
      have hid := Source.lt_size_of_open h.forked.isOpen
      have hid' := Source.lt_size_of_open h.forked'.isOpen
      rw [Source.runOn_join_of_fork hinside.isClosed_fork hinside.parent_fork (by omega)
          (Alike.left h).isOpen,
        Source.runOn_join_of_fork hinside'.isClosed_fork hinside'.parent_fork (by omega)
          (Alike.left h).isOpen']
      exact .inr ⟨_, rfl, (Alike.setFork_inner h _ _).setFork
        (fun p => { p with offset := (t.forkAt s.forks.size).offset })
        (fun p => { p with offset := (t'.forkAt s'.forks.size).offset }) h.inner.offset
        h.inner.admits (fun _ => rfl) fun _ => rfl⟩

end

instance (T : Tandem) [T.Lawful] : T.pairing.Lawful where
  settle h := Alike.withEvents h [] []
  isClosed h := h.isOpen'.trans h.isOpen.symm
  positionOf h := Alike.positionOf h
  read h hn path := Alike.read h hn path
  consume h hn := Alike.consume h hn
  addFork h _ := Alike.addFork h
  left h := Alike.left h
  close h := by
    rw [Source.runOn_close_fork, Source.runOn_close_fork]
    exact .inr ⟨_, rfl, Alike.setFork_inner h _ _⟩
  join h := Alike.join h

/-! ## All rules -/

/-- Evaluating a rule at forks that are alike has the same result, and leaves them alike. -/
theorem eval (T : Tandem) [T.Lawful] {g : Grammar} {path : Path} {fuel : Nat} {rule : Rule} {arg : Value}
    {d d' : Cursor} {s s' t : Evaluation.State} {r : Except Halt Outcome}
    (h : T.Alike d d' s.source s'.source)
    (hrun : (Evaluation.eval g path fuel rule d arg).runFrom s = (r, t)) :
    (T.lenient ∧ ∃ e, r = .error e) ∨
      ∃ t', (Evaluation.eval g path fuel rule d' arg).runFrom s' = (r, t') ∧
        T.Alike d d' t.source t'.source := by
  have hagree := Pairing.Together.eval T.pairing g path fuel rule arg arg (fun _ => rfl) d d' s s' h
  rwa [hrun] at hagree

end Tandem

end Backtrack
