/-
Feeds of either path. Buffers that differ in nothing but the path of their feed show the same, and
they are filled alike: on the blocking path from a blocking feed, and on the suspending path from a
feed of either kind.
-/
import Backtrack.Parse
import Mathlib.Tactic
namespace Backtrack

/-! ## Feeds of either path -/

/-- The stream with a feed of a path. -/
def Stream.fedOn (q : Path) (s : Stream) : Stream := { s with path := q }

/-- The buffer with a feed of a path, if it has a feed at all. -/
def Buffer.fedOn (q : Path) : Buffer → Buffer
  | stream s => stream (s.fedOn q)
  | memory data start => memory data start
  | irregular data start => irregular data start

/-- The source with a feed of a path. -/
def Source.fedOn (q : Path) (s : Source) : Source := { s with buffer := s.buffer.fedOn q }

/-- The state with a feed of a path. -/
def Evaluation.State.fedOn (q : Path) (s : State) : State := { s with source := s.source.fedOn q }

variable {q : Path}

/-- What a fill gave, the stream having a feed of a path. -/
def Stream.Filled.fedOn (q : Path) (filled : Filled) : Filled :=
  { filled with stream := filled.stream.fedOn q }

theorem Stream.pull_fedOn (amount : Int) : ∀ (feed : List Element) (s : Stream),
    pull amount feed (s.fedOn q) = (pull amount feed s).fedOn q := by
  intro feed
  induction feed with
  | nil =>
    intro s
    have havailable : (s.fedOn q).available = s.available := rfl
    rw [pull, pull, havailable]
    split_ifs <;> rfl
  | cons e feed ih =>
    intro s
    have havailable : (s.fedOn q).available = s.available := rfl
    cases e with
    | stop =>
      rw [pull, pull, havailable]
      split_ifs <;> rfl
    | failing f =>
      rw [pull, pull, havailable]
      split_ifs <;> rfl
    | value v =>
      have hchunked : (s.fedOn q).chunked = s.chunked := rfl
      rw [pull, pull, havailable, hchunked]
      split_ifs
      · rfl
      · cases contribution s.chunked v with
        | error f => rfl
        | ok vs => exact ih { s.advance feed with items := s.items ++ vs }

/-- A fill reads feeds of either path alike. -/
theorem Stream.fill_inStep (q : Path) (amount : Int) (s : Stream) :
    ∃ filled : Filled, (s.fedOn .blocking).fill .blocking amount = filled.fedOn .blocking ∧
      (s.fedOn q).fill .suspending amount = filled.fedOn q := by
  have hblocking : ¬((s.fedOn .blocking).path = .suspending ∧ Path.blocking = .blocking) := by
    rintro ⟨h, -⟩
    cases h
  have hsuspending : ¬((s.fedOn q).path = .suspending ∧ Path.suspending = .blocking) := by
    rintro ⟨-, h⟩
    cases h
  rw [fill, fill, if_neg hblocking, if_neg hsuspending]
  by_cases hended : s.ended = true
  · exact ⟨⟨s, [], none⟩, if_pos hended, if_pos hended⟩
  · refine ⟨pull amount s.feed s, (if_neg hended).trans ?_, (if_neg hended).trans ?_⟩
    · exact pull_fedOn amount s.feed s
    · exact pull_fedOn amount s.feed s

theorem Stream.consume_fedOn (amount : Int) (s : Stream) :
    (s.fedOn q).consume amount = ((s.consume amount).1.fedOn q, (s.consume amount).2) := by
  show (if trimThreshold ≤ s.head + amount ∧ (s.items.size : Int) ≤ (s.head + amount) * 2 then _
    else _) = _
  rw [consume, trim]
  split_ifs <;> rfl

namespace Buffer

@[simp] theorem available_fedOn (b : Buffer) : (b.fedOn q).available = b.available := by
  cases b <;> rfl

@[simp] theorem slice_fedOn (b : Buffer) (first last : Int) :
    (b.fedOn q).slice first last = b.slice first last := by
  cases b <;> rfl

/-- What has no feed is the same on either path. -/
theorem fedOn_of_pulled? {b : Buffer} (h : b.pulled? = none) : b.fedOn q = b := by
  cases b with
  | stream s => cases h
  | memory data start => rfl
  | irregular data start => rfl

@[simp] theorem countFailure?_fedOn (b : Buffer) : (b.fedOn q).countFailure? = b.countFailure? := by
  cases b <;> rfl

theorem consume_fedOn (amount : Int) (b : Buffer) :
    (b.fedOn q).consume amount = ((b.consume amount).1.fedOn q, (b.consume amount).2) := by
  cases b with
  | stream s => simp only [fedOn, consume, Stream.consume_fedOn]
  | memory data start => rfl
  | irregular data start => rfl

theorem fill_inStep (q : Path) (amount : Int) (b : Buffer) :
    ∃ (filled : Buffer) (events : List Event) (failure : Option Failure),
      (b.fedOn .blocking).fill .blocking amount = (filled.fedOn .blocking, events, failure) ∧
      (b.fedOn q).fill .suspending amount = (filled.fedOn q, events, failure) := by
  cases b with
  | memory data start => exact ⟨.memory data start, [], none, rfl, rfl⟩
  | irregular data start => exact ⟨.irregular data start, [], none, rfl, rfl⟩
  | stream s =>
    obtain ⟨filled, hblocking, hsuspending⟩ := Stream.fill_inStep q amount s
    refine ⟨.stream filled.stream, filled.events, filled.failure, ?_, ?_⟩
    · simp only [fedOn, fill, hblocking]
      rfl
    · simp only [fedOn, fill, hsuspending]
      rfl

end Buffer

theorem Evaluation.State.fedOn_of_pulled? {s : State} (h : s.source.buffer.pulled? = none) :
    s.fedOn q = s := by
  rw [State.fedOn, Source.fedOn, Buffer.fedOn_of_pulled? h]

end Backtrack
