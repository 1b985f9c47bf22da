/-
How a buffer grows while nothing is consumed: its stream takes one element of the feed after another,
so the buffers that come of it lie on one line, and of two the one reaches the other. A fill stops on
that line as soon as enough waits, the feed has ended or an element fails. A buffer further on that
has enough waiting is left as it is by the same fill, and shows the same items. What is done in forks
consumes nothing at the root, so all that it can do to a buffer is to take it further along.
-/
import Backtrack.Proofs.Course
import Backtrack.Proofs.Sequence
namespace Backtrack

/-! ## Elements taken one by one -/

namespace Stream

/-- The stream after one more element was taken from its feed. One whose end was signalled takes no
more. -/
def taken (s : Stream) : Stream :=
  if s.ended then s
  else
    match s.feed with
    | [] => { s with ended := true }
    | .stop :: rest => { s.advance rest with ended := true }
    | .failing _ :: rest => s.advance rest
    | .value v :: rest =>
      match contribution s.chunked v with
      | .error _ => s.advance rest
      | .ok vs => { s.advance rest with items := s.items ++ vs }

theorem taken_of_ended {s : Stream} (h : s.ended = true) : s.taken = s := by
  rw [taken, if_pos h]

/-- How far a stream has got: the elements taken, and the end if it was signalled. -/
def stage (s : Stream) : Nat := s.pulled + if s.ended then 1 else 0

theorem stage_lt_taken {s : Stream} (h : s.ended = false) : s.stage < s.taken.stage := by
  rw [taken, if_neg (by simp [h])]
  split
  · simp [stage, h]
  · simp [stage, h, advance]
  · simp [stage, h, advance]
  · split
    · simp [stage, h, advance]
    · simp [stage, h, advance]

/-- What an element that is taken leaves alone: the items that are there already, and what kind of
stream it is. -/
structure Extends (s u : Stream) : Prop where
  head : u.head = s.head
  path : u.path = s.path
  items : ∃ vs, u.items = s.items ++ vs

theorem Extends.refl (s : Stream) : s.Extends s := ⟨rfl, rfl, #[], by simp⟩

theorem Extends.trans {s t u : Stream} (h : s.Extends t) (h' : t.Extends u) : s.Extends u := by
  obtain ⟨vs, hvs⟩ := h.items
  obtain ⟨ws, hws⟩ := h'.items
  exact ⟨h'.head.trans h.head, h'.path.trans h.path, vs ++ ws, by rw [hws, hvs, Array.append_assoc]⟩

theorem extends_taken (s : Stream) : s.Extends s.taken := by
  rw [taken]
  split
  · exact .refl s
  · split
    · exact ⟨rfl, rfl, #[], by simp⟩
    · exact ⟨rfl, rfl, #[], by simp [advance]⟩
    · exact ⟨rfl, rfl, #[], by simp [advance]⟩
    · split
      · exact ⟨rfl, rfl, #[], by simp [advance]⟩
      · rename_i vs _
        exact ⟨rfl, rfl, vs.toArray, by simp [← Array.toList_inj]⟩

theorem Extends.available_le {s u : Stream} (h : s.Extends u) : s.available ≤ u.available := by
  obtain ⟨vs, hvs⟩ := h.items
  simp only [available, h.head, hvs, Array.size_append]
  push_cast
  omega

end Stream

namespace Buffer

/-- The buffer after one more element was taken from its feed, if it has one. -/
def taken : Buffer → Buffer
  | stream s => stream s.taken
  | b => b

/-- The one buffer becomes the other as elements of its feed are taken. -/
def Reaches (b b' : Buffer) : Prop := ∃ n, taken^[n] b = b'

theorem Reaches.refl (b : Buffer) : b.Reaches b := ⟨0, rfl⟩

theorem Reaches.trans {b b' b'' : Buffer} (h : b.Reaches b') (h' : b'.Reaches b'') : b.Reaches b'' := by
  obtain ⟨n, rfl⟩ := h
  obtain ⟨m, rfl⟩ := h'
  exact ⟨m + n, Function.iterate_add_apply taken m n b⟩

theorem reaches_taken (b : Buffer) : b.Reaches b.taken := ⟨1, rfl⟩

/-- Along the line of a buffer, what every single step keeps is kept. -/
theorem Reaches.induction {R : Buffer → Buffer → Prop} (hrefl : ∀ b, R b b)
    (htrans : ∀ {b b' b''}, R b b' → R b' b'' → R b b'') (htaken : ∀ b, R b b.taken) {b b' : Buffer}
    (h : b.Reaches b') : R b b' := by
  obtain ⟨n, rfl⟩ := h
  induction n with
  | zero => exact hrefl b
  | succ n ih =>
    rw [Function.iterate_succ_apply']
    exact htrans ih (htaken _)

/-- A stream reaches streams that extend it; any other buffer reaches itself alone. -/
inductive Extends : Buffer → Buffer → Prop where
  | refl (b : Buffer) : Extends b b
  | stream {s u : Stream} (h : s.Extends u) : Extends (.stream s) (.stream u)

theorem Reaches.extends {b b' : Buffer} (h : b.Reaches b') : b.Extends b' := by
  refine h.induction .refl (fun h h' => ?_) fun b => ?_
  · cases h with
    | refl => exact h'
    | stream h =>
      cases h' with
      | refl => exact .stream h
      | stream h' => exact .stream (h.trans h')
  · cases b with
    | memory data start => exact .refl _
    | stream s => exact .stream s.extends_taken
    | irregular data start => exact .refl _

theorem Reaches.available_le {b b' : Buffer} (h : b.Reaches b') : b.available ≤ b'.available := by
  cases h.extends with
  | refl => exact le_refl _
  | stream hsu => exact Stream.Extends.available_le hsu

theorem Reaches.countFailure? {b b' : Buffer} (h : b.Reaches b') :
    b'.countFailure? = b.countFailure? := by
  cases h.extends with
  | refl => rfl
  | stream hsu => rfl

/-- How far a buffer has got on its line. -/
def stage : Buffer → Nat
  | stream s => s.stage
  | _ => 0

theorem taken_eq_or_stage_lt (b : Buffer) : b.taken = b ∨ b.stage < b.taken.stage := by
  cases b with
  | memory data start => exact .inl rfl
  | irregular data start => exact .inl rfl
  | stream s =>
    cases hs : s.ended with
    | true => exact .inl (congrArg stream (Stream.taken_of_ended hs))
    | false => exact .inr (Stream.stage_lt_taken hs)

theorem Reaches.stage_le {b b' : Buffer} (h : b.Reaches b') : b.stage ≤ b'.stage := by
  have hstep : ∀ b : Buffer, b.stage ≤ b.taken.stage := fun b => by
    rcases b.taken_eq_or_stage_lt with heq | hlt
    · rw [heq]
    · exact hlt.le
  exact h.induction (R := fun b b' => b.stage ≤ b'.stage) (fun _ => le_refl _) le_trans hstep

/-- Two buffers that reach each other are the same. -/
theorem Reaches.antisymm {b b' : Buffer} (h : b.Reaches b') (h' : b'.Reaches b) : b = b' := by
  obtain ⟨_ | n, hn⟩ := h
  · exact hn
  · rcases b.taken_eq_or_stage_lt with heq | hlt
    · rw [Function.iterate_fixed heq] at hn
      exact hn
    · -- after one step it cannot come back
      have hrest : b.taken.Reaches b' := ⟨n, by rw [← hn, Function.iterate_succ_apply]⟩
      have := hrest.stage_le
      have := h'.stage_le
      omega

end Buffer

/-! ## Fills -/

namespace Stream

theorem pull_feed_of_le {s : Stream} {amount : Int} (h : amount ≤ s.available) :
    pull amount s.feed s = ⟨s, [], none⟩ := by
  unfold pull
  rw [if_pos h]

/-- A pull that asks for more than waits takes one element. It fails there, or stops because that was
the end, or goes on as a pull from behind the element. -/
theorem pull_feed_of_lt {s : Stream} {amount : Int} (hended : s.ended = false) (h : s.available < amount) :
    ((pull amount s.feed s).failure ≠ none ∧ (pull amount s.feed s).stream = s.taken) ∨
    (s.taken.ended = true ∧ (pull amount s.feed s).failure = none ∧
      (pull amount s.feed s).stream = s.taken) ∨
    s.taken.ended = false ∧ pull amount s.feed s = pull amount s.taken.feed s.taken := by
  have hmore : ¬ amount ≤ s.available := not_le.2 h
  obtain ⟨feed, pulled, chunked, path, items, head, ended⟩ := s
  cases hended
  cases feed with
  | nil =>
    refine .inr (.inl ?_)
    rw [pull, if_neg hmore]
    exact ⟨rfl, rfl, rfl⟩
  | cons e rest =>
    cases e with
    | stop =>
      refine .inr (.inl ?_)
      rw [pull, if_neg hmore]
      exact ⟨rfl, rfl, rfl⟩
    | failing f =>
      refine .inl ?_
      rw [pull, if_neg hmore]
      exact ⟨Option.some_ne_none _, rfl⟩
    | value v =>
      rw [pull, if_neg hmore]
      cases hv : contribution chunked v with
      | error f =>
        refine .inl ?_
        simp only [taken, hv]
        exact ⟨Option.some_ne_none _, rfl⟩
      | ok vs =>
        refine .inr (.inr ?_)
        simp only [taken, hv]
        exact ⟨rfl, rfl⟩

/-- The feed gets shorter until its end is signalled. -/
theorem length_feed_taken_lt {s : Stream} (h : s.taken.ended = false) :
    s.taken.feed.length < s.feed.length := by
  obtain ⟨feed, pulled, chunked, path, items, head, ended⟩ := s
  cases ended with
  | true => cases h
  | false =>
    cases feed with
    | nil => cases h
    | cons e rest =>
      cases e with
      | stop => cases h
      | failing f => exact Nat.lt_succ_self _
      | value v =>
        simp only [taken]
        cases contribution chunked v with
        | error f => exact Nat.lt_succ_self _
        | ok vs => exact Nat.lt_succ_self _

/-- A pull takes some elements, and unless it fails, so many that enough waits or that the end was
signalled. -/
theorem exists_pull_eq (amount : Int) {s : Stream} (h : s.ended = false) :
    ∃ n, (pull amount s.feed s).stream = taken^[n] s ∧
      ((pull amount s.feed s).failure = none →
        amount ≤ (pull amount s.feed s).stream.available ∨
          (pull amount s.feed s).stream.ended = true) := by
  rcases le_or_gt amount s.available with hle | hlt
  · rw [pull_feed_of_le hle]
    exact ⟨0, rfl, fun _ => .inl hle⟩
  · rcases pull_feed_of_lt h hlt with ⟨hfails, hstream⟩ | ⟨hlast, -, hstream⟩ | ⟨hmore, hpull⟩
    · exact ⟨1, hstream, fun hnone => absurd hnone hfails⟩
    · exact ⟨1, hstream, fun _ => .inr (hstream ▸ hlast)⟩
    · have hshorter := length_feed_taken_lt hmore
      obtain ⟨n, hstream, henough⟩ := exists_pull_eq amount hmore
      rw [hpull]
      exact ⟨n + 1, hstream, henough⟩
termination_by s.feed.length

end Stream

namespace Buffer

/-- A feed that is read while others go on is left alone by one who waits for it. -/
theorem fill_of_refused {s : Stream} {path : Path} (h : s.path = .suspending ∧ path = .blocking)
    (amount : Int) : (stream s).fill path amount = (stream s, [], some Stream.onlySuspending) := by
  rw [fill, Stream.fill, if_pos h]

/-- What a fill does to a buffer and to the one that comes after it: it fails at the element between
them, or it does the same to both, or it leaves both as they are. -/
theorem fill_taken (b : Buffer) (path : Path) (amount : Int) :
    ((b.fill path amount).2.2 ≠ none ∧ (b.fill path amount).1 = b.taken) ∨
    ((b.taken.fill path amount).1 = (b.fill path amount).1 ∧
      (b.taken.fill path amount).2.2 = (b.fill path amount).2.2) ∨
    (b.fill path amount).1 = b ∧ (b.taken.fill path amount).1 = b.taken ∧
      (b.taken.fill path amount).2.2 = (b.fill path amount).2.2 := by
  cases b with
  | memory data start => exact .inr (.inl ⟨rfl, rfl⟩)
  | irregular data start => exact .inr (.inl ⟨rfl, rfl⟩)
  | stream s =>
    cases hended : s.ended with
    | true =>
      rw [taken, Stream.taken_of_ended hended]
      exact .inr (.inl ⟨rfl, rfl⟩)
    | false =>
      have hpath : s.taken.path = s.path := s.extends_taken.path
      simp only [fill, taken, Stream.fill, hpath, hended]
      by_cases hrefused : s.path = .suspending ∧ path = .blocking
      · simp [hrefused]
      simp only [if_neg hrefused, Bool.false_eq_true, if_false]
      rcases le_or_gt amount s.available with hle | hlt
      · -- enough waits, and no less does afterwards
        have hle' : amount ≤ s.taken.available := le_trans hle s.extends_taken.available_le
        refine .inr (.inr ?_)
        rw [Stream.pull_feed_of_le hle, Stream.pull_feed_of_le hle', ite_self]
        exact ⟨rfl, rfl, rfl⟩
      · rcases Stream.pull_feed_of_lt hended hlt with ⟨hfails, hstream⟩ | ⟨hlast, hfailure, hstream⟩ |
          ⟨hmore, hpull⟩
        · exact .inl ⟨hfails, congrArg stream hstream⟩
        · refine .inr (.inl ?_)
          rw [if_pos hlast, hstream, hfailure]
          exact ⟨rfl, rfl⟩
        · refine .inr (.inl ?_)
          rw [if_neg (by simp [hmore]), hpull]
          exact ⟨rfl, rfl⟩

theorem iterate_taken_stream (s : Stream) : ∀ n, taken^[n] (stream s) = stream (Stream.taken^[n] s)
  | 0 => rfl
  | n + 1 => by
    rw [Function.iterate_succ_apply, Function.iterate_succ_apply]
    exact iterate_taken_stream s.taken n

/-- Filling a buffer takes it further along. -/
theorem reaches_fill (b : Buffer) (path : Path) (amount : Int) : b.Reaches (b.fill path amount).1 := by
  cases b with
  | memory data start => exact .refl _
  | irregular data start => exact .refl _
  | stream s =>
    simp only [fill, Stream.fill]
    split
    · exact .refl _
    · cases hended : s.ended with
      | true => exact .refl _
      | false =>
        obtain ⟨n, hn, -⟩ := s.exists_pull_eq amount hended
        exact ⟨n, by rw [iterate_taken_stream, ← hn]; rfl⟩

/-- The same fill of a buffer and of one further on: it fails for the first, which does not get beyond the
second, or takes both to the same buffer, or does not take the first beyond the second, which it leaves
as it is. -/
theorem Reaches.fill {b b' : Buffer} (h : b.Reaches b') (path : Path) (amount : Int) :
    ((b.fill path amount).2.2 ≠ none ∧ (b.fill path amount).1.Reaches b') ∨
    ((b'.fill path amount).1 = (b.fill path amount).1 ∧
      (b'.fill path amount).2.2 = (b.fill path amount).2.2) ∨
    (b.fill path amount).1.Reaches b' ∧ (b'.fill path amount).1 = b' ∧
      (b'.fill path amount).2.2 = (b.fill path amount).2.2 := by
  obtain ⟨n, rfl⟩ := h
  induction n generalizing b with
  | zero => exact .inr (.inl ⟨rfl, rfl⟩)
  | succ n ih =>
    rw [Function.iterate_succ_apply]
    have hrest : b.taken.Reaches (Buffer.taken^[n] b.taken) := ⟨n, rfl⟩
    rcases b.fill_taken path amount with ⟨hfails, hbuffer⟩ | ⟨hbuffer, hfailure⟩ | ⟨hbuffer, hbuffer', hfailure⟩
    · exact .inl ⟨hfails, hbuffer ▸ hrest⟩
    · rw [← hbuffer, ← hfailure]
      exact ih
    · rw [hbuffer, ← hfailure]
      have hreaches : b.Reaches (Buffer.taken^[n] b.taken) := b.reaches_taken.trans hrest
      rcases ih (b := b.taken) with ⟨hfails, -⟩ | ⟨hsame, hsame'⟩ | ⟨-, hstays, hsame⟩
      · exact .inl ⟨hfails, hreaches⟩
      · have hback : (Buffer.taken^[n] b.taken).Reaches b.taken := by
          have := (Buffer.taken^[n] b.taken).reaches_fill path amount
          rwa [hsame, hbuffer'] at this
        have hsteady : Buffer.taken^[n] b.taken = b.taken := hback.antisymm hrest
        exact .inr (.inr ⟨hreaches, by rw [hsteady, hbuffer'], hsame'⟩)
      · exact .inr (.inr ⟨hreaches, hstays, hsame⟩)

end Buffer

/-! ## Slices -/

namespace Stream

/-- A fill that does not fail leaves enough waiting, or the end signalled. -/
theorem le_available_or_ended_of_fill {s : Stream} {path : Path} {amount : Int}
    (h : (s.fill path amount).failure = none) :
    amount ≤ (s.fill path amount).stream.available ∨ (s.fill path amount).stream.ended = true := by
  rw [fill] at h ⊢
  split at h
  · cases h
  · rename_i hpath
    rw [if_neg hpath]
    cases hended : s.ended with
    | true => exact .inr (by simpa using hended)
    | false =>
      obtain ⟨n, -, henough⟩ := s.exists_pull_eq amount hended
      simp only [hended] at h ⊢
      exact henough h

/-- A stream that holds more shows the same where enough waited already. -/
theorem Extends.slice {s u : Stream} (h : s.Extends u) {first last : Int} (hfirst : 0 ≤ s.head + first)
    (hle : first ≤ last) (hlast : last ≤ s.available) :
    (Buffer.stream u).slice first last = (Buffer.stream s).slice first last := by
  obtain ⟨vs, hvs⟩ := h.items
  rw [available] at hlast
  -- neither bound is moved, in the longer array as little as in the shorter one
  have hclip : ∀ o, first ≤ o → o ≤ last → ∀ size ≥ s.items.size,
      Sequence.clip size (s.head + o) = (s.head + o).toNat := by
    intro o ho ho' size hsize
    rw [Sequence.clip_of_nonneg (by omega)]
    omega
  have hbound : (s.head + last).toNat ≤ s.items.size := by omega
  simp only [Buffer.slice, Sequence.slice, Sequence.size, h.head, hvs,
    hclip first (le_refl _) hle _ (le_refl _), hclip last hle (le_refl _) _ (le_refl _),
    hclip first (le_refl _) hle _ (Array.size_append ▸ Nat.le_add_right _ _),
    hclip last hle (le_refl _) _ (Array.size_append ▸ Nat.le_add_right _ _)]
  rw [Array.extract_append]
  simp [Nat.sub_eq_zero_of_le hbound]

end Stream

namespace Buffer

/-- The place at an offset lies before all items that the stream holds. -/
def Precedes : Buffer → Int → Prop
  | stream s, o => s.head + o < 0
  | _, _ => False

theorem Reaches.precedes_iff {b b' : Buffer} (h : b.Reaches b') {o : Int} :
    b'.Precedes o ↔ b.Precedes o := by
  cases h.extends with
  | refl => exact Iff.rfl
  | stream hsu => simp only [Precedes, hsu.head]

theorem Reaches.eq_of_ended {s : Stream} {b : Buffer} (h : (stream s).Reaches b)
    (hended : s.ended = true) : b = stream s := by
  obtain ⟨n, rfl⟩ := h
  exact Function.iterate_fixed (congrArg stream (Stream.taken_of_ended hended)) n

/-- What a fill has made wait shows in the same way however much further the buffer gets. -/
theorem slice_of_reaches_fill {b b' : Buffer} {path : Path} {o n : Int} (ho : ¬ b.Precedes o)
    (hn : 0 ≤ n) (hfill : (b.fill path (o + n)).2.2 = none)
    (h : (b.fill path (o + n)).1.Reaches b') :
    b'.slice o (o + n) = (b.fill path (o + n)).1.slice o (o + n) := by
  rw [← (b.reaches_fill path (o + n)).precedes_iff] at ho
  cases b with
  | memory data start =>
    cases h.extends
    rfl
  | irregular data start =>
    cases h.extends
    rfl
  | stream s =>
    rcases Stream.le_available_or_ended_of_fill hfill with hmore | hended
    · cases h.extends with
      | refl => rfl
      | stream hsu => exact hsu.slice (not_lt.1 ho) (by omega) hmore
    · rw [h.eq_of_ended hended]
      rfl

/-! ## Places before a stream -/

/-- At the offset so many items can be read, the last of them included. -/
def Finds (b : Buffer) (o : Int) : Nat → Prop
  | 0 => True
  | n + 1 => ∃ items v, b.slice o (o + ((n : Int) + 1)) = .ok items ∧ items.get? n = some v

/-- A slice from before the first item ends before it too, if it is as long as it was asked to be. -/
theorem Precedes.add {b : Buffer} {o : Int} (h : b.Precedes o) {n : Nat} (hn : b.Finds o n) :
    b.Precedes (o + n) := by
  cases b with
  | memory data start => exact h
  | irregular data start => exact h
  | stream s =>
    cases n with
    | zero => simpa using h
    | succ n =>
      obtain ⟨items, v, hslice, hv⟩ := hn
      cases hslice
      have hsize := Sequence.lt_size_of_get? hv
      simp only [Precedes, Nat.cast_add, Nat.cast_one] at h ⊢
      simp only [Sequence.slice, Sequence.size, Array.size_extract, Sequence.clip] at hsize
      split at hsize
      · assumption
      · omega

/-- A fill for items before the first one pulls nothing. -/
theorem Precedes.fill {b : Buffer} {o : Int} (h : b.Precedes o) {n : Nat} (hn : b.Finds o n)
    (path : Path) : (b.fill path (o + (n + 1))).1 = b := by
  have hnext := h.add hn
  cases b with
  | memory data start => rfl
  | irregular data start => rfl
  | stream s =>
    have henough : o + (n + 1) ≤ s.available := by
      simp only [Precedes, Stream.available] at hnext ⊢
      omega
    simp only [Buffer.fill, Stream.fill, Stream.pull_feed_of_le henough]
    split
    · rfl
    · rw [ite_self]

end Buffer

/-! ## What is done in forks -/

namespace Source

variable {c : Cursor} {s u : Source}

/-- From `s` to `u` the cursor `c` has moved. Unless it is the root, the buffer has at most got
further along. -/
structure Pulled (c : Cursor) (s u : Source) : Prop extends Moved c s u where
  reaches : c ≠ .root → s.buffer.Reaches u.buffer

theorem Forked.toMoved (h : Forked Pulled c s u) : Forked Moved c s u := ⟨h.isOpen, h.moved.toMoved⟩

theorem Forked.reaches (h : Forked Pulled c s u) : s.buffer.Reaches u.buffer :=
  h.moved.reaches (by simp)

theorem reaches_read (path : Path) (c : Cursor) (amount : Int) (s : Source) :
    s.buffer.Reaches ((read path c amount).runOn s).2.buffer := by
  cases hc : s.isClosed c with
  | true =>
    rw [runOn_read_of_closed hc]
    exact .refl _
  | false =>
    rw [runOn_read hc]
    exact s.buffer.reaches_fill path _

instance : Motion Pulled where
  refl c s := ⟨.refl c s, fun _ => .refl _⟩
  trans h h' := ⟨h.toMoved.trans h'.toMoved, fun hc => (h.reaches hc).trans (h'.reaches hc)⟩
  withEvents h events := ⟨h.toMoved.withEvents events, h.reaches⟩
  read path c amount _ s := ⟨moved_read path c amount s, fun _ => reaches_read path c amount s⟩
  consume c n s := by
    refine ⟨moved_consume c n s, fun hc => ?_⟩
    cases c with
    | root => exact absurd rfl hc
    | fork id =>
      rw [buffer_consume_fork]
      exact .refl _
  left h := ⟨Motion.left h.toMoved, fun _ => h.reaches⟩
  closed h := ⟨Motion.closed h.toMoved, fun _ => h.reaches⟩
  joined {c s u} h := by
    refine ⟨Motion.joined h.toMoved, fun hc => ?_⟩
    cases c with
    | root => exact absurd rfl hc
    | fork id =>
      rw [h.toMoved.inside.runOn_join.2.1]
      exact h.reaches

end Source

end Backtrack
