/-
What a stream keeps of what was consumed. Consumed items stay in the queue until they are many and at
least half of what it holds, and then all of them are dropped at once. That is tested only where items
are consumed, and what is pulled in between adds to what waits and to nothing else: so what the test
ensures lasts until it is made again. A stream therefore never holds more than twice what waits in it,
or what waits and as many items more as are kept at least. Only what was consumed is ever dropped, and
all that follows it is held, as far as the feed was pulled.
-/
import Backtrack.Proofs.Tape
import Backtrack.Proofs.Requests
namespace Backtrack

namespace Stream

variable {script : List Element} {chunked : Bool} {path : Path} {passed : Nat} {s u : Stream}

/-! ## How much is kept -/

/-- Of the items that are held few were consumed: not as many as are kept at least, or fewer than
wait. -/
def Tidy (s : Stream) : Prop := s.head < trimThreshold ∨ s.head < s.available

theorem Tidy.size_le (h : s.Tidy) :
    (s.items.size : Int) ≤ s.available + max (trimThreshold - 1) (s.available - 1) := by
  rw [Tidy] at h
  rw [available] at h ⊢
  omega

/-- Items that are added wait, and make no difference to how many were consumed. -/
theorem Tidy.extends (h : s.Tidy) (hu : s.Extends u) : u.Tidy := by
  have hmore := hu.available_le
  rw [Tidy] at h ⊢
  rw [hu.head]
  omega

/-- The test leaves few consumed items, however many there were. -/
theorem tidy_trim (s : Stream) : s.trim.1.Tidy := by
  unfold trim
  split
  · exact .inl (show (0 : Int) < trimThreshold by decide)
  · rename_i hkept
    simp only [Tidy, available]
    omega

/-! ## What is dropped -/

theorem extends_fill (s : Stream) (p : Path) (amount : Int) : s.Extends (s.fill p amount).stream := by
  obtain ⟨n, hn⟩ := (Buffer.stream s).reaches_fill p amount
  rw [Buffer.iterate_taken_stream] at hn
  rw [← Buffer.stream.inj hn]
  exact s.extends_iterate_taken n

/-- A fill drops nothing. -/
theorem items_prefix_fill (s : Stream) (p : Path) (amount : Int) :
    s.items.toList <+: (s.fill p amount).stream.items.toList := by
  obtain ⟨vs, hvs⟩ := (s.extends_fill p amount).items
  rw [hvs, Array.toList_append]
  exact List.prefix_append _ _

/-- The test drops nothing, or all that was consumed. -/
theorem exists_dropped_trim (hnonneg : 0 ≤ s.head) (hle : s.head ≤ s.items.size) :
    ∃ dropped : List Value, s.items.toList = dropped ++ s.trim.1.items.toList ∧
      (dropped.length : Int) + s.trim.1.head = s.head ∧ 0 ≤ s.trim.1.head := by
  unfold trim
  split
  · refine ⟨s.items.toList.take s.head.toNat, ?_, ?_, le_refl _⟩
    · simp [List.take_of_length_le]
    · simp only [List.length_take, Array.length_toList]
      omega
  · exact ⟨[], rfl, by simp, hnonneg⟩

/-- Consuming what waits drops nothing, or all that is consumed then. -/
theorem exists_dropped_consume (hnonneg : 0 ≤ s.head) {n : Nat} (hn : n ≤ s.available) :
    ∃ dropped : List Value, s.items.toList = dropped ++ (s.consume n).1.items.toList ∧
      (dropped.length : Int) + (s.consume n).1.head = s.head + n ∧ 0 ≤ (s.consume n).1.head := by
  rw [available] at hn
  exact exists_dropped_trim (s := { s with head := s.head + n }) (by dsimp only; omega)
    (by dsimp only; omega)

/-- How a stream stands of whose items `passed` were consumed: few of these are held still, and with what
was dropped it would be a stream of whose items none was consumed. -/
structure Keeps (script : List Element) (chunked : Bool) (path : Path) (passed : Nat)
    (s : Stream) : Prop where
  head_nonneg : 0 ≤ s.head
  head_le : s.head ≤ s.items.size
  tidy : s.Tidy
  tape : ∃ tape : Stream, s.Leads passed tape ∧ tape.head = 0 ∧ tape.Supplies script chunked path 0

namespace Keeps

theorem ofFeed (script : List Element) (chunked : Bool) (path : Path) :
    Keeps script chunked path 0 (.ofFeed script chunked path) :=
  ⟨le_refl _, le_refl _, .inl (show (0 : Int) < trimThreshold by decide), _, .refl _, rfl,
    .ofFeed script chunked path⟩

theorem fill (h : s.Keeps script chunked path passed) (p : Path) (amount : Int) :
    (s.fill p amount).stream.Keeps script chunked path passed := by
  have hextends := s.extends_fill p amount
  have hhead := hextends.head
  have hmore := hextends.available_le
  obtain ⟨hnonneg, hle, htidy, tape, hleads, hstart, hsupplies⟩ := h
  rw [available, available] at hmore
  exact ⟨by omega, by omega, htidy.extends hextends, _, (hleads.fill p amount).2,
    (tape.extends_fill p (amount + passed)).head.trans hstart, hsupplies.fill p _⟩

theorem consume (h : s.Keeps script chunked path passed) {n : Nat} (hn : n ≤ s.available) :
    (s.consume n).1.Keeps script chunked path (passed + n) := by
  obtain ⟨hnonneg, hle, -, tape, hleads, hstart, hsupplies⟩ := h
  obtain ⟨dropped, hitems, hdropped, hnonneg'⟩ := exists_dropped_consume hnonneg hn
  have hsize := congrArg List.length hitems
  simp only [List.length_append, Array.length_toList] at hsize
  -- the tape stays as it is, and the stream is ahead of it by `n` items more
  refine ⟨hnonneg', ?_, tidy_trim _, tape, ?_, hstart, hsupplies⟩
  · rw [available] at hn
    omega
  · push_cast
    exact hleads.consume (Int.natCast_nonneg n) hn

/-- What was dropped, what is held and what the feed still brings are together all that it brings, and
what was dropped was consumed. -/
theorem supplied_eq (h : s.Keeps script chunked path passed) : ∃ dropped : List Value,
    supplied chunked script =
      dropped ++ s.items.toList ++ (if s.ended then [] else supplied chunked s.feed) ∧
    (dropped.length : Int) + s.head = passed := by
  obtain ⟨-, -, -, tape, hleads, hstart, hsupplies⟩ := h
  obtain ⟨dropped, hitems, hhead, -⟩ := hleads.items
  -- nothing on the tape is passed, so that all it has been brought waits there
  have hahead := hsupplies.ahead_eq
  refine ⟨dropped.toList, ?_, ?_⟩
  · rw [List.drop_zero, waiting, hstart, hitems, hleads.ended, hleads.feed] at hahead
    simpa using hahead
  · rw [Array.length_toList]
    omega

end Keeps

/-! ## Runs of fills and consumes -/

/-- A stream over a feed that was filled and consumed in any order, and how many items were consumed.
These waited when they were. -/
inductive Handled (script : List Element) (chunked : Bool) (path : Path) : Stream → Nat → Prop where
  | made : Handled script chunked path (.ofFeed script chunked path) 0
  | filled {s : Stream} {passed : Nat} (h : Handled script chunked path s passed) (p : Path)
    (amount : Int) : Handled script chunked path (s.fill p amount).stream passed
  | consumed {s : Stream} {passed : Nat} (h : Handled script chunked path s passed) (n : Nat)
    (hn : n ≤ s.available) : Handled script chunked path (s.consume n).1 (passed + n)

theorem Handled.keeps (h : Handled script chunked path s passed) :
    s.Keeps script chunked path passed := by
  induction h with
  | made => exact .ofFeed script chunked path
  | filled _ p amount ih => exact ih.fill p amount
  | consumed _ n hn ih => exact ih.consume hn

end Stream

namespace Source

open Backtrack.Stream (Handled supplied trimThreshold)

variable {script : List Element} {chunked : Bool} {path : Path} {s u : Source}

/-- The buffer is a stream over the feed that was filled and consumed, of whose items as many were
consumed as the root has passed. -/
def Handles (script : List Element) (chunked : Bool) (path : Path) (s : Source) : Prop :=
  ∃ (st : Stream) (passed : Nat), s.buffer = .stream st ∧ s.position = passed ∧
    Handled script chunked path st passed

theorem Handles.passed (h : s.Handles script chunked path) (hpassage : Passage s u) :
    u.Handles script chunked path := by
  obtain ⟨st, passed, hbuffer, hposition, hst⟩ := h
  cases hpassage with
  | kept hbuffer' hposition' =>
    exact ⟨st, passed, hbuffer'.trans hbuffer, hposition'.trans hposition, hst⟩
  | consumed n hle hbuffer' hposition' =>
    rw [hbuffer] at hle hbuffer'
    exact ⟨_, passed + n, hbuffer', by rw [hposition', hposition]; push_cast; rfl, hst.consumed n hle⟩

theorem Handles.read (h : s.Handles script chunked path) (p : Path) (c : Cursor) (n : Nat) :
    ((Source.read p c n).runOn s).2.Handles script chunked path := by
  obtain ⟨st, passed, hbuffer, hposition, hst⟩ := h
  cases hc : s.isClosed c with
  | true =>
    rw [runOn_read_of_closed hc]
    exact ⟨st, passed, hbuffer, hposition, hst⟩
  | false =>
    rw [runOn_read hc, hbuffer]
    exact ⟨_, passed, rfl, hposition, hst.filled p _⟩

/-- Whatever is asked of any cursor, the buffer is filled or consumed. -/
theorem Handles.use (h : s.Handles script chunked path) (hs : s.Proper) (use : Use) :
    (s.after [use]).Handles script chunked path := by
  obtain ⟨p, c, r⟩ := use
  show ((r.perform p c).runOn s).2.Handles script chunked path
  -- only a read fills the buffer, and whatever else is asked may only consume
  cases r with
  | read n =>
    rw [snd_runOn_perform]
    exact h.read p c n
  | consume | fork | join | close => exact h.passed (passage_perform hs (by simp) p c)

theorem Handles.of_matches (h : s.Handles script chunked path) (hu : s.Matches u) :
    u.Handles script chunked path := by
  obtain ⟨events, rfl⟩ := hu
  exact h

theorem handles_acted (script : List Element) (chunked : Bool) (path : Path) (acts : List Action) :
    ((ofFeed script chunked path).acted acts).Handles script chunked path := by
  have hproper := (New.ofFeed script chunked path).proper
  obtain ⟨uses, huses⟩ := exists_makes acts hproper
  have hmade : (ofFeed script chunked path).Handles script chunked path := ⟨_, 0, rfl, rfl, .made⟩
  have hafter := Proper.after_induction (fun _ use hs h => Handles.use h hs use) uses hproper hmade
  exact hafter.of_matches huses.matches

/-- However a stream is filled and consumed, whether a fill fails or not, the consumed items that it
still holds are not as many as are kept at least, or fewer than those that wait, so that it holds no more
than what waits and as much again. It holds all that the feed has brought behind what was dropped; what
was dropped was consumed, and each time items are dropped, these are consumed ones. This is all that
happens to the buffer of a source, whatever is done at the root and at its forks. -/
theorem held_at_most (script : List Element) (chunked : Bool) (path : Path) :
    (∀ (st : Stream) (passed : Nat), Handled script chunked path st passed →
      (st.head < trimThreshold ∨ st.head < st.available) ∧
      (st.items.size : Int) ≤ st.available + max (trimThreshold - 1) (st.available - 1) ∧
      (∃ dropped : List Value,
        supplied chunked script =
          dropped ++ st.items.toList ++ (if st.ended then [] else supplied chunked st.feed) ∧
        (dropped.length : Int) + st.head = passed ∧ 0 ≤ st.head) ∧
      (∀ (p : Path) (amount : Int), st.items.toList <+: (st.fill p amount).stream.items.toList) ∧
      ∀ n : Nat, n ≤ st.available → ∃ dropped : List Value,
        st.items.toList = dropped ++ (st.consume n).1.items.toList ∧
        (dropped.length : Int) ≤ st.head + n) ∧
    ∀ acts : List Action, ∃ (st : Stream) (passed : Nat),
      ((ofFeed script chunked path).acted acts).buffer = .stream st ∧
      ((ofFeed script chunked path).acted acts).position = passed ∧
      Handled script chunked path st passed := by
  refine ⟨fun st passed h => ?_, handles_acted script chunked path⟩
  have hkeeps := h.keeps
  obtain ⟨dropped, hsupplied, hpassed⟩ := hkeeps.supplied_eq
  refine ⟨hkeeps.tidy, hkeeps.tidy.size_le, ⟨dropped, hsupplied, hpassed, hkeeps.head_nonneg⟩,
    st.items_prefix_fill, fun n hn => ?_⟩
  obtain ⟨gone, hitems, hgone, hnonneg⟩ := Stream.exists_dropped_consume hkeeps.head_nonneg hn
  exact ⟨gone, hitems, by omega⟩

/-- A stream over one chunk with `n` items, which was filled. -/
def ofChunk (n : Nat) : Stream :=
  ((Stream.ofFeed [.value (.list (.replicate n .none))] true .blocking).fill .blocking 1).stream

theorem ofChunk_eq {n : Nat} (hn : 0 < n) :
    ofChunk n = ⟨[], 1, true, .blocking, (List.replicate n .none).toArray, 0, false⟩ := by
  have hbrings : Stream.contribution true (.list (.replicate n .none)) = .ok (.replicate n .none) := rfl
  have henough : (1 : Int) ≤ n := by omega
  simp [ofChunk, Stream.ofFeed, Stream.fill, Stream.pull, hbrings, Stream.available, Stream.advance,
    henough]

theorem handled_ofChunk (n : Nat) :
    Handled [.value (.list (.replicate n .none))] true .blocking (ofChunk n) 0 := .filled .made .blocking 1

theorem available_ofChunk {n : Nat} (hn : 0 < n) : (ofChunk n).available = n := by
  simp [ofChunk_eq hn, Stream.available]

theorem size_consume_ofChunk {n m : Nat} (hm : 1024 ≤ m) (hhalf : n ≤ m * 2) (hle : m ≤ n) :
    ((ofChunk n).consume m).1.items.size = n - m := by
  have hmany : trimThreshold ≤ 0 + (m : Int) := by
    rw [trimThreshold]
    omega
  rw [ofChunk_eq (by omega), Stream.consume, Stream.trim, if_pos ⟨hmany, by simp; omega⟩]
  simp

/-- Of a long chunk three quarters are consumed, and then no longer held. -/
theorem held_at_most_ofChunk :
    Handled [.value (.list (.replicate 2000 .none))] true .blocking (ofChunk 2000) 0 ∧
    (1500 : Nat) ≤ (ofChunk 2000).available ∧
    ((ofChunk 2000).consume (1500 : Nat)).1.items.size = 500 ∧
    (((ofChunk 2000).consume (1500 : Nat)).1.head < trimThreshold ∨
      ((ofChunk 2000).consume (1500 : Nat)).1.head < ((ofChunk 2000).consume (1500 : Nat)).1.available) ∧
    ∃ dropped : List Value,
      (ofChunk 2000).items.toList = dropped ++ ((ofChunk 2000).consume (1500 : Nat)).1.items.toList ∧
      (dropped.length : Int) ≤ (ofChunk 2000).head + (1500 : Nat) := by
  have hfilled := handled_ofChunk 2000
  have hn : (1500 : Nat) ≤ (ofChunk 2000).available := by
    rw [available_ofChunk (by decide)]
    decide
  obtain ⟨-, -, -, -, hdropped⟩ := (held_at_most _ true .blocking).1 _ 0 hfilled
  obtain ⟨hfew, -⟩ := (held_at_most _ true .blocking).1 _ _ (hfilled.consumed 1500 hn)
  exact ⟨hfilled, hn, size_consume_ofChunk (by decide) (by decide) (by decide), hfew, hdropped 1500 hn⟩

end Source
end Backtrack
