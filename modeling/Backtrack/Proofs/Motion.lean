/-
What evaluating a rule does to the cursor that it is given, whatever the rule, the source and the
result. The cursor stays as open as it was and never goes back, and the limit of the input, which is
where the items that wait and those that the feed still holds come to an end, never moves on. All
else that may have changed is the buffer, and forks that were made on the way. `Moved c s u` says so
of two sources. It is a `Motion`: reading, consuming and whatever is done in a fork keep it. What is
a motion, every rule keeps.
-/
import Backtrack.Proofs.Cursor
import Backtrack.Proofs.Function
namespace Backtrack

open Source (Frame)

/-! ## What a buffer was made over -/

/-- What of a buffer never changes: the value that it holds, or what kind of feed it has. -/
inductive Buffer.Base where
  | memory (data : Sequence)
  | stream (chunked : Bool) (path : Path)
  | irregular (data : Value)

/-- What a buffer was made over. -/
def Buffer.base : Buffer → Base
  | memory data _ => .memory data
  | stream s => .stream s.chunked s.path
  | irregular data _ => .irregular data

theorem Buffer.countFailure?_eq_of_base {b b' : Buffer} (h : b.base = b'.base) :
    b.countFailure? = b'.countFailure? := by
  cases b <;> cases b' <;> first | rfl | (cases h <;> rfl)

/-! ## What a feed still holds -/

/-- The elements that the feed of a buffer still has, if there is one. -/
def Buffer.feed : Buffer → List Element
  | stream s => s.feed
  | memory .. | irregular .. => []

/-- How many items the elements of a feed would bring, if all of them were taken. -/
def Stream.held (chunked : Bool) : List Element → Nat
  | [] => 0
  | .value v :: rest =>
    match contribution chunked v with
    | .ok vs => vs.length + held chunked rest
    | .error _ => held chunked rest
  | .failing _ :: rest | .stop :: rest => held chunked rest

/-- How many items the feed of a buffer would bring, if there is one. -/
def Buffer.held : Buffer → Nat
  | stream s => Stream.held s.chunked s.feed
  | memory .. | irregular .. => 0

namespace Stream

/-- Pulling keeps the kind of the feed and takes elements from its front, makes nothing wait no
longer, and makes no more items out of those that waited and those that the feed held. -/
theorem pull_bounds (amount : Int) : ∀ (feed : List Element) (s : Stream),
    (pull amount feed s).stream.chunked = s.chunked ∧
    (pull amount feed s).stream.path = s.path ∧
    (pull amount feed s).stream.feed <:+ feed ∧
    s.available ≤ (pull amount feed s).stream.available ∧
    (pull amount feed s).stream.available +
        held s.chunked (pull amount feed s).stream.feed ≤ s.available + held s.chunked feed := by
  intro feed
  induction feed with
  | nil =>
    intro s
    rw [pull]
    split <;> exact ⟨rfl, rfl, List.suffix_rfl, le_refl _, le_refl _⟩
  | cons e feed ih =>
    intro s
    have hrest : feed <:+ e :: feed := List.suffix_cons e feed
    cases e with
    | stop =>
      rw [pull]
      split
      · exact ⟨rfl, rfl, List.suffix_rfl, le_refl _, le_refl _⟩
      · exact ⟨rfl, rfl, hrest, le_refl _, le_refl _⟩
    | failing f =>
      rw [pull]
      split
      · exact ⟨rfl, rfl, List.suffix_rfl, le_refl _, le_refl _⟩
      · exact ⟨rfl, rfl, hrest, le_refl _, le_refl _⟩
    | value v =>
      rw [pull]
      split
      · exact ⟨rfl, rfl, List.suffix_rfl, le_refl _, le_refl _⟩
      · cases hv : contribution s.chunked v with
        | error f =>
          simp only [hv, held]
          exact ⟨rfl, rfl, hrest, le_refl _, le_refl _⟩
        | ok vs =>
          -- the element's items wait from now on, and the feed holds so many fewer
          obtain ⟨hchunked, hpath, hfeed, hmore, htotal⟩ :=
            ih { s.advance feed with items := s.items ++ vs }
          have hsize : (s.items ++ vs).size = s.items.size + vs.length := by
            rw [← Array.length_toList]
            simp
          simp only [held, hv]
          refine ⟨hchunked, hpath, hfeed.trans hrest, le_trans ?_ hmore, le_trans htotal ?_⟩
          · simp only [available, advance, hsize]
            omega
          · simp only [available, advance, hsize]
            push_cast
            omega

/-- Filling keeps what pulling keeps. -/
theorem fill_bounds (s : Stream) (path : Path) (amount : Int) :
    (s.fill path amount).stream.chunked = s.chunked ∧
    (s.fill path amount).stream.path = s.path ∧
    (s.fill path amount).stream.feed <:+ s.feed ∧
    s.available ≤ (s.fill path amount).stream.available ∧
    (s.fill path amount).stream.available +
        held s.chunked (s.fill path amount).stream.feed ≤ s.available + held s.chunked s.feed := by
  rw [fill]
  split
  · exact ⟨rfl, rfl, List.suffix_rfl, le_refl _, le_refl _⟩
  · split
    · exact ⟨rfl, rfl, List.suffix_rfl, le_refl _, le_refl _⟩
    · exact pull_bounds amount s.feed s

/-- Items that do not wait are not dropped. -/
theorem available_consume_of_le {s : Stream} {amount : Int} (h : amount ≤ s.available) :
    (s.consume amount).1.available = s.available - amount := by
  rw [available] at h
  unfold consume trim
  split
  · rename_i hmany
    have hhead : trimThreshold ≤ s.head + amount := hmany.1
    rw [trimThreshold] at hhead
    simp only [available, Array.size_extract]
    omega
  · simp only [available]
    omega

end Stream

namespace Buffer

variable {b : Buffer} {o : Int}

theorem base_fill (b : Buffer) (path : Path) (amount : Int) :
    (b.fill path amount).1.base = b.base := by
  cases b with
  | memory data start => rfl
  | irregular data start => rfl
  | stream s =>
    obtain ⟨hchunked, hpath, -⟩ := s.fill_bounds path amount
    simp only [fill, base, hchunked, hpath]

theorem available_le_fill (b : Buffer) (path : Path) (amount : Int) :
    b.available ≤ (b.fill path amount).1.available := by
  cases b with
  | memory data start => exact le_refl _
  | irregular data start => exact le_refl _
  | stream s =>
    obtain ⟨-, -, -, hmore, -⟩ := s.fill_bounds path amount
    exact hmore

/-- A fill does not make more items than there are. -/
theorem available_add_held_fill_le (b : Buffer) (path : Path) (amount : Int) :
    (b.fill path amount).1.available + (b.fill path amount).1.held ≤ b.available + b.held := by
  cases b with
  | memory data start => exact le_refl _
  | irregular data start => exact le_refl _
  | stream s =>
    obtain ⟨hchunked, -, -, -, htotal⟩ := s.fill_bounds path amount
    simp only [fill, available, held, hchunked]
    exact htotal

/-- Consuming keeps whatever does not depend on which items are held and how many of them are
consumed. -/
theorem apply_consume {α : Type} (f : Buffer → α)
    (hmemory : ∀ data start start', f (memory data start') = f (memory data start))
    (hirregular : ∀ data start start', f (irregular data start') = f (irregular data start))
    (hstream : ∀ (s : Stream) items head,
      f (stream { s with items := items, head := head }) = f (stream s))
    (b : Buffer) (amount : Int) : f (b.consume amount).1 = f b := by
  cases b with
  | memory data start => exact hmemory data start _
  | irregular data start => exact hirregular data start _
  | stream s =>
    simp only [consume, Stream.consume, Stream.trim]
    split
    · exact hstream s _ _
    · exact hstream s s.items _

theorem base_consume (b : Buffer) (amount : Int) : (b.consume amount).1.base = b.base :=
  apply_consume base (fun _ _ _ => rfl) (fun _ _ _ => rfl) (fun _ _ _ => rfl) b amount

theorem held_consume (b : Buffer) (amount : Int) : (b.consume amount).1.held = b.held :=
  apply_consume held (fun _ _ _ => rfl) (fun _ _ _ => rfl) (fun _ _ _ => rfl) b amount

theorem available_consume_of_le (h : o ≤ b.available) :
    (b.consume o).1.available = b.available - o := by
  cases b with
  | memory data start =>
    simp only [consume, available]
    ring
  | irregular data start =>
    simp only [consume, available]
    ring
  | stream s => exact Stream.available_consume_of_le h

/-- The one buffer has become the other: it was made over the same, and its feed has gone on if it
has changed at all. -/
structure Later (b b' : Buffer) : Prop where
  base : b'.base = b.base
  feed : b'.feed <:+ b.feed

theorem Later.refl (b : Buffer) : b.Later b := ⟨rfl, List.suffix_rfl⟩

theorem Later.trans {b' b'' : Buffer} (h : b.Later b') (h' : b'.Later b'') : b.Later b'' :=
  ⟨h'.base.trans h.base, h'.feed.trans h.feed⟩

theorem later_fill (b : Buffer) (path : Path) (amount : Int) :
    b.Later (b.fill path amount).1 := by
  refine ⟨b.base_fill path amount, ?_⟩
  cases b with
  | memory data start => exact List.suffix_rfl
  | irregular data start => exact List.suffix_rfl
  | stream s =>
    obtain ⟨-, -, hfeed, -⟩ := s.fill_bounds path amount
    exact hfeed

theorem later_consume (b : Buffer) (amount : Int) : b.Later (b.consume amount).1 := by
  have hfeed : (b.consume amount).1.feed = b.feed :=
    apply_consume feed (fun _ _ _ => rfl) (fun _ _ _ => rfl) (fun _ _ _ => rfl) b amount
  exact ⟨b.base_consume amount, hfeed ▸ List.suffix_rfl⟩

end Buffer

/-! ## Motion -/

namespace Source

variable {c : Cursor} {s t u : Source}

/-- The position that no cursor can go beyond: behind all items that wait and all that the feed
still holds. -/
def limit (s : Source) : Int := s.position + s.buffer.available + s.buffer.held

/-- From `s` to `u` the cursor `c` has moved on, if it has moved at all, and within the limit of the
input; nothing else has changed but the buffer and younger forks. -/
structure Moved (c : Cursor) (s u : Source) : Prop extends Frame c s u where
  buffer : s.buffer.Later u.buffer
  isClosed : u.isClosed c = s.isClosed c
  position_le : s.positionOf c ≤ u.positionOf c
  limit_le : u.limit ≤ s.limit
  within : s.offset c ≤ s.buffer.available → u.offset c ≤ u.buffer.available

theorem Moved.refl (c : Cursor) (s : Source) : Moved c s s :=
  ⟨Frame.refl c s, .refl _, rfl, le_refl _, le_refl _, fun h => h⟩

theorem Moved.trans (h : Moved c s t) (h' : Moved c t u) : Moved c s u :=
  ⟨h.toFrame.trans h'.toFrame, h.buffer.trans h'.buffer, h'.isClosed.trans h.isClosed,
    le_trans h.position_le h'.position_le, le_trans h'.limit_le h.limit_le,
    fun hs => h'.within (h.within hs)⟩

theorem Moved.withEvents (h : Moved c s u) (events : List Event) :
    Moved c s { u with events := events } :=
  ⟨h.toFrame.withEvents events, h.buffer, h.isClosed, h.position_le, h.limit_le, h.within⟩

theorem Moved.countFailure? (h : Moved c s u) : u.buffer.countFailure? = s.buffer.countFailure? :=
  Buffer.countFailure?_eq_of_base h.buffer.base

/-- A root that has not gone beyond what waits has not done so afterwards. -/
theorem Moved.available_nonneg (h : Moved c s u) (hs : 0 ≤ s.buffer.available) :
    0 ≤ u.buffer.available := by
  cases c with
  | root => exact h.within hs
  | fork id => exact le_trans hs (h.available (by simp))

/-! ### Reading and consuming -/

theorem moved_read (path : Path) (c : Cursor) (amount : Int) (s : Source) :
    Moved c s ((read path c amount).runOn s).2 := by
  cases hc : s.isClosed c with
  | true =>
    rw [runOn_read_of_closed hc]
    exact .refl c s
  | false =>
    have hmore := s.buffer.available_le_fill path (s.offset c + amount)
    have htotal := s.buffer.available_add_held_fill_le path (s.offset c + amount)
    rw [runOn_read hc]
    refine ⟨⟨le_refl _, fun _ _ _ => rfl, fun _ _ => rfl, fun _ => rfl, fun _ => hmore⟩,
      s.buffer.later_fill path _, rfl, le_refl _, ?_, fun h => le_trans h hmore⟩
    simp only [limit]
    omega

theorem le_available_of_consumeFailure? {b : Buffer} {o n : Int}
    (h : consumeFailure? b o n = none) : o + n ≤ b.available := by
  unfold consumeFailure? at h
  split at h
  · cases h
  · split at h
    · cases h
    · omega

/-- What a root has consumed lies behind it, and the limit stays where it is. -/
theorem moved_consumeRoot (n : Nat) (s : Source) : Moved .root s ((consumeRoot n).runOn s).2 := by
  cases h : consumeFailure? s.buffer 0 n with
  | some f =>
    rw [runOn_consumeRoot_of_some h]
    exact .refl _ s
  | none =>
    have hn : (n : Int) ≤ s.buffer.available := by simpa using le_available_of_consumeFailure? h
    have havailable := Buffer.available_consume_of_le hn
    rw [runOn_consumeRoot h]
    refine ⟨⟨le_refl _, fun _ _ _ => rfl, fun _ _ => rfl, fun h => absurd rfl h,
      fun h => absurd rfl h⟩, s.buffer.later_consume n, rfl, ?_, ?_, fun _ => ?_⟩
    · simp only [positionOf, offset]
      omega
    · simp only [limit, havailable, s.buffer.held_consume n]
      omega
    · simp only [offset, havailable]
      omega

theorem moved_consume (c : Cursor) (n : Nat) (s : Source) :
    Moved c s ((consume c n).runOn s).2 := by
  cases c with
  | root => exact moved_consumeRoot n s
  | fork id =>
    cases hc : s.isClosed (.fork id) with
    | true =>
      rw [runOn_consume_of_closed hc]
      exact .refl _ s
    | false =>
      cases h : consumeFailure? s.buffer (s.offset (.fork id)) n with
      | some f =>
        rw [runOn_consume_fork_of_some hc h]
        exact .refl _ s
      | none =>
        have hid := lt_size_of_open hc
        have hn := le_available_of_consumeFailure? h
        rw [runOn_consume_fork hc h]
        refine ⟨(Frame.refl _ s).setFork (.inr rfl) fun _ => rfl, .refl _, ?_, ?_, le_refl _,
          fun _ => ?_⟩
        · simp [isClosed, forkAt_setFork_self hid]
        · simp [positionOf, offset, forkAt_setFork_self hid]
        · simpa [offset, forkAt_setFork_self hid] using hn

/-! ### Inside a fork -/

/-- The source `u` has come of `s` by making a fork of the open cursor `c` and moving it. -/
structure Inside (c : Cursor) (s u : Source) : Prop where
  isOpen : s.isClosed c = false
  moved : Moved (.fork s.forks.size) (s.addFork c) u

theorem Inside.trans (h : Inside c s t) (h' : Moved (.fork s.forks.size) t u) : Inside c s u :=
  ⟨h.isOpen, h.moved.trans h'⟩

theorem Inside.isClosed_fork (h : Inside c s u) : u.isClosed (.fork s.forks.size) = false := by
  rw [h.moved.isClosed]
  simp [isClosed, forkAt_addFork_new]

/-- A new fork stands where its parent stands. -/
theorem positionOf_addFork_new (s : Source) (c : Cursor) :
    (s.addFork c).positionOf (.fork s.forks.size) = s.positionOf c := by
  simp [positionOf, offset, forkAt_addFork_new]

theorem offset_addFork_new (s : Source) (c : Cursor) :
    (s.addFork c).offset (.fork s.forks.size) = s.offset c := by
  simp [offset, forkAt_addFork_new]

/-- A fork goes on from where its parent stands. -/
theorem Inside.position_le (h : Inside c s u) :
    s.positionOf c ≤ u.positionOf (.fork s.forks.size) := by
  rw [← positionOf_addFork_new]
  exact h.moved.position_le

theorem Inside.within_fork (h : Inside c s u) (hs : s.offset c ≤ s.buffer.available) :
    u.offset (.fork s.forks.size) ≤ u.buffer.available :=
  h.moved.within (by rw [offset_addFork_new]; exact hs)

theorem Inside.parent_fork (h : Inside c s u) :
    (u.forkAt s.forks.size).parent = parentOf c := by
  rw [h.moved.parent _ rfl, forkAt_addFork_new]

/-- The parent was there before the fork, so what moves the fork leaves it alone. -/
theorem Inside.forkAt_parent (h : Inside c s u) {id : Nat} (hid : .fork id = c) :
    u.forkAt id = s.forkAt id := by
  have hlt : id < s.forks.size := by
    refine lt_size_of_open ?_
    rw [hid]
    exact h.isOpen
  rw [h.moved.others id (by simp; omega) (by simp; omega), forkAt_addFork_old hlt]

theorem Inside.offset_parent (h : Inside c s u) : u.offset c = s.offset c := by
  cases c with
  | root => rfl
  | fork id => rw [offset, offset, h.forkAt_parent rfl]

/-- Whatever became of a fork, its parent stands where it stood. -/
theorem Inside.positionOf_parent (h : Inside c s u) : u.positionOf c = s.positionOf c := by
  have hposition : u.position = s.position := h.moved.position (by simp)
  rw [positionOf, positionOf, h.offset_parent, hposition]

/-- Whatever became of a fork, its parent has not moved. -/
theorem Inside.parent_moved (h : Inside c s u) : Moved c s u := by
  have hmore : s.buffer.available ≤ u.buffer.available := h.moved.available (by simp)
  refine ⟨h.moved.toFrame.of_fork h.isOpen, h.moved.buffer, ?_, h.positionOf_parent.ge,
    h.moved.limit_le, fun hs => ?_⟩
  · cases c with
    | root => rfl
    | fork id => rw [Source.isClosed, Source.isClosed, h.forkAt_parent rfl]
  · rw [h.offset_parent]
    exact le_trans hs hmore

/-- A change to a younger fork leaves an open cursor as it is. -/
theorem forkAt_setFork_younger (hc : s.isClosed c = false) {id other : Nat}
    (hid : s.forks.size ≤ id) (hother : .fork other = c) (u : Source) (f : Fork → Fork) :
    (u.setFork id f).forkAt other = u.forkAt other := by
  subst hother
  exact forkAt_setFork_ne u (by have := lt_size_of_open hc; omega) f

theorem offset_setFork_younger (hc : s.isClosed c = false) {id : Nat} (hid : s.forks.size ≤ id)
    (u : Source) (f : Fork → Fork) : (u.setFork id f).offset c = u.offset c := by
  cases c with
  | root => rfl
  | fork other => rw [offset, offset, forkAt_setFork_younger hc hid rfl]

/-- A change to a younger fork does not move an open cursor. -/
theorem Moved.setFork (h : Moved c s u) (hc : s.isClosed c = false) {id : Nat}
    (hid : s.forks.size ≤ id) {f : Fork → Fork} (hf : ∀ x, (f x).parent = x.parent) :
    Moved c s (u.setFork id f) := by
  have hoffset := offset_setFork_younger hc hid u f
  refine ⟨h.toFrame.setFork (.inl hid) hf, h.buffer, ?_, ?_, h.limit_le, fun hs => ?_⟩
  · rw [← h.isClosed]
    cases c with
    | root => rfl
    | fork other => rw [Source.isClosed, Source.isClosed, forkAt_setFork_younger hc hid rfl]
  · have hposition := h.position_le
    simp only [positionOf] at hposition ⊢
    rw [hoffset]
    exact hposition
  · rw [hoffset]
    exact h.within hs

theorem Inside.close (h : Inside c s u) :
    ∃ v, (close (.fork s.forks.size)).runOn u = (.ok (), v) ∧ Moved c s v :=
  ⟨_, runOn_close_fork u _, h.parent_moved.setFork h.isOpen (le_refl _) fun _ => rfl⟩

/-- What joining the fork of a cursor has done: it was refused, and the cursor has not moved, or the
cursor stands where the fork stood. -/
structure Joined (c d : Cursor) (s u : Source) (joined : Except Failure Unit × Source) : Prop where
  moved : Moved c s joined.2
  position : joined.1 = .ok () → joined.2.positionOf c = u.positionOf d
  within : joined.1 = .ok () → u.offset d ≤ u.buffer.available →
    joined.2.offset c ≤ joined.2.buffer.available
  succeeds : u.buffer.countFailure? = none → u.offset d ≤ u.buffer.available → joined.1 = .ok ()

theorem Inside.join (h : Inside c s u) :
    Joined c (.fork s.forks.size) s u ((join (.fork s.forks.size)).runOn u) := by
  have hclosed : Moved c s (u.setFork s.forks.size fun f => { f with closed := true }) :=
    h.parent_moved.setFork h.isOpen (le_refl _) fun _ => rfl
  have hposition := h.position_le
  cases c with
  | root =>
    -- the root takes over what the fork consumed, if that waits
    rw [runOn_join_of_root h.isClosed_fork h.parent_fork]
    set w := u.setFork s.forks.size fun f => { f with closed := true } with hw
    cases hc : consumeFailure? w.buffer 0 (u.forkAt s.forks.size).offset with
    | some f =>
      rw [runOn_consumeRoot_of_some hc]
      refine ⟨hclosed, ?_, ?_, fun hcount hwithin => ?_⟩
      · rintro ⟨⟩
      · rintro ⟨⟩
      have hcount' : w.buffer.countFailure? = none := hcount
      have hwithin' : (u.forkAt s.forks.size).offset ≤ w.buffer.available := hwithin
      simp [consumeFailure?, hcount', not_lt.2 hwithin'] at hc
    | none =>
      have hle : (u.forkAt s.forks.size).offset ≤ w.buffer.available := by
        simpa using le_available_of_consumeFailure? hc
      have havailable := Buffer.available_consume_of_le hle
      have hlimit := hclosed.limit_le
      have hsamePosition : w.position = s.position := h.moved.position (by simp)
      rw [runOn_consumeRoot hc]
      refine ⟨⟨⟨hclosed.size, hclosed.others, hclosed.parent, fun h => absurd rfl h,
        fun h => absurd rfl h⟩, hclosed.buffer.trans (w.buffer.later_consume _), rfl, ?_, ?_,
        fun _ => ?_⟩, fun _ => ?_, fun _ _ => ?_, fun _ _ => rfl⟩
      · simpa [positionOf, offset, hw] using hposition
      · simp only [limit, havailable, w.buffer.held_consume] at hlimit ⊢
        omega
      · simp only [offset, havailable]
        omega
      · simp [positionOf, offset, hw]
      · simp only [offset, havailable]
        omega
  | fork id =>
    -- a parent that is a fork takes over the offset, and the buffer stays where it is
    have hopen := h.isOpen
    have hid := lt_size_of_open hopen
    have hne : s.forks.size ≠ id := by omega
    have hopen' : u.isClosed (.fork id) = false := h.parent_moved.isClosed.trans hopen
    have hid' : id < (u.setFork s.forks.size fun f => { f with closed := true }).forks.size := by
      simpa using lt_size_of_open hopen'
    rw [runOn_join_of_fork h.isClosed_fork h.parent_fork hne hopen']
    refine ⟨⟨hclosed.toFrame.setFork (.inr rfl) fun _ => rfl, hclosed.buffer, ?_, ?_, hclosed.limit_le,
      fun hs => ?_⟩, fun _ => ?_, fun _ hs => ?_, fun _ _ => rfl⟩
    · rw [hopen]
      simpa [Source.isClosed, forkAt_setFork_self hid', forkAt_setFork_ne u hne] using hopen'
    · simpa [positionOf, offset, forkAt_setFork_self hid'] using hposition
    · simpa [offset, forkAt_setFork_self hid'] using h.within_fork hs
    · simp [positionOf, offset, forkAt_setFork_self hid']
    · simpa [offset, forkAt_setFork_self hid'] using hs

/-- A parent that is a fork takes over whatever its fork consumed, and stands where it stood. -/
theorem Inside.runOn_join {id : Nat} (h : Inside (.fork id) s u) :
    ((Source.join (.fork s.forks.size)).runOn u).1 = .ok () ∧
      ((Source.join (.fork s.forks.size)).runOn u).2.buffer = u.buffer ∧
      ((Source.join (.fork s.forks.size)).runOn u).2.position = u.position ∧
      ((Source.join (.fork s.forks.size)).runOn u).2.offset (.fork id) = u.offset (.fork s.forks.size) := by
  have hid := lt_size_of_open h.isOpen
  have hopen := h.parent_moved.isClosed.trans h.isOpen
  have hlt : id < (u.setFork s.forks.size fun f => { f with closed := true }).forks.size := by
    simpa using lt_size_of_open hopen
  rw [runOn_join_of_fork h.isClosed_fork h.parent_fork (by omega) hopen]
  refine ⟨rfl, rfl, rfl, ?_⟩
  rw [offset, forkAt_setFork_self hlt, offset]

theorem Inside.join_of_fork {id : Nat} (h : Inside (.fork id) s u) :
    ((Source.join (.fork s.forks.size)).runOn u).1 = .ok () := h.runOn_join.1

/-! ### Motions -/

/-- From `s` a fork of the open cursor `c` was made, and `R` tells what has become of the fork since
then. -/
structure Forked (R : Cursor → Source → Source → Prop) (c : Cursor) (s u : Source) : Prop where
  isOpen : s.isClosed c = false
  moved : R (.fork s.forks.size) (s.addFork c) u

theorem Forked.inside (h : Forked Moved c s u) : Inside c s u := ⟨h.isOpen, h.moved⟩

/-- What is told of a cursor and two sources, and kept by all that is ever done at a cursor: reading,
consuming, and doing such things in a fork of it, which is joined, closed or left alone. -/
class Motion (R : Cursor → Source → Source → Prop) : Prop where
  refl (c : Cursor) (s : Source) : R c s s
  trans {c : Cursor} {s t u : Source} (h : R c s t) (h' : R c t u) : R c s u
  withEvents {c : Cursor} {s u : Source} (h : R c s u) (events : List Event) :
    R c s { u with events := events }
  read (path : Path) (c : Cursor) {amount : Int} (hamount : 0 ≤ amount) (s : Source) :
    R c s ((read path c amount).runOn s).2
  consume (c : Cursor) (n : Nat) (s : Source) : R c s ((consume c n).runOn s).2
  left {c : Cursor} {s u : Source} (h : Forked R c s u) : R c s u
  closed {c : Cursor} {s u : Source} (h : Forked R c s u) :
    R c s ((close (.fork s.forks.size)).runOn u).2
  joined {c : Cursor} {s u : Source} (h : Forked R c s u) :
    R c s ((join (.fork s.forks.size)).runOn u).2

instance : Motion Moved where
  refl := .refl
  trans := .trans
  withEvents := .withEvents
  read path c amount _ s := moved_read path c amount s
  consume := moved_consume
  left h := h.inside.parent_moved
  closed h := by
    obtain ⟨v, hclose, hv⟩ := h.inside.close
    rw [hclose]
    exact hv
  joined h := h.inside.join.moved

end Source

/-! ## Evaluations -/

namespace Evaluation

open Source (Moved Inside Motion Forked)

variable {α β : Type} {c : Cursor}

/-! ### Inversion of runs -/

theorem runFrom_bind_of_ok {x : Evaluation α} {f : α → Evaluation β} {s t : State} {a : α}
    (h : x.runFrom s = (.ok a, t)) : (x >>= f).runFrom s = (f a).runFrom t := by
  rw [runFrom_bind, h]

theorem runFrom_bind_of_error {x : Evaluation α} {f : α → Evaluation β} {s t : State} {e : Halt}
    (h : x.runFrom s = (.error e, t)) : (x >>= f).runFrom s = (.error e, t) := by
  rw [runFrom_bind, h]

theorem of_bind_eq_ok {x : Evaluation α} {f : α → Evaluation β} {s t : State} {b : β}
    (h : (x >>= f).runFrom s = (.ok b, t)) :
    ∃ a u, x.runFrom s = (.ok a, u) ∧ (f a).runFrom u = (.ok b, t) := by
  rw [runFrom_bind] at h
  rcases hx : x.runFrom s with ⟨e | a, u⟩
  · rw [hx] at h
    cases h
  · rw [hx] at h
    exact ⟨a, u, rfl, h⟩

theorem of_bind_eq_error {x : Evaluation α} {f : α → Evaluation β} {s : State} {e : Halt}
    (h : ((x >>= f).runFrom s).1 = .error e) :
    (x.runFrom s).1 = .error e ∨ ∃ a u, x.runFrom s = (.ok a, u) ∧ ((f a).runFrom u).1 = .error e := by
  rw [runFrom_bind] at h
  rcases hx : x.runFrom s with ⟨e' | a, u⟩
  · rw [hx] at h
    cases h
    exact .inl rfl
  · rw [hx] at h
    exact .inr ⟨a, u, rfl, h⟩

theorem of_onFailure_eq_ok {x : Evaluation α} {handle : Failure → Evaluation Unit} {s t : State}
    {a : α} (h : (onFailure x handle).runFrom s = (.ok a, t)) : x.runFrom s = (.ok a, t) := by
  rw [runFrom_onFailure] at h
  rcases hx : x.runFrom s with ⟨(f | _) | b, u⟩
  · rw [hx] at h
    simp only [afterFailure] at h
    split at h
    · cases h
    · cases h
  · rw [hx] at h
    cases h
  · rw [hx] at h
    exact h

theorem of_onSource_eq_ok {op : SourceM α} {s t : State} {a : α}
    (h : (onSource op).runFrom s = (.ok a, t)) :
    (op.runOn s.source).1 = .ok a ∧ t.source = { (op.runOn s.source).2 with events := [] } := by
  rw [runFrom_onSource] at h
  obtain ⟨hresult, rfl⟩ := Prod.mk.inj h
  refine ⟨?_, rfl⟩
  generalize (op.runOn s.source).1 = r at hresult ⊢
  cases r with
  | error e => cases hresult
  | ok b =>
    cases hresult
    rfl

/-! ### Evaluations that keep a motion -/

/-- Wherever the evaluation starts, `R` tells what has become of its cursor. -/
def Keeps (R : Cursor → Source → Source → Prop) (c : Cursor) (x : Evaluation α) : Prop :=
  ∀ s : State, R c s.source (x.runFrom s).2.source

/-- The evaluation moves its cursor, and nothing else that was there. -/
abbrev Moves (c : Cursor) (x : Evaluation α) : Prop := Keeps Moved c x

variable {R : Cursor → Source → Source → Prop} [Motion R]

/-- What was told of a run goes on with what follows it. -/
theorem keeps_bind {x : Evaluation α} {f : α → Evaluation β} {s : Source} {t : State}
    (h : R c s (x.runFrom t).2.source) (hf : ∀ a, Keeps R c (f a)) :
    R c s ((x >>= f).runFrom t).2.source := by
  rw [runFrom_bind]
  rcases hrun : x.runFrom t with ⟨r, u⟩
  rw [hrun] at h
  cases r with
  | error e => exact h
  | ok a => exact Motion.trans h (hf a u)

namespace Keeps

protected theorem pure (a : α) : Keeps R c (pure a) := fun s => Motion.refl c s.source

protected theorem throw (h : Halt) : Keeps R c (throw h : Evaluation α) := fun s => Motion.refl c s.source

protected theorem bind {x : Evaluation α} {f : α → Evaluation β} (hx : Keeps R c x)
    (hf : ∀ a, Keeps R c (f a)) : Keeps R c (x >>= f) :=
  fun s => keeps_bind (hx s) hf

protected theorem map {x : Evaluation α} (f : α → β) (hx : Keeps R c x) : Keeps R c (f <$> x) := by
  rw [map_eq_pure_bind]
  exact hx.bind fun a => .pure (f a)

omit [Motion R] in
protected theorem ite {p : Prop} [Decidable p] {x y : Evaluation α} (hx : Keeps R c x)
    (hy : Keeps R c y) : Keeps R c (if p then x else y) := by
  split
  · exact hx
  · exact hy

theorem of_still {x : Evaluation α} {r : Except Failure α} (h : x.Still r) : Keeps R c x := by
  intro s
  rw [(h s).2]
  exact Motion.refl c s.source

protected theorem note (n : Note) : Keeps R c (note n) := fun s => Motion.refl c s.source

protected theorem positionOf (d : Cursor) : Keeps R c (positionOf d) := fun s => Motion.refl c s.source

theorem of_source {op : SourceM α} (h : ∀ s, R c s (op.runOn s).2) : Keeps R c (onSource op) := by
  intro s
  rw [runFrom_onSource]
  exact Motion.withEvents (h s.source) []

theorem read (path : Path) (c : Cursor) {amount : Int} (hamount : 0 ≤ amount) :
    Keeps R c (onSource (Source.read path c amount)) :=
  .of_source (Motion.read path c hamount)

theorem consume (c : Cursor) (n : Nat) : Keeps R c (onSource (Source.consume c n)) :=
  .of_source (Motion.consume c n)

protected theorem firstValue (vs : List Value) : Keeps R c (firstValue vs) := by
  cases vs with
  | nil => exact .throw _
  | cons v vs => exact .pure v

/-! ### Rules without parts -/

protected theorem item (path : Path) (c : Cursor) (arg : Value) (m : Matcher) :
    Keeps R c (item path c arg m) := by
  refine (Keeps.read path c (by omega)).bind fun items => ?_
  cases items.get? 0 with
  | none => exact .pure _
  | some v =>
    refine (Keeps.of_still (.passes path v arg m)).bind fun passed => ?_
    exact .ite ((Keeps.consume c 1).bind fun _ => .pure _) (.pure _)

protected theorem lookAhead (path : Path) (c : Cursor) (expected : Sequence) :
    ∀ left index : Nat, Keeps R c (lookAhead path c expected index left)
  | 0, _ => .pure true
  | left + 1, index => by
    refine (Keeps.read path c (by omega)).bind fun items => ?_
    cases items.get? index with
    | none => exact .pure false
    | some v =>
      cases expected.get? index with
      | none => exact .pure false
      | some w => exact .ite (Keeps.lookAhead path c expected left (index + 1)) (.pure false)

protected theorem literal (path : Path) (c : Cursor) (content : Value) :
    Keeps R c (literal path c content) := by
  refine (Keeps.of_still (.ofExcept _)).bind fun expected => ?_
  refine (Keeps.lookAhead path c expected _ 0).bind fun found => ?_
  exact .ite ((Keeps.consume c _).bind fun _ => .pure _) (.pure _)

protected theorem start (c : Cursor) : Keeps R c (start c) :=
  (Keeps.positionOf c).bind fun _ => .ite (.pure _) (.pure _)

protected theorem finish (path : Path) (c : Cursor) : Keeps R c (finish path c) :=
  (Keeps.read path c (by omega)).bind fun _ => .pure _

/-! ### Rules at the cursor itself -/

protected theorem sequence {run : Rule → Evaluation Outcome} (h : ∀ r, Keeps R c (run r)) :
    ∀ (rules : List Rule) (values : List Value), Keeps R c (sequence run values rules)
  | [], values => .pure _
  | r :: rs, values => by
    refine (h r).bind fun o => ?_
    cases o with
    | mismatch m => exact .pure _
    | success vs => exact Keeps.sequence h rs (values ++ vs)

protected theorem repetition {body : Evaluation Outcome} (h : Keeps R c body) (min : Int)
    (max : Option Int) : ∀ (fuel : Nat) (count : Int) (reversed : List Value),
    Keeps R c (repetition body min max fuel count reversed)
  | 0, count, reversed => .ite (.pure _) (.throw _)
  | fuel + 1, count, reversed => by
    refine .ite (.pure _) (h.bind fun o => ?_)
    cases o with
    | mismatch m => exact .pure _
    | success vs =>
      exact (Keeps.firstValue vs).bind fun v =>
        Keeps.repetition h min max fuel (count + 1) (v :: reversed)

protected theorem punctuatedRest {pair : Evaluation (Except Mismatch (Value × Value))}
    (h : Keeps R c pair) (min : Int) (max : Option Int) :
    ∀ (fuel : Nat) (count : Int) (elements separators : List Value),
    Keeps R c (punctuatedRest pair min max fuel count elements separators)
  | 0, count, elements, separators => .ite (.pure _) (.throw _)
  | fuel + 1, count, elements, separators => by
    refine .ite (.pure _) (h.bind fun o => ?_)
    cases o with
    | error m => exact .pure _
    | ok values =>
      exact Keeps.punctuatedRest h min max fuel (count + 1) (values.2 :: elements)
        (values.1 :: separators)

protected theorem optional {body : Evaluation Outcome} (h : Keeps R c body) :
    Keeps R c (optional body) := by
  refine h.bind fun o => ?_
  cases o with
  | success vs => exact (Keeps.firstValue vs).bind fun v => .pure _
  | mismatch m => exact .pure _

protected theorem andWithArg {first : Evaluation Outcome} {second : Value → Evaluation Outcome}
    (hf : Keeps R c first) (hs : ∀ v, Keeps R c (second v)) : Keeps R c (andWithArg first second) := by
  refine hf.bind fun o => ?_
  cases o with
  | mismatch m => exact .pure _
  | success vs =>
    refine (Keeps.firstValue vs).bind fun v => (hs v).bind fun o => ?_
    cases o with
    | mismatch m => exact .pure _
    | success ws => exact .pure _

theorem map_rule {body : Evaluation Outcome} (h : Keeps R c body) (path : Path) (conversion : Conversion)
    (fn : Mapper) (extra : List Value) : Keeps R c (Evaluation.map path conversion body fn extra) := by
  refine h.bind fun o => ?_
  cases o with
  | mismatch m => exact .pure _
  | success vs => exact .of_still (.call path conversion fn (vs ++ extra))

protected theorem mapRange {body : Evaluation Outcome} (h : Keeps R c body) (path : Path)
    (fn : Option Mapper) : Keeps R c (mapRange path body c fn) := by
  refine (Keeps.positionOf c).bind fun first => h.bind fun o => ?_
  cases o with
  | mismatch m => exact .pure _
  | success vs =>
    refine (Keeps.positionOf c).bind fun last => ?_
    cases fn with
    | none => exact .pure _
    | some fn => exact .of_still (.call path .total fn _)

protected theorem expected {body : Evaluation Outcome} (h : Keeps R c body) (what : Value) :
    Keeps R c (expected body c what) := by
  refine h.bind fun o => ?_
  cases o with
  | success vs => exact .pure _
  | mismatch m =>
    exact (Keeps.positionOf c).bind fun position => (Keeps.note _).bind fun _ => .throw _

end Keeps

/-! ### Forks -/

theorem runFrom_fork_of_closed {s : State} (h : s.source.isClosed c = true) :
    (onSource (Source.fork c)).runFrom s =
      (.error (.failed Source.forkClosed),
        ⟨{ s.source with events := [] }, s.journal.addEvents s.source.events⟩) := by
  rw [runFrom_onSource, Source.runOn_fork_of_closed h]
  rfl

end Evaluation

namespace Source.Inside

open Evaluation

variable {α β : Type} {c : Cursor} {s : Source} {t : State}

theorem onSource_fork {s : State} (h : s.source.isClosed c = false) :
    ∃ t, (onSource (Source.fork c)).runFrom s = (.ok (.fork s.source.forks.size), t) ∧
      Inside c s.source t.source :=
  ⟨_, by rw [runFrom_onSource, Source.runOn_fork h]; rfl, h, (Moved.refl _ _).withEvents []⟩

theorem of_onSource_fork_eq_ok {s : State} {d : Cursor}
    (h : (onSource (Source.fork c)).runFrom s = (.ok d, t)) :
    d = .fork s.source.forks.size ∧ Inside c s.source t.source := by
  cases hc : s.source.isClosed c with
  | true =>
    rw [runFrom_fork_of_closed hc] at h
    cases h
  | false =>
    obtain ⟨t, hfork, ht⟩ := onSource_fork hc
    rw [hfork] at h
    cases h
    exact ⟨rfl, ht⟩

/-- What moves the fork goes on inside it. -/
theorem run {x : Evaluation α} (h : Inside c s t.source) (hx : Moves (.fork s.forks.size) x) :
    Inside c s (x.runFrom t).2.source :=
  h.trans (hx t)

theorem onSource_join (h : Inside c s t.source) :
    Moved c s ((onSource (Source.join (.fork s.forks.size))).runFrom t).2.source := by
  rw [runFrom_onSource]
  exact h.join.moved.withEvents []

theorem onSource_close (h : Inside c s t.source) :
    ∃ v, (onSource (Source.close (.fork s.forks.size))).runFrom t = (.ok (), v) ∧
      Moved c s v.source := by
  obtain ⟨v, hclose, hmoved⟩ := h.close
  exact ⟨_, by rw [runFrom_onSource, hclose]; rfl, hmoved.withEvents []⟩

end Source.Inside

namespace Evaluation.Keeps

open Source (Motion Forked)

variable {α β : Type} {R : Cursor → Source → Source → Prop} [Motion R] {c : Cursor} {s : Source}
  {t : State}

/-! ### Rules in forks -/

theorem forked (h : Forked R c s t.source) {x : Evaluation α} (hx : Keeps R (.fork s.forks.size) x) :
    Forked R c s (x.runFrom t).2.source :=
  ⟨h.isOpen, Motion.trans h.moved (hx t)⟩

theorem join (h : Forked R c s t.source) :
    R c s ((onSource (Source.join (.fork s.forks.size))).runFrom t).2.source := by
  rw [runFrom_onSource]
  exact Motion.withEvents (Motion.joined h) []

theorem close (h : Forked R c s t.source) :
    ∃ v, (onSource (Source.close (.fork s.forks.size))).runFrom t = (.ok (), v) ∧ R c s v.source :=
  ⟨_, rfl, Motion.withEvents (Motion.closed h) []⟩

/-- Making a fork and then doing something that the cursor keeps to from wherever the fork has got. -/
theorem fork_bind {f : Cursor → Evaluation β}
    (hf : ∀ (s : Source) (t : State), Forked R c s t.source →
      R c s ((f (.fork s.forks.size)).runFrom t).2.source) :
    Keeps R c (onSource (Source.fork c) >>= f) := by
  intro s
  rw [runFrom_bind]
  cases hc : s.source.isClosed c with
  | true =>
    rw [runFrom_fork_of_closed hc]
    exact Motion.withEvents (Motion.refl c s.source) []
  | false =>
    rw [runFrom_onSource, Source.runOn_fork hc]
    exact hf s.source _ ⟨hc, Motion.withEvents (Motion.refl _ _) []⟩

protected theorem choice {run : Cursor → Rule → Evaluation Outcome}
    (h : ∀ c r, Keeps R c (run c r)) : ∀ rules, Keeps R c (choice run c rules)
  | [] => .pure _
  | r :: rs => by
    refine .fork_bind fun s t ht => ?_
    have hu := forked ht (h (.fork s.forks.size) r)
    rw [runFrom_bind, runFrom_onFailure]
    rcases hrun : (run (.fork s.forks.size) r).runFrom t with ⟨o, u⟩
    rw [hrun] at hu
    rcases o with (f | _) | (vs | m)
    · -- a hard failure takes the cursor along; any other leaves the fork where it is
      simp only [afterFailure]
      by_cases hard : f.isHard = true
      · simp only [hard, if_true]
        have hnoted := keeps_bind (join hu) fun _ => Keeps.note (.alternativeFailed r f)
        generalize (onSource (Source.join (.fork s.forks.size)) >>= fun _ =>
          note (.alternativeFailed r f)).runFrom u = ended at hnoted ⊢
        rcases ended with ⟨_ | _, v⟩
        · exact hnoted
        · exact hnoted
      · simp only [hard]
        exact Motion.left hu
    · exact Motion.left hu
    · exact keeps_bind (join hu) fun _ => .pure _
    · obtain ⟨v, hclose, hmoved⟩ := close hu
      simp only [afterFailure, runFrom_bind, hclose]
      exact Motion.trans hmoved (Keeps.choice h rs v)

protected theorem separated {element separator : Cursor → Evaluation Outcome}
    (he : ∀ c, Keeps R c (element c)) (hs : ∀ c, Keeps R c (separator c)) :
    Keeps R c (separated element separator c) := by
  refine .fork_bind fun s t ht => ?_
  have hu := forked ht (hs (.fork s.forks.size))
  rw [runFrom_bind]
  rcases hrun : (separator (.fork s.forks.size)).runFrom t with ⟨o, u⟩
  rw [hrun] at hu
  rcases o with e | (ss | m)
  · exact Motion.left hu
  · have hw := forked hu (he (.fork s.forks.size))
    simp only [runFrom_bind]
    rcases hrun' : (element (.fork s.forks.size)).runFrom u with ⟨o, w⟩
    rw [hrun'] at hw
    rcases o with e | (es | m)
    · exact Motion.left hw
    · exact keeps_bind (join hw) fun _ => (Keeps.firstValue ss).bind fun x =>
        (Keeps.firstValue es).bind fun y => .pure _
    · obtain ⟨v, hclose, hmoved⟩ := close hw
      simp only [runFrom_bind, hclose]
      exact hmoved
  · obtain ⟨v, hclose, hmoved⟩ := close hu
    simp only [runFrom_bind, hclose]
    exact hmoved

protected theorem punctuated {element separator : Cursor → Evaluation Outcome}
    (he : ∀ c, Keeps R c (element c)) (hs : ∀ c, Keeps R c (separator c)) (min : Int)
    (max : Option Int) (fuel : Nat) : Keeps R c (punctuated element separator c min max fuel) := by
  refine (he c).bind fun o => ?_
  cases o with
  | mismatch m => exact .pure _
  | success es =>
    exact (Keeps.firstValue es).bind fun e =>
      Keeps.punctuatedRest (.separated he hs) min max fuel 1 [e] []

protected theorem peek {run : Cursor → Evaluation Outcome} (h : ∀ c, Keeps R c (run c)) :
    Keeps R c (peek run c) := by
  refine .fork_bind fun s t ht => ?_
  have hu := forked ht (h (.fork s.forks.size))
  rw [runFrom_bind, runFrom_onFailure]
  rcases hrun : (run (.fork s.forks.size)).runFrom t with ⟨o, u⟩
  rw [hrun] at hu
  obtain ⟨v, hclose, hmoved⟩ := close hu
  rcases o with (f | _) | outcome
  · simp only [afterFailure, hclose]
    exact hmoved
  · exact Motion.left hu
  · simp only [afterFailure, runFrom_bind, hclose]
    exact hmoved

end Evaluation.Keeps

open Source (Motion) in
/-- What all that is done at a cursor keeps, evaluating a rule keeps. -/
theorem Evaluation.eval_keeps (R : Cursor → Source → Source → Prop) [Motion R] (g : Grammar)
    (path : Path) : ∀ (fuel : Nat) (rule : Rule) (c : Cursor) (arg : Value),
    Keeps R c (eval g path fuel rule c arg)
  | 0, rule, c, arg => .throw _
  | fuel + 1, rule, c, arg => by
    have ih := fun r c v => eval_keeps R g path fuel r c v
    cases rule with
    | item m => exact .item path c arg m
    | literal content => exact .literal path c content
    | start => exact .start c
    | finish => exact .finish path c
    | noOp => exact .pure _
    | never n => exact .pure _
    | reference target n =>
      rw [eval]
      cases target.bind g.rule? with
      | none => exact .throw _
      | some r => exact ih r c arg
    | and rules => exact .sequence (fun r => ih r c arg) rules []
    | or rules => exact .choice (fun c r => ih r c arg) rules
    | repetition r min max => exact .repetition (ih r c arg) min max fuel 0 []
    | optional r => exact .optional (ih r c arg)
    | punctuated element separator min max =>
      exact .punctuated (fun c => ih element c arg) (fun c => ih separator c arg) min max fuel
    | andWithArg first second => exact .andWithArg (ih first c arg) fun v => ih second c v
    | map conversion r fn withArg => exact .map_rule (ih r c arg) path conversion fn _
    | mapRange r fn => exact .mapRange (ih r c arg) path fn
    | discard r => exact (ih r c arg).map _
    | expected r what => exact .expected (ih r c arg) what
    | name r label => exact (ih r c arg).map _
    | peek r => exact .peek fun c => ih r c arg
    | wrapper r => exact ih r c arg
    | abstract => exact .throw _

/-- Evaluating a rule moves its cursor on, if it moves it at all, and leaves alone whatever else was
there. -/
theorem Evaluation.eval_moves (g : Grammar) (path : Path) (fuel : Nat) (rule : Rule) (c : Cursor)
    (arg : Value) : Moves c (eval g path fuel rule c arg) :=
  eval_keeps Source.Moved g path fuel rule c arg

end Backtrack
