/-
Where the input of a source ends: behind the items that were consumed, those that wait, and those
that the feed brings before it signals its end. No operation changes it, whatever the cursor and the
amount, since an item that leaves one of these places turns up in another. A cursor that stands
within the input therefore stays within it, and where a fork cannot be joined, it has consumed
nothing.
-/
import Backtrack.Proofs.Motion
import Backtrack.Proofs.Streaming
namespace Backtrack

open Source (Moved Inside)

/-! ## Items to come -/

/-- How many items a feed brings before it signals its end. -/
def Stream.brought (chunked : Bool) : List Element → Nat
  | [] | .stop :: _ => 0
  | .failing _ :: rest => brought chunked rest
  | .value v :: rest =>
    match contribution chunked v with
    | .ok vs => vs.length + brought chunked rest
    | .error _ => brought chunked rest

/-- How many items a stream has still to get. -/
def Stream.coming (s : Stream) : Nat := if s.ended then 0 else brought s.chunked s.feed

/-- How many items a buffer has still to get. -/
def Buffer.coming : Buffer → Nat
  | stream s => s.coming
  | memory .. | irregular .. => 0

namespace Stream

/-- An element that is pulled makes as many items wait as it brings. -/
theorem available_add_coming_pull (amount : Int) : ∀ (feed : List Element) (s : Stream),
    s.ended = false → (pull amount feed s).stream.available + (pull amount feed s).stream.coming =
      s.available + brought s.chunked feed := by
  intro feed
  induction feed with
  | nil =>
    intro s hs
    rw [pull]
    split
    · simp [coming, hs, available]
    · simp [finish, coming, brought, available]
  | cons e feed ih =>
    intro s hs
    cases e with
    | stop =>
      rw [pull]
      split
      · simp [coming, hs, available]
      · simp [finish, coming, brought, available, advance]
    | failing f =>
      rw [pull]
      split
      · simp [coming, hs, available]
      · simp [coming, brought, available, advance, hs]
    | value v =>
      rw [pull]
      split
      · simp [coming, hs, available]
      · cases hv : contribution s.chunked v with
        | error f => simp [coming, brought, available, advance, hs, hv]
        | ok vs =>
          -- the element's items wait from now on, and are no longer to come
          have hsize : (s.items ++ vs).size = s.items.size + vs.length := by
            rw [← Array.length_toList]
            simp
          simp only [hv, brought]
          refine (ih { s.advance feed with items := s.items ++ vs } hs).trans ?_
          simp only [available, advance, hsize]
          push_cast
          omega

theorem available_add_coming_fill (s : Stream) (path : Path) (amount : Int) :
    (s.fill path amount).stream.available + (s.fill path amount).stream.coming =
      s.available + s.coming := by
  rw [fill]
  split
  · rfl
  · cases hs : s.ended with
    | true => rfl
    | false =>
      simp only [Bool.false_eq_true, if_false]
      rw [available_add_coming_pull amount s.feed s hs, coming, if_neg (by simp [hs])]

end Stream

namespace Buffer

theorem available_add_coming_fill (b : Buffer) (path : Path) (amount : Int) :
    (b.fill path amount).1.available + (b.fill path amount).1.coming = b.available + b.coming := by
  cases b with
  | memory data start => rfl
  | irregular data start => rfl
  | stream s => exact s.available_add_coming_fill path amount

theorem coming_consume (b : Buffer) (amount : Int) : (b.consume amount).1.coming = b.coming :=
  apply_consume coming (fun _ _ _ => rfl) (fun _ _ _ => rfl) (fun _ _ _ => rfl) b amount

end Buffer

/-! ## The end of the input -/

namespace Source

variable {c : Cursor} {s t u : Source}

/-- The position behind the last item of the input. -/
def extent (s : Source) : Int := s.position + s.buffer.available + s.buffer.coming

/-! ### Operations keep it -/

theorem extent_setFork (s : Source) (id : Nat) (f : Fork → Fork) :
    (s.setFork id f).extent = s.extent := rfl

theorem extent_addFork (s : Source) (c : Cursor) : (s.addFork c).extent = s.extent := rfl

theorem extent_read (path : Path) (c : Cursor) (amount : Int) (s : Source) :
    ((read path c amount).runOn s).2.extent = s.extent := by
  cases hc : s.isClosed c with
  | true => rw [runOn_read_of_closed hc]
  | false =>
    have htotal := s.buffer.available_add_coming_fill path (s.offset c + amount)
    rw [runOn_read hc]
    simp only [extent]
    omega

theorem extent_consumeRoot (amount : Int) (s : Source) :
    ((consumeRoot amount).runOn s).2.extent = s.extent := by
  cases h : consumeFailure? s.buffer 0 amount with
  | some f => rw [runOn_consumeRoot_of_some h]
  | none =>
    have hle : amount ≤ s.buffer.available := by simpa using le_available_of_consumeFailure? h
    rw [runOn_consumeRoot h]
    simp only [extent, Buffer.available_consume_of_le hle, s.buffer.coming_consume]
    omega

theorem extent_consume (c : Cursor) (amount : Int) (s : Source) :
    ((consume c amount).runOn s).2.extent = s.extent := by
  cases c with
  | root => exact extent_consumeRoot amount s
  | fork id =>
    cases hc : s.isClosed (.fork id) with
    | true => rw [runOn_consume_of_closed hc]
    | false =>
      cases h : consumeFailure? s.buffer (s.offset (.fork id)) amount with
      | some f => rw [runOn_consume_fork_of_some hc h]
      | none => rw [runOn_consume_fork hc h, extent_setFork]

theorem extent_join (c : Cursor) (s : Source) : ((join c).runOn s).2.extent = s.extent := by
  cases c with
  | root => rfl
  | fork id =>
    rw [runOn_join_fork]
    split
    · rfl
    · split
      · rw [extent_consumeRoot, extent_setFork]
      · split
        · exact extent_setFork s id _
        · rw [extent_setFork, extent_setFork]

theorem extent_close (c : Cursor) (s : Source) : ((close c).runOn s).2.extent = s.extent := by
  cases c with
  | root => rfl
  | fork id => rw [runOn_close_fork, extent_setFork]

/-! ## Cursors within the input -/

theorem position_le_extent (h : s.offset c ≤ s.buffer.available) : s.positionOf c ≤ s.extent := by
  simp only [positionOf, extent]
  omega

/-- From `s` to `u` the cursor `c` has moved and stayed within the input if it was there, and it can
hand over what it has consumed, if that is anything at all. -/
structure Confined (c : Cursor) (s u : Source) : Prop extends Moved c s u where
  extent : u.extent = s.extent
  confined : s.positionOf c ≤ s.extent → u.positionOf c ≤ s.extent
  joinable : u.positionOf c = s.positionOf c ∨
    u.buffer.countFailure? = none ∧ u.offset c ≤ u.buffer.available

namespace Confined

protected theorem refl (c : Cursor) (s : Source) : Confined c s s :=
  ⟨.refl c s, rfl, id, .inl rfl⟩

protected theorem trans (h : Confined c s t) (h' : Confined c t u) : Confined c s u := by
  refine ⟨h.toMoved.trans h'.toMoved, h'.extent.trans h.extent, fun hs => ?_, ?_⟩
  · rw [← h.extent]
    exact h'.confined (by rw [h.extent]; exact h.confined hs)
  · -- the later motion decides, unless it is none
    rcases h'.joinable with hsame | hu
    · rcases h.joinable with hsame' | ⟨hcount, hwithin⟩
      · exact .inl (hsame.trans hsame')
      · exact .inr ⟨h'.countFailure?.trans hcount, h'.within hwithin⟩
    · exact .inr hu

/-- A cursor that has not moved at all is confined to where it is. -/
theorem of_position_eq (h : Moved c s u) (hextent : u.extent = s.extent)
    (hposition : u.positionOf c = s.positionOf c) : Confined c s u :=
  ⟨h, hextent, fun hs => hposition.trans_le hs, .inl hposition⟩

/-- A cursor behind which enough waits has stayed within the input. -/
theorem of_joinable (h : Moved c s u) (hextent : u.extent = s.extent)
    (hcount : u.buffer.countFailure? = none) (hwithin : u.offset c ≤ u.buffer.available) :
    Confined c s u :=
  ⟨h, hextent, fun _ => hextent ▸ position_le_extent hwithin, .inr ⟨hcount, hwithin⟩⟩

end Confined

theorem countFailure?_of_consumeFailure? {b : Buffer} {o n : Int}
    (h : consumeFailure? b o n = none) : b.countFailure? = none := by
  unfold consumeFailure? at h
  split at h
  · cases h
  · assumption

theorem confined_consume (c : Cursor) (n : Nat) (s : Source) :
    Confined c s ((consume c n).runOn s).2 := by
  have hmoved := moved_consume c n s
  have hextent := extent_consume c n s
  cases c with
  | root =>
    rw [show Source.consume .root (n : Int) = consumeRoot n from rfl] at hmoved hextent ⊢
    cases h : consumeFailure? s.buffer 0 n with
    | some f =>
      rw [runOn_consumeRoot_of_some h]
      exact .refl _ s
    | none =>
      have hcount := countFailure?_of_consumeFailure? h
      have hle : (n : Int) ≤ s.buffer.available := by
        simpa using le_available_of_consumeFailure? h
      refine .of_joinable hmoved hextent (hmoved.countFailure?.trans hcount) ?_
      rw [runOn_consumeRoot h]
      simp only [offset, Buffer.available_consume_of_le hle]
      omega
  | fork id =>
    cases hc : s.isClosed (.fork id) with
    | true =>
      rw [runOn_consume_of_closed hc]
      exact .refl _ s
    | false =>
      cases h : consumeFailure? s.buffer (s.offset (.fork id)) n with
      | some f =>
        rw [runOn_consume_fork_of_some hc h]
        exact .refl _ s
      | none =>
        have hcount := countFailure?_of_consumeFailure? h
        have hle := le_available_of_consumeFailure? h
        refine .of_joinable hmoved hextent (hmoved.countFailure?.trans hcount) ?_
        rw [runOn_consume_fork hc h]
        simpa [offset, forkAt_setFork_self (lt_size_of_open hc)] using hle

/-! ### Forks and their parents -/

/-- A root that does not move on is left as it is. -/
theorem consumeRoot_of_error {amount : Int} {f : Failure}
    (h : ((consumeRoot amount).runOn s).1 = .error f) : ((consumeRoot amount).runOn s).2 = s := by
  cases hc : consumeFailure? s.buffer 0 amount with
  | some f' => rw [runOn_consumeRoot_of_some hc]
  | none =>
    rw [runOn_consumeRoot hc] at h
    cases h

/-- Only the root may be unable to take over what a fork consumed, and then it stays where it is. -/
theorem Inside.of_join_eq_error (h : Inside c s u) {f : Failure}
    (hjoin : ((Source.join (.fork s.forks.size)).runOn u).1 = .error f) :
    c = .root ∧ ((Source.join (.fork s.forks.size)).runOn u).2.positionOf c = s.positionOf c := by
  cases c with
  | root =>
    rw [runOn_join_of_root h.isClosed_fork h.parent_fork] at hjoin ⊢
    rw [consumeRoot_of_error hjoin]
    exact ⟨rfl, h.positionOf_parent⟩
  | fork id =>
    rw [h.join_of_fork] at hjoin
    cases hjoin

theorem Forked.moves (h : Forked Confined c s u) : Forked Moved c s u := ⟨h.isOpen, h.moved.toMoved⟩

theorem Forked.toInside (h : Forked Confined c s u) : Inside c s u := h.moves.inside

/-- Whether the join of a fork succeeds or not, the parent stands where the fork stood afterwards:
if it fails, the fork had consumed nothing. -/
theorem Forked.positionOf_join (h : Forked Confined c s u) :
    ((Source.join (.fork s.forks.size)).runOn u).2.positionOf c = u.positionOf (.fork s.forks.size) := by
  cases hjoin : ((Source.join (.fork s.forks.size)).runOn u).1 with
  | ok _ => exact h.toInside.join.position hjoin
  | error f =>
    rw [(h.toInside.of_join_eq_error hjoin).2]
    rcases h.moved.joinable with hsame | ⟨hcount, hwithin⟩
    · rw [hsame, positionOf_addFork_new]
    · rw [h.toInside.join.succeeds hcount hwithin] at hjoin
      cases hjoin

/-- Closing a fork leaves its parent where it stood. -/
theorem Inside.positionOf_close (h : Inside c s u) :
    ((Source.close (.fork s.forks.size)).runOn u).2.positionOf c = s.positionOf c := by
  rw [runOn_close_fork, positionOf, offset_setFork_younger h.isOpen (le_refl _), ← h.positionOf_parent]
  rfl

/-- A fork of a cursor within the input stays within it too. -/
theorem Forked.positionOf_le_extent (h : Forked Confined c s u) (hs : s.positionOf c ≤ s.extent) :
    u.positionOf (.fork s.forks.size) ≤ s.extent :=
  h.moved.confined (by rwa [positionOf_addFork_new])

instance : Motion Confined where
  refl := .refl
  trans := .trans
  withEvents h events := ⟨h.toMoved.withEvents events, h.extent, h.confined, h.joinable⟩
  read path c amount _ s := by
    refine .of_position_eq (moved_read path c amount s) (extent_read path c amount s) ?_
    cases hc : s.isClosed c with
    | true => rw [runOn_read_of_closed hc]
    | false =>
      rw [runOn_read hc]
      rfl
  consume := confined_consume
  left h := .of_position_eq (Motion.left h.moves) h.moved.extent h.toInside.positionOf_parent
  closed h := .of_position_eq (Motion.closed h.moves) ((extent_close _ _).trans h.moved.extent)
    h.toInside.positionOf_close
  joined {c s u} h := by
    have hposition := h.positionOf_join
    refine ⟨Motion.joined h.moves, (extent_join _ _).trans h.moved.extent, fun hs => ?_, ?_⟩
    · rw [hposition]
      exact h.positionOf_le_extent hs
    · rw [hposition]
      rcases h.moved.joinable with hsame | ⟨hcount, hwithin⟩
      · exact .inl (hsame.trans (positionOf_addFork_new s c))
      · have hjoin := h.toInside.join
        have hok := hjoin.succeeds hcount hwithin
        exact .inr ⟨hjoin.moved.countFailure?.trans
          (h.toInside.parent_moved.countFailure?.symm.trans hcount), hjoin.within hok hwithin⟩

end Source
end Backtrack
