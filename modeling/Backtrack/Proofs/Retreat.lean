/-
Cursors that are taken back. A cursor refuses to be taken past more than waits, but not past less than
nothing: an amount below zero takes it back, and a fork that was taken back takes its parent back with
it when it is joined. Nothing else takes the root back. However far it is taken back or on, where it
stands and what waits are together as many items as its buffer has been given, so that it never stands
behind all of them.
-/
import Backtrack.Proofs.Beside
namespace Backtrack

/-! ## Operations with any amount -/

/-- What is done at a cursor, with whatever amount, be it below zero. -/
inductive Operation where
  | read (path : Path) (c : Cursor) (amount : Int)
  | consume (c : Cursor) (amount : Int)
  | fork (c : Cursor)
  | join (c : Cursor)
  | close (c : Cursor)

/-- Does it. The root has nothing to be closed. -/
def Operation.run : Operation → SourceM Unit
  | read path c amount => do
    let _ ← Source.read path c amount
  | consume c amount => Source.consume c amount
  | fork c => do
    let _ ← Source.fork c
  | join c => Source.join c
  | close .root => throw (Source.onlyForks "close")
  | close (.fork id) => Source.close (.fork id)

/-! ## What buffers are given -/

/-- The items that an element gives to a stream that takes it. -/
def Element.gives (chunked : Bool) : Element → List Value
  | .value v => Stream.heldItemsOf chunked v
  | .failing _ | .stop => []

/-- How many items a buffer has been given, the feed of which was `script` once: those of the sequence
that it holds, or those of the elements that it has taken. -/
def Buffer.given (script : List Element) : Buffer → Int
  | memory data _ => data.size
  | irregular data _ => data.length?.getD 0
  | stream s => ((script.take s.pulled).flatMap (Element.gives s.chunked)).length

/-- What the root at `position` has passed and what waits are what the buffer has been given, by the
elements of the feed that it has taken. -/
structure Buffer.Accounts (script : List Element) (position : Int) (b : Buffer) : Prop where
  available_nonneg : 0 ≤ b.available
  feed_eq : b.feed = script.drop (b.pulled?.getD 0)
  total : position + b.available = b.given script

namespace Buffer.Accounts

variable {script : List Element} {position n : Int} {b b' : Buffer}

/-- With one more element taken the buffer has been given what that element gives. -/
theorem advanced {s u : Stream} {e : Element} {rest : List Element}
    (h : (stream s).Accounts script position) (hfeed : s.feed = e :: rest) (hrest : u.feed = rest)
    (hpulled : u.pulled = s.pulled + 1) (hchunked : u.chunked = s.chunked)
    (havailable : u.available = s.available + (e.gives s.chunked).length) :
    (stream u).Accounts script position := by
  obtain ⟨hnonneg, hdrop, htotal⟩ := h
  simp only [Buffer.available, Buffer.feed, Buffer.pulled?, Option.getD_some, given] at hnonneg hdrop htotal
  -- the element that comes next is the next one of the script
  have htake : script.take (s.pulled + 1) = script.take s.pulled ++ [e] := by
    rw [List.take_add, ← hdrop, hfeed]
    rfl
  refine ⟨?_, ?_, ?_⟩
  · simp only [Buffer.available]
    omega
  · simp only [Buffer.feed, Buffer.pulled?, Option.getD_some, hrest, hpulled]
    rw [← List.tail_drop, ← hdrop, hfeed, List.tail_cons]
  · simp only [Buffer.available, given, hpulled, hchunked, htake, List.flatMap_append, List.length_append,
      List.flatMap_singleton]
    omega

/-- An element that is taken is no longer to come, and what it gives waits. -/
theorem taken (h : b.Accounts script position) : b.taken.Accounts script position := by
  cases b with
  | memory data start => exact h
  | irregular data start => exact h
  | stream s =>
    rw [Buffer.taken, Stream.taken]
    split
    · exact h
    · split
      · exact ⟨h.available_nonneg, h.feed_eq, h.total⟩
      · rename_i rest hfeed
        exact h.advanced hfeed rfl rfl rfl (by simp [Stream.available, Stream.advance, Element.gives])
      · rename_i f rest hfeed
        exact h.advanced hfeed rfl rfl rfl (by simp [Stream.available, Stream.advance, Element.gives])
      · rename_i v rest hfeed
        -- a value that cannot be gone through is taken as well, but gives nothing
        rcases Stream.contribution_cases s.chunked v with hv | ⟨hnone, e, hv, -⟩
        · simp only [hv]
          refine h.advanced hfeed rfl rfl rfl ?_
          simp only [Stream.available, Stream.advance, Element.gives, ← Array.length_toList,
            Array.toList_appendList, List.length_append]
          omega
        · simp only [hv]
          exact h.advanced hfeed rfl rfl rfl
            (by simp [Stream.available, Stream.advance, Element.gives, hnone])

theorem reaches (h : b.Accounts script position) (hb : b.Reaches b') : b'.Accounts script position := by
  obtain ⟨n, rfl⟩ := hb
  induction n with
  | zero => exact h
  | succ n ih =>
    rw [Function.iterate_succ_apply']
    exact ih.taken

theorem consume (h : b.Accounts script position) (hn : n ≤ b.available) :
    (b.consume n).1.Accounts script (position + n) := by
  have havailable := Buffer.available_consume_of_le hn
  have hfeed : (b.consume n).1.feed = b.feed :=
    apply_consume feed (fun _ _ _ => rfl) (fun _ _ _ => rfl) (fun _ _ _ => rfl) b n
  have hgiven : (b.consume n).1.given script = b.given script :=
    apply_consume (given script) (fun _ _ _ => rfl) (fun _ _ _ => rfl) (fun _ _ _ => rfl) b n
  have htotal := h.total
  refine ⟨by omega, ?_, by omega⟩
  rw [hfeed, Buffer.pulled?_consume]
  exact h.feed_eq

end Buffer.Accounts

namespace Source

variable {made s u : Source} {o : Operation} {n : Int}

theorem New.accounts (h : made.New) : made.buffer.Accounts made.buffer.feed made.position := by
  cases h with
  | ofData v =>
    rw [show (Source.ofData v).position = 0 from rfl, show (Source.ofData v).buffer = .ofValue v from rfl,
      Buffer.ofValue]
    split
    · split
      · exact ⟨by simp [Buffer.available], rfl, by simp [Buffer.available, Buffer.given]⟩
      · exact ⟨by simp [Buffer.available], rfl, by simp [Buffer.available, Buffer.given]⟩
    · exact ⟨by simp [Buffer.available], rfl, by simp [Buffer.available, Buffer.given]⟩
  | ofFeed feed chunked path => exact ⟨le_refl _, rfl, rfl⟩

/-! ## What operations do to the root -/

/-- What an operation takes the root past, if it is accepted: the root consumes it, or takes it over
from a fork. -/
inductive Takes (s : Source) : Operation → Int → Prop
  | consume (n : Int) : Takes s (.consume .root n) n
  | join (id : Nat) (hparent : s.parentAt id = .root) : Takes s (.join (.fork id)) (s.offset (.fork id))

/-- The source after an operation, whether it was accepted or not. -/
def did (s : Source) (o : Operation) : Source := (o.run.runOn s).2

/-- The source after some operations. -/
def didAll (s : Source) (ops : List Operation) : Source := ops.foldl did s

/-- The operation does not raise. -/
def Accepts (s : Source) (o : Operation) : Prop := (o.run.runOn s).1 = .ok ()

theorem taken_consumeRoot {n : Int} (h : ((consumeRoot n).runOn s).1 = .ok ()) :
    n ≤ s.buffer.available ∧ ((consumeRoot n).runOn s).2.buffer = (s.buffer.consume n).1 ∧
      ((consumeRoot n).runOn s).2.position = s.position + n := by
  rw [fst_runOn_consumeRoot] at h
  cases hfailure : consumeFailure? s.buffer 0 n with
  | some e => simp [hfailure] at h
  | none =>
    rw [runOn_consumeRoot hfailure]
    exact ⟨by simpa using le_available_of_consumeFailure? hfailure, rfl, rfl⟩

/-- What is accepted takes the root past items that wait, or back. -/
theorem Takes.taken (h : s.Takes o n) (hok : s.Accepts o) :
    n ≤ s.buffer.available ∧ (s.did o).buffer = (s.buffer.consume n).1 ∧
      (s.did o).position = s.position + n := by
  cases h with
  | consume n => exact taken_consumeRoot hok
  | join id hparent =>
    rw [Accepts, Operation.run, runOn_join_fork] at hok
    rw [did, Operation.run, runOn_join_fork]
    split at hok
    · cases hok
    · rename_i hopen
      rw [if_neg hopen, parent_of_parentAt_root hparent] at *
      exact taken_consumeRoot hok

theorem kept_consumeRoot {n : Int} (h : ((consumeRoot n).runOn s).1 ≠ .ok ()) :
    ((consumeRoot n).runOn s).2 = s := by
  rw [fst_runOn_consumeRoot] at h
  cases hfailure : consumeFailure? s.buffer 0 n with
  | some e => rw [runOn_consumeRoot_of_some hfailure]
  | none => simp [hfailure] at h

theorem position_consume_fork (id : Nat) (n : Int) (s : Source) :
    ((consume (.fork id) n).runOn s).2.position = s.position := by
  cases hc : s.isClosed (.fork id) with
  | true => rw [runOn_consume_of_closed hc]
  | false =>
    cases h : consumeFailure? s.buffer (s.offset (.fork id)) n with
    | some e => rw [runOn_consume_fork_of_some hc h]
    | none => rw [runOn_consume_fork hc h, position_setFork]

/-- All else leaves the root where it is. -/
theorem kept_of_not_takes (h : ∀ n, s.Takes o n → ¬ s.Accepts o) :
    s.buffer.Reaches (s.did o).buffer ∧ (s.did o).position = s.position := by
  cases o with
  | read path c amount =>
    rw [did, Operation.run, snd_runOn_bind_pure (read path c amount) (fun _ => ())]
    exact ⟨reaches_read path c amount s, position_read path c amount s⟩
  | consume c n =>
    rw [did, Operation.run]
    cases c with
    | root =>
      have hkept : ((Source.consume .root n).runOn s).2 = s := kept_consumeRoot (h n (.consume n))
      rw [hkept]
      exact ⟨.refl _, rfl⟩
    | fork id =>
      rw [buffer_consume_fork]
      exact ⟨.refl _, position_consume_fork id n s⟩
  | fork c =>
    rw [did, Operation.run, snd_runOn_bind_pure (fork c) (fun _ => ())]
    cases hc : s.isClosed c with
    | true =>
      rw [runOn_fork_of_closed hc]
      exact ⟨.refl _, rfl⟩
    | false =>
      rw [runOn_fork hc]
      exact ⟨.refl _, rfl⟩
  | join c =>
    cases c with
    | root => exact ⟨.refl _, rfl⟩
    | fork id =>
      rw [did, Operation.run, runOn_join_fork]
      split
      · exact ⟨.refl _, rfl⟩
      · rename_i hopen
        split
        · rename_i hparent
          -- the root would take the fork over, so it has refused to
          have hrefused := h _ (.join id (by rw [parentAt, hparent, Option.elim]))
          rw [Accepts, Operation.run, runOn_join_fork, if_neg hopen] at hrefused
          simp only [hparent] at hrefused
          rw [kept_consumeRoot hrefused]
          exact ⟨.refl _, rfl⟩
        · split
          · exact ⟨.refl _, rfl⟩
          · exact ⟨.refl _, rfl⟩
  | close c =>
    cases c with
    | root => exact ⟨.refl _, rfl⟩
    | fork id =>
      rw [did, Operation.run, runOn_close_fork]
      exact ⟨.refl _, rfl⟩

/-- An operation takes the root past what it consumes or takes over, or leaves it where it is. -/
theorem did_cases (s : Source) (o : Operation) :
    (∃ n, s.Takes o n ∧ s.Accepts o) ∨
      s.buffer.Reaches (s.did o).buffer ∧ (s.did o).position = s.position := by
  by_cases h : ∃ n, s.Takes o n ∧ s.Accepts o
  · exact .inl h
  · exact .inr (kept_of_not_takes fun n htakes hok => h ⟨n, htakes, hok⟩)

theorem accounts_did {script : List Element} (h : s.buffer.Accounts script s.position) (o : Operation) :
    (s.did o).buffer.Accounts script (s.did o).position := by
  rcases did_cases s o with ⟨n, htakes, hok⟩ | ⟨hreaches, hposition⟩
  · obtain ⟨hle, hbuffer, hposition⟩ := htakes.taken hok
    rw [hbuffer, hposition]
    exact h.consume hle
  · rw [hposition]
    exact h.reaches hreaches

theorem accounts_didAll {script : List Element} (ops : List Operation) : ∀ {s : Source},
    s.buffer.Accounts script s.position →
      (s.didAll ops).buffer.Accounts script (s.didAll ops).position := by
  induction ops with
  | nil => exact fun h => h
  | cons o ops ih => exact fun h => ih (accounts_did h o)

/-! ## Going on -/

/-- No amount below zero is consumed, wherever that would be accepted. -/
def Onward (s : Source) (o : Operation) : Prop := s.Accepts o → ∀ c n, o = .consume c n → 0 ≤ n

/-- Never in the run an amount below zero is consumed. -/
def OnwardAll : Source → List Operation → Prop
  | _, [] => True
  | s, o :: ops => s.Onward o ∧ OnwardAll (s.did o) ops

theorem Changes.proper (h : Changes s u) (hs : s.Proper) : u.Proper := by
  induction h with
  | refl => exact hs
  | tail _ hstep ih => exact hstep.proper ih

theorem kept_consume {c : Cursor} {n : Int} (h : ((consume c n).runOn s).1 ≠ .ok ()) :
    ((consume c n).runOn s).2 = s := by
  cases c with
  | root => exact kept_consumeRoot h
  | fork id =>
    cases hc : s.isClosed (.fork id) with
    | true => rw [runOn_consume_of_closed hc]
    | false =>
      cases hfailure : consumeFailure? s.buffer (s.offset (.fork id)) n with
      | some e => rw [runOn_consume_fork_of_some hc hfailure]
      | none => simp [runOn_consume_fork hc hfailure] at h

theorem Proper.did (hs : s.Proper) (ho : s.Onward o) : (s.did o).Proper := by
  cases o with
  | read path c amount =>
    rw [Source.did, Operation.run, snd_runOn_bind_pure (Source.read path c amount) (fun _ => ())]
    exact (changes_read path c amount s).proper hs
  | consume c n =>
    -- an amount below zero is refused here, and then nothing has changed
    by_cases hok : s.Accepts (.consume c n)
    · obtain ⟨n, rfl⟩ := Int.eq_ofNat_of_zero_le (ho hok c n rfl)
      exact (changes_consume c n s).proper hs
    · rw [Source.did, Operation.run, kept_consume hok]
      exact hs
  | fork c =>
    rw [Source.did, Operation.run, snd_runOn_bind_pure (Source.fork c) (fun _ => ())]
    cases hc : s.isClosed c with
    | true =>
      rw [runOn_fork_of_closed hc]
      exact hs
    | false =>
      rw [runOn_fork hc]
      exact hs.addFork hc
  | join c => exact (changes_join c s).proper hs
  | close c =>
    cases c with
    | root => exact hs
    | fork id => exact (changes_close (.fork id) s).proper hs

theorem Proper.didAll (ops : List Operation) : ∀ {s : Source}, s.Proper → s.OnwardAll ops →
    (s.didAll ops).Proper := by
  induction ops with
  | nil => exact fun hs _ => hs
  | cons o ops ih => exact fun hs h => ih (hs.did h.1) h.2

/-- As long as no fork stands behind the root, what is taken over from one takes the root on. -/
theorem position_le_did (hs : s.Proper) (ho : s.Onward o) : s.position ≤ (s.did o).position := by
  rcases did_cases s o with ⟨n, htakes, hok⟩ | ⟨-, hposition⟩
  · obtain ⟨-, -, hposition⟩ := htakes.taken hok
    have hnonneg : 0 ≤ n := by
      cases htakes with
      | consume n => exact ho hok .root n rfl
      | join id hparent => exact hs.offset_nonneg id
    omega
  · omega

/-- Whatever is done at a source and its forks, with whatever amounts, the root never stands behind the
items that its buffer has been given: how many it has passed and how many wait are as many as these.
It goes back exactly where it accepts to consume an amount below zero, or to take over a fork that
stands behind it; and it never goes back as long as no cursor has accepted to consume an amount below
zero. -/
theorem position_did_lt_iff (hmade : made.New) (ops : List Operation) :
    0 ≤ (made.didAll ops).buffer.available ∧
    (made.didAll ops).position + (made.didAll ops).buffer.available =
      (made.didAll ops).buffer.given made.buffer.feed ∧
    (made.didAll ops).position ≤ (made.didAll ops).buffer.given made.buffer.feed ∧
    (∀ o n, (made.didAll ops).Takes o n → (made.didAll ops).Accepts o →
      ((made.didAll ops).did o).position = (made.didAll ops).position + n) ∧
    (∀ o, ((made.didAll ops).did o).position < (made.didAll ops).position ↔
      (made.didAll ops).Accepts o ∧ ∃ n < 0, (made.didAll ops).Takes o n) ∧
    (made.OnwardAll ops → ∀ o, (made.didAll ops).Onward o →
      (made.didAll ops).position ≤ ((made.didAll ops).did o).position) := by
  obtain ⟨hnonneg, -, htotal⟩ := accounts_didAll ops hmade.accounts
  refine ⟨hnonneg, htotal, by omega, fun o n htakes hok => (htakes.taken hok).2.2,
    fun o => ⟨fun hlt => ?_, ?_⟩, fun hops o ho => ?_⟩
  · rcases did_cases (made.didAll ops) o with ⟨n, htakes, hok⟩ | ⟨-, hposition⟩
    · obtain ⟨-, -, hposition⟩ := htakes.taken hok
      exact ⟨hok, n, by omega, htakes⟩
    · omega
  · rintro ⟨hok, n, hn, htakes⟩
    obtain ⟨-, -, hposition⟩ := htakes.taken hok
    omega
  · exact position_le_did (hmade.proper.didAll ops hops) ho

/-- The root consumes two items, and a fork of it goes back by one. -/
def stepBack : List Operation :=
  [.consume .root 2, .fork .root, .consume (.fork 0) (-1)]

/-- The root goes back when it takes over what the fork has consumed. -/
theorem position_did_lt_iff_stepBack :
    (Source.ofData (.str [97, 98])).New ∧
    ((Source.ofData (.str [97, 98])).didAll stepBack).position ≤
      ((Source.ofData (.str [97, 98])).didAll stepBack).buffer.given [] ∧
    ((Source.ofData (.str [97, 98])).didAll stepBack).Accepts (.join (.fork 0)) ∧
    (((Source.ofData (.str [97, 98])).didAll stepBack).did (.join (.fork 0))).position <
      ((Source.ofData (.str [97, 98])).didAll stepBack).position := by
  have hmade : (Source.ofData (.str [97, 98])).New := .ofData _
  have hok : ((Source.ofData (.str [97, 98])).didAll stepBack).Accepts (.join (.fork 0)) := rfl
  obtain ⟨-, -, hle, -, hback, -⟩ := position_did_lt_iff hmade stepBack
  exact ⟨hmade, hle, hok, (hback _).2 ⟨hok, -1, by decide, .join 0 rfl⟩⟩

/-- An amount below zero takes the root back, before the start of the input at that. -/
theorem position_did_below_zero :
    (Source.ofData (.str [97, 98])).position = 0 ∧
    (Source.ofData (.str [97, 98])).Accepts (.consume .root (-1)) ∧
    ((Source.ofData (.str [97, 98])).did (.consume .root (-1))).position = -1 :=
  ⟨rfl, rfl, rfl⟩

end Source
end Backtrack
