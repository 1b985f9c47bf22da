/-
What a stream makes of its feed. The elements of the feed bring items, one after another, until the
end is signalled; an element that fails brings none. However a source over the feed is used, and
however often a read fails, the items that wait ahead of the root and those that the feed still brings
are what is left of all of them, in their order, behind as many as the root has passed: `Supplies`
says so of a stream. An element that is taken keeps it, and so does consuming what waits, which is all
that a request can do to a stream.
-/
import Backtrack.Proofs.Overtaking
import Backtrack.Proofs.Pulling
namespace Backtrack

namespace Stream

/-! ## What elements bring -/

/-- The items that a feed brings before it signals its end, `bring` telling which ones a value brings.
An element that fails brings none. -/
def suppliedBy (bring : Value → List Value) : List Element → List Value
  | [] | .stop :: _ => []
  | .failing _ :: feed => suppliedBy bring feed
  | .value v :: feed => bring v ++ suppliedBy bring feed

/-- The items that a value stands for in a feed: the value, or in a chunked one all its items, if it
has any. -/
def itemsOf (chunked : Bool) (v : Value) : List Value :=
  if chunked then v.items?.getD [] else [v]

/-- The items that a value stands for, and none for a chunk with more of them than can be held. -/
def heldItemsOf (chunked : Bool) (v : Value) : List Value :=
  if chunked && v.holdFailure?.isSome then [] else itemsOf chunked v

/-- The items that a feed brings to a stream. -/
def supplied (chunked : Bool) : List Element → List Value := suppliedBy (heldItemsOf chunked)

@[simp] theorem supplied_nil (chunked : Bool) : supplied chunked [] = [] := rfl

@[simp] theorem supplied_stop (chunked : Bool) (feed : List Element) :
    supplied chunked (.stop :: feed) = [] := rfl

@[simp] theorem supplied_failing (chunked : Bool) (f : PullFailure) (feed : List Element) :
    supplied chunked (.failing f :: feed) = supplied chunked feed := rfl

@[simp] theorem supplied_value (chunked : Bool) (v : Value) (feed : List Element) :
    supplied chunked (.value v :: feed) = heldItemsOf chunked v ++ supplied chunked feed := rfl

/-- What pulling an element raises: the failure itself if it is about parsing, wrapped if not, or the
failure of going through a chunk. -/
inductive Raises (chunked : Bool) : Element → Failure → Prop where
  | parseError {f : PullFailure} (h : f.val.isA .parseError = true) : Raises chunked (.failing f) f
  | other {f : PullFailure} (h : f.val.isA .parseError = false) :
    Raises chunked (.failing f) (.other (.failure f))
  | notIterable {v : Value} (hchunked : chunked = true) (h : v.items? = none) :
    Raises chunked (.value v) (.notIterable v)
  | notHeld {v : Value} {e : Failure} (hchunked : chunked = true) (h : v.holdFailure? = some e) :
    Raises chunked (.value v) e

theorem raises_reported (chunked : Bool) (f : PullFailure) : Raises chunked (.failing f) (reported f) := by
  rw [reported]
  split
  · rename_i h
    exact .parseError h
  · rename_i h
    exact .other (Bool.eq_false_of_not_eq_true h)

/-- A value brings what it stands for, or raises and brings nothing. -/
theorem contribution_cases (chunked : Bool) (v : Value) :
    contribution chunked v = .ok (heldItemsOf chunked v) ∨
    heldItemsOf chunked v = [] ∧
      ∃ e, contribution chunked v = .error e ∧ Raises chunked (.value v) e := by
  cases chunked with
  | false => exact .inl rfl
  | true =>
    simp only [contribution, Value.elements, heldItemsOf, itemsOf, if_pos, Bool.true_and]
    cases hhold : v.holdFailure? with
    | some e => exact .inr ⟨rfl, e, rfl, .notHeld rfl hhold⟩
    | none =>
      cases hitems : v.items? with
      | some items => exact .inl rfl
      | none => exact .inr ⟨rfl, _, rfl, .notIterable rfl hitems⟩

/-! ## What waits -/

/-- The items that wait ahead of the root. -/
def waiting (s : Stream) : List Value := s.items.toList.drop s.head.toNat

/-- Items that are added come right behind those that wait. -/
theorem waiting_append {s : Stream} (hle : s.head ≤ s.items.size) (rest : List Element)
    (vs : List Value) :
    ({ s.advance rest with items := s.items ++ vs } : Stream).waiting = s.waiting ++ vs := by
  have hlength : s.head.toNat ≤ s.items.toList.length := by
    rw [Array.length_toList]
    omega
  simp only [waiting, advance, Array.toList_appendList, List.drop_append_of_le_length hlength]

/-- What is left of the items that a feed brings, behind the first `passed` of them, waits in the
stream or will be brought to it by the rest of its feed. -/
structure Supplies (script : List Element) (chunked : Bool) (path : Path) (passed : Nat)
    (s : Stream) : Prop where
  chunked_eq : s.chunked = chunked
  path_eq : s.path = path
  head_nonneg : 0 ≤ s.head
  head_le : s.head ≤ s.items.size
  feed_eq : s.feed = script.drop s.pulled
  ahead_eq : (supplied chunked script).drop passed =
    s.waiting ++ if s.ended then [] else supplied chunked s.feed

variable {script : List Element} {chunked : Bool} {path : Path} {passed : Nat} {s : Stream}

namespace Supplies

theorem ofFeed (script : List Element) (chunked : Bool) (path : Path) :
    Supplies script chunked path 0 (.ofFeed script chunked path) :=
  ⟨rfl, rfl, le_refl _, le_refl _, rfl, rfl⟩

theorem length_waiting (h : s.Supplies script chunked path passed) :
    (s.waiting.length : Int) = s.available := by
  have := h.head_nonneg
  have := h.head_le
  simp only [waiting, available, List.length_drop, Array.length_toList]
  omega

/-- What waits comes first of what is left. -/
theorem waiting_eq (h : s.Supplies script chunked path passed) :
    s.waiting = ((supplied chunked script).drop passed).take s.available.toNat := by
  rw [h.ahead_eq, ← h.length_waiting, Int.toNat_natCast, List.take_left]

/-- An element that is taken is no longer to come, and its items wait from now on. -/
theorem taken (h : s.Supplies script chunked path passed) :
    s.taken.Supplies script chunked path passed := by
  cases hended : s.ended with
  | true => rwa [taken_of_ended hended]
  | false =>
    obtain ⟨rfl, rfl, hnonneg, hle, hfeed, hahead⟩ := h
    have hrest : ∀ {e rest}, s.feed = e :: rest → rest = script.drop (s.pulled + 1) := by
      intro e rest he
      rw [← List.tail_drop, ← hfeed, he, List.tail_cons]
    simp only [hended, Bool.false_eq_true, if_false] at hahead
    rw [Stream.taken, if_neg (by simp [hended])]
    split
    · rename_i he
      refine ⟨rfl, rfl, hnonneg, hle, hfeed, ?_⟩
      rw [hahead, he, supplied_nil]
      rfl
    · rename_i rest he
      refine ⟨rfl, rfl, hnonneg, hle, hrest he, ?_⟩
      rw [hahead, he, supplied_stop]
      rfl
    · rename_i f rest he
      refine ⟨rfl, rfl, hnonneg, hle, hrest he, ?_⟩
      rw [hahead, he, supplied_failing]
      simp only [advance, hended]
      rfl
    · rename_i v rest he
      rw [he, supplied_value] at hahead
      rcases contribution_cases s.chunked v with hv | ⟨hnone, e, hv, -⟩
      · simp only [hv]
        refine ⟨rfl, rfl, hnonneg, ?_, hrest he, ?_⟩
        · simp only [advance, ← Array.length_toList, Array.toList_appendList, List.length_append]
            at hle ⊢
          omega
        · rw [hahead, waiting_append hle, List.append_assoc]
          simp only [advance, hended]
          rfl
      · simp only [hv]
        refine ⟨rfl, rfl, hnonneg, hle, hrest he, ?_⟩
        rw [hahead, hnone, List.nil_append]
        simp only [advance, hended]
        rfl

theorem iterate_taken (h : s.Supplies script chunked path passed) : ∀ n,
    (Stream.taken^[n] s).Supplies script chunked path passed
  | 0 => h
  | n + 1 => by
    rw [Function.iterate_succ_apply']
    exact (iterate_taken h n).taken

/-- Dropping what is consumed changes nothing of what waits. -/
theorem trim (h : s.Supplies script chunked path passed) :
    s.trim.1.Supplies script chunked path passed := by
  unfold Stream.trim
  split
  · obtain ⟨rfl, rfl, hnonneg, hle, hfeed, hahead⟩ := h
    refine ⟨rfl, rfl, le_refl _, by simp, hfeed, ?_⟩
    rw [hahead]
    simp [waiting, List.take_of_length_le]
  · exact h

theorem consume (h : s.Supplies script chunked path passed) {n : Nat} (hn : n ≤ s.available) :
    (s.consume n).1.Supplies script chunked path (passed + n) := by
  rw [available] at hn
  have hmoved : ({ s with head := s.head + n } : Stream).Supplies script chunked path (passed + n) := by
    obtain ⟨rfl, rfl, hnonneg, hle, hfeed, hahead⟩ := h
    refine ⟨rfl, rfl, by simp only; omega, by simp only; omega, hfeed, ?_⟩
    rw [← List.drop_drop, hahead, List.drop_append_of_le_length (by simp [waiting]; omega), waiting,
      List.drop_drop, waiting, Int.toNat_add hnonneg (by omega), Int.toNat_natCast]
  exact hmoved.trim

theorem fill (h : s.Supplies script chunked path passed) (p : Path) (amount : Int) :
    (s.fill p amount).stream.Supplies script chunked path passed := by
  obtain ⟨n, hn⟩ := (Buffer.stream s).reaches_fill p amount
  rw [Buffer.iterate_taken_stream] at hn
  rw [← Buffer.stream.inj hn]
  exact h.iterate_taken n

end Supplies

/-! ## Failing pulls -/

/-- A pull that fails has taken elements that bring items, and then one that raises. -/
theorem exists_of_pull_failure {amount : Int} {e : Failure} : ∀ (feed : List Element) {s : Stream},
    s.feed = feed → s.ended = false → (pull amount feed s).failure = some e →
    ∃ n x rest, (Stream.taken^[n] s).feed = x :: rest ∧ (Stream.taken^[n] s).ended = false ∧
      (pull amount feed s).stream = (Stream.taken^[n] s).advance rest ∧ Raises s.chunked x e := by
  intro feed
  induction feed with
  | nil =>
    intro s hfeed hended h
    rw [pull] at h
    split at h <;> cases h
  | cons x rest ih =>
    intro s hfeed hended h
    unfold pull at h ⊢
    split at h
    · cases h
    · rename_i hmore
      rw [if_neg hmore]
      cases x with
      | stop => cases h
      | failing f =>
        obtain rfl : reported f = e := Option.some.inj h
        exact ⟨0, .failing f, rest, hfeed, hended, rfl, raises_reported s.chunked f⟩
      | value v =>
        rcases contribution_cases s.chunked v with hv | ⟨-, e', hv, hraises⟩
        · simp only [hv] at h ⊢
          have htaken : s.taken =
              { s.advance rest with items := s.items ++ heldItemsOf s.chunked v } := by
            rw [Stream.taken, if_neg (by simp [hended])]
            simp only [hfeed, hv]
          rw [← htaken] at h ⊢
          obtain ⟨n, x, later, hx, hopen, hstream, hraises⟩ :=
            ih (s := s.taken) (by rw [htaken]; rfl) (by rw [htaken]; exact hended) h
          rw [htaken] at hraises
          exact ⟨n + 1, x, later, hx, hopen, hstream, hraises⟩
        · simp only [hv] at h ⊢
          obtain rfl : e' = e := Option.some.inj h
          exact ⟨0, .value v, rest, hfeed, hended, rfl, hraises⟩

/-- What waits in a stream comes first of what waits in one that holds more. -/
theorem Extends.waiting {u : Stream} (h : s.Extends u) : s.waiting <+: u.waiting := by
  obtain ⟨vs, hvs⟩ := h.items
  rw [Stream.waiting, Stream.waiting, h.head, hvs, Array.toList_append, List.drop_append]
  exact List.prefix_append _ _

theorem extends_iterate_taken (s : Stream) : ∀ n, s.Extends (Stream.taken^[n] s)
  | 0 => .refl s
  | n + 1 => by
    rw [Function.iterate_succ_apply']
    exact (extends_iterate_taken s n).trans (extends_taken _)

theorem pulled_le_taken (s : Stream) : s.pulled ≤ s.taken.pulled := by
  rw [taken]
  split
  · exact le_refl _
  · split
    · exact le_refl _
    · exact Nat.le_succ _
    · exact Nat.le_succ _
    · split
      · exact Nat.le_succ _
      · exact Nat.le_succ _

theorem pulled_le_iterate_taken (s : Stream) : ∀ n, s.pulled ≤ (Stream.taken^[n] s).pulled
  | 0 => le_refl _
  | n + 1 => by
    rw [Function.iterate_succ_apply']
    exact (pulled_le_iterate_taken s n).trans (pulled_le_taken _)

/-- How a stream is left by a fill that fails with `e`. Either nothing was done, since the feed cannot
be read on the path, or the last element that was taken raised `e`: all that waited waits still, and
the feed goes on behind that element. -/
inductive Interrupted (script : List Element) (path : Path) (s : Stream) (e : Failure) : Stream → Prop
  | refused (hfeed : s.path = .suspending) (hpath : path = .blocking) (he : e = onlySuspending) :
    Interrupted script path s e s
  | raised {u : Stream} (k : Nat) {x : Element} (hx : script[k]? = some x)
    (hraises : Raises s.chunked x e) (hwaiting : s.waiting <+: u.waiting) (hfrom : s.pulled ≤ k)
    (hpulled : u.pulled = k + 1) (hfeed : u.feed = script.drop (k + 1)) (hended : u.ended = false) :
    Interrupted script path s e u

theorem Supplies.interrupted (h : s.Supplies script chunked path passed) {p : Path} {amount : Int}
    {e : Failure} (hfill : (s.fill p amount).failure = some e) :
    Interrupted script p s e (s.fill p amount).stream := by
  rw [Stream.fill] at hfill ⊢
  split at hfill
  · rename_i hrefused
    rw [if_pos hrefused]
    exact .refused hrefused.1 hrefused.2 (Option.some.inj hfill).symm
  · rename_i hpath
    rw [if_neg hpath]
    split at hfill
    · cases hfill
    · rename_i hended
      rw [if_neg hended]
      obtain ⟨n, x, rest, hx, hopen, hstream, hraises⟩ :=
        exists_of_pull_failure s.feed rfl (Bool.eq_false_of_not_eq_true hended) hfill
      have hlast := (h.iterate_taken n).feed_eq
      have hcons : script.drop (Stream.taken^[n] s).pulled = x :: rest := by rw [← hlast, hx]
      rw [hstream]
      refine .raised (Stream.taken^[n] s).pulled ?_ hraises (s.extends_iterate_taken n).waiting
        (s.pulled_le_iterate_taken n) rfl ?_ hopen
      · rw [← List.head?_drop, hcons, List.head?_cons]
      · rw [← List.tail_drop, hcons, List.tail_cons]
        rfl

end Stream

/-- How far the feed of a buffer was gone through: what is left of it, how many elements were taken,
and whether the end was signalled. -/
def Buffer.progress? : Buffer → Option (List Element × Nat × Bool)
  | stream s => some (s.feed, s.pulled, s.ended)
  | memory .. | irregular .. => none

namespace Source

open Backtrack.Stream (supplied Interrupted Supplies)

/-! ## What requests do to a stream -/

variable {s u : Source} {script : List Element} {chunked : Bool} {path : Path}

/-- What takes the root past items that wait, or leaves root and buffer alone. -/
inductive Passage (s u : Source) : Prop
  | kept (hbuffer : u.buffer = s.buffer) (hposition : u.position = s.position)
  | consumed (n : Nat) (hle : n ≤ s.buffer.available) (hbuffer : u.buffer = (s.buffer.consume n).1)
    (hposition : u.position = s.position + n)

theorem Passage.refl (s : Source) : Passage s s := .kept rfl rfl

theorem passage_consumeRoot {amount : Int} (hamount : 0 ≤ amount) (s : Source) :
    Passage s ((consumeRoot amount).runOn s).2 := by
  obtain ⟨n, rfl⟩ := Int.eq_ofNat_of_zero_le hamount
  cases h : consumeFailure? s.buffer 0 n with
  | some e =>
    rw [runOn_consumeRoot_of_some h]
    exact .refl s
  | none =>
    rw [runOn_consumeRoot h]
    exact .consumed n (by simpa using le_available_of_consumeFailure? h) rfl rfl

theorem passage_consume (c : Cursor) (n : Nat) (s : Source) : Passage s ((consume c n).runOn s).2 := by
  cases c with
  | root => exact passage_consumeRoot (Int.natCast_nonneg n) s
  | fork id =>
    refine .kept (buffer_consume_fork id n s) ?_
    cases hc : s.isClosed (.fork id) with
    | true => rw [runOn_consume_of_closed hc]
    | false =>
      cases h : consumeFailure? s.buffer (s.offset (.fork id)) n with
      | some e => rw [runOn_consume_fork_of_some hc h]
      | none => rw [runOn_consume_fork hc h, position_setFork]

theorem passage_fork (c : Cursor) (s : Source) : Passage s ((fork c).runOn s).2 := by
  cases hc : s.isClosed c with
  | true =>
    rw [runOn_fork_of_closed hc]
    exact .refl s
  | false =>
    rw [runOn_fork hc]
    exact .kept rfl rfl

theorem passage_join (hs : s.Proper) (c : Cursor) : Passage s ((join c).runOn s).2 := by
  cases c with
  | root => exact .refl s
  | fork id =>
    rw [runOn_join_fork]
    split
    · exact .refl s
    · split
      · -- the root is taken to where the fork stands
        have hconsume := passage_consumeRoot (hs.offset_nonneg id)
          (s.setFork id fun f => { f with closed := true })
        cases hconsume with
        | kept hbuffer hposition => exact .kept hbuffer hposition
        | consumed n hle hbuffer hposition => exact .consumed n hle hbuffer hposition
      · split
        · exact .kept rfl rfl
        · exact .kept rfl rfl

theorem passage_close (c : Cursor) (s : Source) : Passage s ((close c).runOn s).2 := by
  cases c with
  | root => exact .refl s
  | fork id =>
    rw [runOn_close_fork]
    exact .kept rfl rfl

/-- Only reads can do more to a buffer. -/
theorem passage_perform (hs : s.Proper) {r : Request} (hr : ∀ n, r ≠ .read n) (p : Path) (c : Cursor) :
    Passage s ((r.perform p c).runOn s).2 := by
  rw [snd_runOn_perform]
  cases r with
  | read n => exact absurd rfl (hr n)
  | consume n => exact passage_consume c n s
  | fork => exact passage_fork c s
  | join => exact passage_join hs c
  | close => exact passage_close c s

/-- A request takes elements of the feed while the root stands still, or takes the root past items that
wait. -/
inductive Effect (s u : Source) : Prop
  | filled (hreaches : s.buffer.Reaches u.buffer) (hposition : u.position = s.position)
  | consumed (n : Nat) (hle : n ≤ s.buffer.available) (hbuffer : u.buffer = (s.buffer.consume n).1)
    (hposition : u.position = s.position + n)

theorem Passage.effect (h : Passage s u) : Effect s u := by
  cases h with
  | kept hbuffer hposition => exact .filled (hbuffer ▸ .refl _) hposition
  | consumed n hle hbuffer hposition => exact .consumed n hle hbuffer hposition

theorem position_read (p : Path) (c : Cursor) (amount : Int) (s : Source) :
    ((read p c amount).runOn s).2.position = s.position := by
  cases hc : s.isClosed c with
  | true => rw [runOn_read_of_closed hc]
  | false => rw [runOn_read hc]

theorem effect_read (p : Path) (c : Cursor) (amount : Int) (s : Source) :
    Effect s ((read p c amount).runOn s).2 :=
  .filled (reaches_read p c amount s) (position_read p c amount s)

theorem effect_perform (hs : s.Proper) (r : Request) (p : Path) (c : Cursor) :
    Effect s ((r.perform p c).runOn s).2 := by
  cases r with
  | read n =>
    rw [snd_runOn_perform]
    exact effect_read p c n s
  | consume | fork | join | close => exact (passage_perform hs (by simp) p c).effect

/-- What effects keep, a run keeps. -/
theorem Effect.after_induction {P : Source → Prop} (hkeeps : ∀ {s u}, Effect s u → P s → P u)
    (uses : List Use) (hproper : s.Proper) (hs : P s) : P (s.after uses) :=
  Proper.after_induction (fun _ use hproper hs =>
    hkeeps (effect_perform hproper use.request use.path use.cursor) hs) uses hproper hs

/-- The source is over a stream to which the feed supplies what is left behind the root. -/
def Fed (script : List Element) (chunked : Bool) (path : Path) (s : Source) : Prop :=
  ∃ (st : Stream) (c : Nat), s.buffer = .stream st ∧ s.position = c ∧
    st.Supplies script chunked path c

theorem Effect.fed (h : Effect s u) (hs : s.Fed script chunked path) : u.Fed script chunked path := by
  obtain ⟨st, c, hbuffer, hposition, hst⟩ := hs
  cases h with
  | filled hreaches hposition' =>
    obtain ⟨n, hn⟩ := hreaches
    rw [hbuffer, Buffer.iterate_taken_stream] at hn
    exact ⟨_, c, hn.symm, hposition'.trans hposition, hst.iterate_taken n⟩
  | consumed n hle hbuffer' hposition' =>
    rw [hbuffer] at hle hbuffer'
    refine ⟨_, c + n, hbuffer', ?_, hst.consume hle⟩
    rw [hposition', hposition]
    rfl

theorem Fed.after (uses : List Use) (hproper : s.Proper) (hs : s.Fed script chunked path) :
    (s.after uses).Fed script chunked path :=
  Effect.after_induction (fun h hs => h.fed hs) uses hproper hs

/-- How a read turns out over the stream `st`. One that returns gives the next items behind its cursor,
fewer only where no more come. One that fails was made at a closed cursor, or keeps all that waits. -/
def ReadKeeps (script : List Element) (chunked : Bool) (s : Source) (st : Stream) (p : Path)
    (cur : Cursor) (n : Nat) : Prop :=
  match (read p cur n).runOn s with
  | (.ok items, u) =>
    items.toList = ((supplied chunked script).drop (s.positionOf cur).toNat).take n ∧
      u.position = s.position
  | (.error e, u) =>
    s.isClosed cur = true ∧ e = forkClosed ∧ u = s ∨
      u.position = s.position ∧ ∃ st', u.buffer = .stream st' ∧ Interrupted script p st e st'

/-- How a source stands over the stream `st` when the root has passed `c` of the items that the feed
brings, and what can be asked of it. -/
structure Keeps (script : List Element) (chunked : Bool) (s : Source) (st : Stream) (c : Nat) :
    Prop where
  buffer_eq : s.buffer = .stream st
  position_eq : s.position = c
  length_waiting : (st.waiting.length : Int) = st.available
  /-- The items that wait are the next ones. -/
  waiting_eq : st.waiting = ((supplied chunked script).drop c).take st.available.toNat
  reads : ∀ (p : Path) (cur : Cursor) (n : Nat), ReadKeeps script chunked s st p cur n
  /-- What waits can be consumed, and no more. -/
  consumes : ∀ n : Nat,
    if n ≤ st.available then
      ((consume .root n).runOn s).1 = .ok () ∧ ((consume .root n).runOn s).2.position = c + n
    else (consume .root n).runOn s = (.error (cannotConsume n st.available), s)
  /-- Once the end was signalled, all that is left waits, and nothing is pulled any more. -/
  ends : st.ended = true → st.waiting = (supplied chunked script).drop c ∧
    ∀ later : List Use, (s.after later).buffer.progress? = s.buffer.progress? ∧
      ∀ (p : Path) (cur : Cursor) (n : Nat),
        ((read p cur n).runOn (s.after later)).2 = s.after later

end Source
end Backtrack
