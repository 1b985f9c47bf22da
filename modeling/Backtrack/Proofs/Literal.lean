/-
Literals. A literal is compared with what is ahead of a cursor one item at a time, each time with one
item more that is read, and is consumed as a whole where all of it is there. What is read is what the tape
of the source shows where the cursor stands. The tape of a source over some items is over all of them from
the first one on, whatever was done to the source, so the items alone tell where a comparison ends:
`ComparedTo` says so. Up to that place the cursor has been read then, and no further.
-/
import Backtrack.Proofs.Evaluates
import Backtrack.Proofs.Raising
import Backtrack.Proofs.Requests
import Backtrack.Proofs.Retreat
import Backtrack.Proofs.Trimming
namespace Backtrack

open Evaluation (State onSource lookAhead finds runFrom_bind runFrom_onSource)

/-! ## Tapes over items -/

namespace Stream

variable {s : Stream} {items : List Value}

/-- Until the end is signalled, as many elements were pulled as items wait, if each brings one. -/
def OneEach (s : Stream) : Prop := s.chunked = false → s.ended = false → (s.pulled : Int) = s.available

theorem available_brought (s : Stream) (rest : List Element) (vs : List Value) :
    ({ s.advance rest with items := s.items ++ vs } : Stream).available = s.available + vs.length := by
  simp only [available, advance, ← Array.length_toList, Array.toList_appendList, List.length_append]
  push_cast
  ring

/-- An element that is no chunk brings itself. -/
theorem contribution_of_unchunked (h : s.chunked = false) (v : Value) :
    contribution s.chunked v = .ok [v] := by
  unfold contribution
  rw [h]
  rfl

/-- Another element that is taken brings what comes next, or signals the end. -/
theorem Ahead.taken (h : s.Ahead items) (hone : s.OneEach) : s.taken.Ahead items ∧ s.taken.OneEach := by
  obtain ⟨hnonneg, hle, pending, hpending, rfl⟩ := h
  rcases hpending with ⟨hended, rfl⟩ | ⟨hended, hfeed⟩
  · rw [taken_of_ended hended]
    exact ⟨⟨hnonneg, hle, [], .inl ⟨hended, rfl⟩, rfl⟩, hone⟩
  · rw [Stream.taken, if_neg (by simp [hended])]
    -- a feed that brings items has no element that fails, so there are three cases only
    generalize s.feed = feed at hfeed
    cases hfeed with
    | nil | stop rest =>
      exact ⟨⟨hnonneg, hle, [], .inl ⟨rfl, rfl⟩, rfl⟩, fun _ h => by cases h⟩
    | @value v vs rest later hbrings hfeed =>
      simp only [hbrings]
      refine ⟨⟨hnonneg, ?_, later, .inr ⟨hended, hfeed⟩, ?_⟩, fun (hchunked : s.chunked = false) _ => ?_⟩
      · simp only [advance, ← Array.length_toList, Array.toList_appendList, List.length_append] at hle ⊢
        omega
      · simp only [advance, Array.toList_appendList]
        rw [List.drop_append_of_le_length (by simp; omega), List.append_assoc]
      · rw [contribution_of_unchunked hchunked] at hbrings
        cases hbrings
        have hbefore := hone hchunked hended
        rw [available_brought]
        simp only [advance, List.length_singleton]
        push_cast
        omega

/-- Of elements that bring one item each, no more are pulled than items are missing. -/
theorem pulled_pull_le (amount : Int) (feed : List Element) : ∀ {s : Stream}, s.chunked = false →
    ((pull amount feed s).stream.pulled : Int) ≤
      max (s.pulled : Int) (s.pulled + (amount - s.available)) := by
  induction feed with
  | nil =>
    intro s _
    rw [pull]
    split
    · exact le_max_left _ _
    · exact le_max_left _ _
  | cons e rest ih =>
    intro s hchunked
    cases e with
    | stop | failing f =>
      rw [pull]
      split
      · exact le_max_left _ _
      · simp only [finish, advance]
        push_cast
        omega
    | value v =>
      rw [pull]
      split
      · exact le_max_left _ _
      · have hrest := ih (s := { s.advance rest with items := s.items ++ [v] }) hchunked
        rw [available_brought] at hrest
        simp only [contribution_of_unchunked hchunked]
        simp only [advance, List.length_singleton] at hrest ⊢
        push_cast at hrest ⊢
        omega

end Stream

namespace Buffer

variable {X : List Value} {path : Path} {b b' : Buffer} {m n o : Nat}

/-- The buffer is over the items `X`, and none of them was consumed. -/
inductive Entire (X : List Value) (path : Path) : Buffer → Prop where
  | memory {data : Sequence} (h : data.toList = X) : Entire X path (.memory data 0)
  | stream {s : Stream} (hpath : s.path = .suspending → path = .suspending) (h : s.Ahead X)
    (hone : s.OneEach) : Entire X path (.stream s)

theorem Entire.holds (h : b.Entire X path) : b.Holds X path 0 := by
  cases h with
  | memory h => exact .memory h 0
  | stream hpath h _ => exact .stream hpath h

theorem Entire.taken (h : b.Entire X path) : b.taken.Entire X path := by
  cases h with
  | memory h => exact .memory h
  | @stream s hpath h hone =>
    obtain ⟨hahead, hone'⟩ := h.taken hone
    exact .stream (by rwa [(Stream.extends_taken s).path]) hahead hone'

theorem Entire.reaches (h : b.Entire X path) (hb : b.Reaches b') : b'.Entire X path := by
  obtain ⟨n, rfl⟩ := hb
  induction n with
  | zero => exact h
  | succ n ih =>
    rw [Function.iterate_succ_apply']
    exact ih.taken

/-- A look at a place shows the items there. -/
theorem Entire.look (h : b.Entire X path) (o n : Nat) :
    ∃ items, b.look path o n = .ok items ∧ items.toList = (X.drop o).take n := by
  obtain ⟨hnone, hholds, -, henough⟩ := h.holds.fill (Nat.zero_le _) (o + n)
  obtain ⟨items, hslice, hitems⟩ := hholds.slice (o := o) (n := n) (by simpa using henough)
  rw [Nat.zero_add] at hitems
  exact ⟨items, by rw [Buffer.look, hnone]; exact hslice, hitems⟩

/-- A fill makes all items up to the place wait, if there are so many. -/
theorem Entire.le_available_fill (h : b.Entire X path) (hn : n ≤ X.length) :
    n ≤ (b.fill path n).1.available := by
  obtain ⟨-, -, -, henough⟩ := h.holds.fill (Nat.zero_le _) n
  omega

/-- The buffer is a stream of single items, and at most so many elements of its feed were pulled. -/
def PulledAtMost (m : Nat) : Buffer → Prop
  | stream s => s.chunked = false ∧ s.pulled ≤ m
  | memory .. | irregular .. => False

theorem PulledAtMost.mono (h : b.PulledAtMost m) (hle : m ≤ n) : b.PulledAtMost n := by
  cases b with
  | memory | irregular => exact h
  | stream s => exact ⟨h.1, h.2.trans hle⟩

theorem Leads.pulledAtMost_iff {lead : Int} (h : b.Leads lead b') :
    b'.PulledAtMost m ↔ b.PulledAtMost m := by
  cases h with
  | memory | irregular => exact Iff.rfl
  | stream h => simp only [PulledAtMost, h.chunked, h.pulled]

theorem pulledAtMost_consume (b : Buffer) (amount : Int) :
    (b.consume amount).1.PulledAtMost m = b.PulledAtMost m :=
  apply_consume (PulledAtMost m) (fun _ _ _ => rfl) (fun _ _ _ => rfl) (fun _ _ _ => rfl) b amount

/-- No more is pulled than it takes to make all items up to the place wait. -/
theorem Entire.pulledAtMost_fill (h : b.Entire X path) (hm : b.PulledAtMost m) (n : Nat) :
    (b.fill path n).1.PulledAtMost (max m n) := by
  cases h with
  | memory => exact hm
  | @stream s hpath _ hone =>
    obtain ⟨hchunked, hpulled⟩ := hm
    obtain ⟨hkept, -⟩ := s.fill_bounds path n
    refine ⟨hkept.trans hchunked, ?_⟩
    have hreadable : ¬(s.path = .suspending ∧ path = .blocking) := by
      rintro ⟨hs, rfl⟩
      cases hpath hs
    rw [Stream.fill, if_neg hreadable]
    cases hended : s.ended with
    | true => exact hpulled.trans (le_max_left _ _)
    | false =>
      have hmore := Stream.pulled_pull_le n s.feed hchunked
      have hwaits := hone hchunked hended
      simp only [Bool.false_eq_true, if_false]
      omega

end Buffer

theorem Source.Fresh.entire {X : List Value} {path : Path} {s : Source} (h : s.Fresh X path) :
    s.New ∧ s.buffer.Entire X path := by
  cases h with
  | memory hv hcount hdata =>
    refine ⟨.ofData _, ?_⟩
    rw [Source.ofData, Source.ofBuffer, Buffer.ofValue_eq_memory hv hcount]
    exact .memory hdata
  | feed hfeed hpath =>
    exact ⟨.ofFeed .., .stream hpath (.ofFeed hfeed _) fun _ _ => rfl⟩

namespace Source

variable {X : List Value} {path : Path} {made s u : Source} {c : Cursor} {p m : Nat} {b : Buffer}

theorem OnTape.of_matches (h : s.OnTape b) (hu : s.Matches u) : u.OnTape b := by
  obtain ⟨events, rfl⟩ := hu
  exact ⟨h.position_nonneg, h.leads, h.starts⟩

/-- The open cursor stands at the place `p` of the tape, which is over the items `X`. -/
structure Sees (X : List Value) (path : Path) (c : Cursor) (p : Nat) (b : Buffer) (s : Source) : Prop
    extends s.OnTape b where
  proper : s.Proper
  isOpen : s.isClosed c = false
  position_eq : s.positionOf c = p
  entire : b.Entire X path

/-- However a source over some items is used, its open cursors stand at places of a tape over them. -/
theorem Fresh.sees (h : made.Fresh X path) (acts : List Action)
    (hopen : (made.acted acts).isClosed c = false) : ∃ p b, (made.acted acts).Sees X path c p b := by
  obtain ⟨hnew, hentire⟩ := h.entire
  obtain ⟨uses, huses⟩ := exists_makes acts hnew.proper
  obtain ⟨b, hreaches, hafter⟩ := OnTape.after uses hnew.proper hnew.onTape
  have htape := hafter.of_matches huses.matches
  have hproper := hnew.proper.acted acts
  obtain ⟨p, hp⟩ := Int.eq_ofNat_of_zero_le (htape.positionOf_nonneg hproper c)
  exact ⟨p, b, htape, hproper, hopen, hp, hentire.reaches hreaches⟩

theorem Sees.pulledAtMost_iff (h : s.Sees X path c p b) :
    b.PulledAtMost m ↔ s.buffer.PulledAtMost m := h.leads.pulledAtMost_iff

/-- A read gives the items behind the cursor. -/
theorem Sees.onSource_read {s : State} (h : s.source.Sees X path c p b) (n : Nat) :
    ∃ items t, (onSource (Source.read path c n)).runFrom s = (.ok items, t) ∧
      items.toList = (X.drop p).take n ∧ t.source.Sees X path c p (b.fill path (p + n : Nat)).1 ∧
      (s.source.after [⟨path, c, .read n⟩]).Matches t.source := by
  obtain ⟨hread, htape⟩ := h.toOnTape.read h.proper h.isOpen path n
  obtain ⟨items, hlook, hitems⟩ := h.entire.look p n
  rw [h.position_eq, ← Nat.cast_add] at htape
  rw [h.position_eq, hlook] at hread
  have hmatches : (s.source.after [⟨path, c, .read n⟩]).Matches
      ((onSource (Source.read path c n)).runFrom s).2.source := by
    rw [after_single, runFrom_onSource]
    exact ⟨[], rfl⟩
  have hproper := hmatches.proper (h.proper.after [⟨path, c, .read n⟩])
  refine ⟨items, _, Prod.ext ?_ rfl, hitems, ⟨?_, hproper, ?_, ?_, ?_⟩, hmatches⟩
  · rw [runFrom_onSource, hread]
    rfl
  · exact htape.of_matches ⟨[], rfl⟩
  · rw [runFrom_onSource, runOn_read h.isOpen]
    exact h.isOpen
  · rw [runFrom_onSource, runOn_read h.isOpen]
    exact h.position_eq
  · exact h.entire.reaches (b.reaches_fill path _)

/-- Items that wait on the tape can be consumed. -/
theorem Sees.onSource_consume {s : State} (h : s.source.Sees X path c p b) {n : Nat}
    (hn : ((p + n : Nat) : Int) ≤ b.available) :
    ∃ t, (onSource (Source.consume c n)).runFrom s = (.ok (), t) ∧
      t.source.positionOf c = (p + n : Nat) ∧
      (s.source.after [⟨path, c, .consume n⟩]).Matches t.source ∧
      ∀ m, s.source.buffer.PulledAtMost m → t.source.buffer.PulledAtMost m := by
  have hwaits : s.source.offset c + n ≤ s.source.buffer.available := by
    have hplace := h.position_eq
    rw [h.available] at hn
    rw [positionOf] at hplace
    omega
  have hcount : s.source.buffer.countFailure? = none := by
    rw [← h.leads.countFailure?, h.entire.holds.countFailure?]
  have hnone : consumeFailure? s.source.buffer (s.source.offset c) n = none := by
    simp [consumeFailure?, hcount, hwaits]
  obtain ⟨hok, hposition⟩ := runOn_consume_of_none h.isOpen hnone
  refine ⟨_, Prod.ext ?_ rfl, ?_, ?_, fun m hm => ?_⟩
  · rw [runFrom_onSource, hok]
    rfl
  · rw [runFrom_onSource, Nat.cast_add, ← h.position_eq]
    exact hposition
  · rw [after_single, runFrom_onSource]
    exact ⟨[], rfl⟩
  · show ((Source.consume c n).runOn s.source).2.buffer.PulledAtMost m
    cases passage_consume c n s.source with
    | kept hbuffer _ => rwa [hbuffer]
    | consumed k _ hbuffer _ => rwa [hbuffer, Buffer.pulledAtMost_consume]

end Source

/-! ## Where a comparison ends -/

/-- At the place `k` behind `p` the input has an item, and it is equal to the literal's at `k`. -/
def agrees (X ws : List Value) (p k : Nat) : Bool :=
  match X[p + k]?, ws[k]? with
  | some v, some w => v.eqv w
  | _, _ => false

/-- The next items of the input are there, and are equal to those of the literal one by one. -/
def Begins (X ws : List Value) (p : Nat) : Prop := ∀ k < ws.length, agrees X ws p k = true

instance (X ws : List Value) (p : Nat) : Decidable (Begins X ws p) :=
  inferInstanceAs (Decidable (∀ k < ws.length, agrees X ws p k = true))

/-- The place `i` of the literal is the first whose item differs from the input's or is missing there, or
the last one if there is none. -/
structure ComparedTo (X ws : List Value) (p i : Nat) : Prop where
  lt_length : i < ws.length
  before : ∀ k < i, agrees X ws p k = true
  last : agrees X ws p i = true → i + 1 = ws.length

variable {X ws : List Value} {path : Path} {c : Cursor} {p i : Nat}

/-- All is equal if it is so where the comparison ends. -/
theorem ComparedTo.begins_iff (h : ComparedTo X ws p i) : Begins X ws p ↔ agrees X ws p i = true := by
  constructor
  · intro hbegins
    exact hbegins i h.lt_length
  · intro hlast k hk
    have hend := h.last hlast
    rcases Nat.lt_or_ge k i with hlt | hge
    · exact h.before k hlt
    · obtain rfl : k = i := by omega
      exact hlast

theorem length_le_of_begins (h : Begins X ws p) (hne : ws ≠ []) : p + ws.length ≤ X.length := by
  have hlength := List.length_pos_iff.2 hne
  have hlast := h (ws.length - 1) (by omega)
  by_contra hshort
  rw [agrees, List.getElem?_eq_none (by omega)] at hlast
  cases hlast

/-- What was read shows whether the place that it ends with agrees. -/
theorem finds_eq_agrees {items expected : Sequence} {k : Nat}
    (h : items.toList = (X.drop p).take (k + 1)) :
    finds items expected k = agrees X expected.toList p k := by
  have hitem : items.get? k = X[p + k]? := by
    rw [Sequence.get?_eq_getElem?_toList, h, List.getElem?_take_of_lt (Nat.lt_succ_self k),
      List.getElem?_drop]
  rw [finds, hitem, Sequence.get?_eq_getElem?_toList]
  rfl

/-! ## Comparing -/

/-- Reads at a cursor, each of one item more than the one before: of `first` items up to `last`. -/
def longerReads (path : Path) (c : Cursor) (first last : Nat) : List Use :=
  (List.range' first (last + 1 - first)).map fun n => ⟨path, c, .read n⟩

theorem longerReads_self (path : Path) (c : Cursor) (n : Nat) :
    longerReads path c n n = [⟨path, c, .read n⟩] := by
  rw [longerReads, show n + 1 - n = 1 by omega]
  rfl

theorem longerReads_of_lt (path : Path) (c : Cursor) {first last : Nat} (h : first < last) :
    longerReads path c first last = ⟨path, c, .read first⟩ :: longerReads path c (first + 1) last := by
  rw [longerReads, show last + 1 - first = last + 1 - (first + 1) + 1 by omega, List.range'_succ,
    List.map_cons]
  rfl

namespace Source

variable {s t u : Source} {b b' b'' : Buffer} {k : Nat}

/-- A comparison that goes on from the place `k` of the literal ends at the place `i`, and has taken the
source `s` with the tape `b` to the source `t` with the tape `b'`. It has read up to there and no further;
if all agrees, all of it waits; and no more was pulled than it takes to read so far. -/
structure Compares (X ws : List Value) (path : Path) (c : Cursor) (p k i : Nat) (b b' : Buffer)
    (s t : Source) : Prop where
  le : k ≤ i
  compared : ComparedTo X ws p i
  sees : t.Sees X path c p b'
  asked : (s.after (longerReads path c (k + 1) (i + 1))).Matches t
  waits : agrees X ws p i = true → ((p + ws.length : Nat) : Int) ≤ b'.available
  pulled : ∀ m, b.PulledAtMost m → b'.PulledAtMost (max m (p + i + 1))

/-- It ends at the place that was read up to. -/
theorem Compares.here (hs : s.Sees X path c p b) (hcompared : ComparedTo X ws p k)
    (ht : t.Sees X path c p (b.fill path (p + (k + 1) : Nat)).1)
    (hread : (s.after [⟨path, c, .read (k + 1)⟩]).Matches t) :
    Compares X ws path c p k k b (b.fill path (p + (k + 1) : Nat)).1 s t where
  le := le_refl k
  compared := hcompared
  sees := ht
  asked := by rwa [longerReads_self]
  waits hlast := by
    have hthere := length_le_of_begins (hcompared.begins_iff.2 hlast)
      (List.ne_nil_of_length_pos (Nat.zero_lt_of_lt hcompared.lt_length))
    rw [← hcompared.last hlast] at hthere ⊢
    exact hs.entire.le_available_fill hthere
  pulled m hm := hs.entire.pulledAtMost_fill hm _

/-- It goes on behind the place that was read up to. -/
theorem Compares.next (hs : s.Sees X path c p b)
    (hread : (s.after [⟨path, c, .read (k + 1)⟩]).Matches t)
    (hrest : Compares X ws path c p (k + 1) i (b.fill path (p + (k + 1) : Nat)).1 b'' t u) :
    Compares X ws path c p k i b b'' s u where
  le := Nat.le_of_succ_le hrest.le
  compared := hrest.compared
  sees := hrest.sees
  asked := by
    rw [longerReads_of_lt path c (Nat.succ_lt_succ hrest.le)]
    exact (hread.after _).trans hrest.asked
  waits := hrest.waits
  pulled m hm := by
    have hle := hrest.le
    exact (hrest.pulled _ (hs.entire.pulledAtMost_fill hm _)).mono (by omega)

end Source

namespace Evaluation

variable {s : State} {b : Buffer}

/-- Looking ahead reads one more item, and goes on if that agrees. -/
theorem exists_runFrom_lookAhead (hs : s.source.Sees X path c p b) (expected : Sequence) (k left : Nat) :
    ∃ t, t.source.Sees X path c p (b.fill path (p + (k + 1) : Nat)).1 ∧
      (s.source.after [⟨path, c, .read (k + 1)⟩]).Matches t.source ∧
      (lookAhead path c expected k (left + 1)).runFrom s =
        if agrees X expected.toList p k then (lookAhead path c expected (k + 1) left).runFrom t
        else (.ok false, t) := by
  obtain ⟨items, t, hread, hitems, ht, hasked⟩ := hs.onSource_read (k + 1)
  refine ⟨t, ht, hasked, ?_⟩
  rw [Nat.cast_succ] at hread
  rw [lookAhead_succ, runFrom_bind, hread]
  dsimp only
  rw [finds_eq_agrees hitems]
  split
  · rfl
  · rfl

/-- Where all places before `k` agree, looking ahead from there to the last one ends where the comparison
does. -/
theorem exists_compares_lookAhead (expected : Sequence) (left : Nat) : ∀ {k : Nat} {s : State}
    {b : Buffer}, s.source.Sees X path c p b → (∀ j < k, agrees X expected.toList p j = true) →
    k + (left + 1) = expected.toList.length →
    ∃ i t b', (lookAhead path c expected k (left + 1)).runFrom s =
        (.ok (agrees X expected.toList p i), t) ∧
      Source.Compares X expected.toList path c p k i b b' s.source t.source := by
  induction left with
  | zero =>
    intro k s b hs hbefore hlength
    obtain ⟨t, ht, hread, hrun⟩ := exists_runFrom_lookAhead hs expected k 0
    refine ⟨k, t, _, ?_, .here hs ⟨by omega, hbefore, fun _ => hlength⟩ ht hread⟩
    rw [hrun]
    cases agrees X expected.toList p k <;> rfl
  | succ left ih =>
    intro k s b hs hbefore hlength
    obtain ⟨t, ht, hread, hrun⟩ := exists_runFrom_lookAhead hs expected k (left + 1)
    rw [hrun]
    cases hagrees : agrees X expected.toList p k with
    | false =>
      exact ⟨k, t, _, by rw [hagrees]; rfl,
        .here hs ⟨by omega, hbefore, fun h => by rw [hagrees] at h; cases h⟩ ht hread⟩
    | true =>
      -- one more place agrees, so that the rest is told by the same statement
      have hbefore' : ∀ j < k + 1, agrees X expected.toList p j = true := fun j hj =>
        (Nat.lt_succ_iff_lt_or_eq.1 hj).elim (hbefore j) fun h => h ▸ hagrees
      obtain ⟨i, u, b', hrest, hcompares⟩ := ih ht hbefore' (by omega)
      exact ⟨i, u, b', hrest, hcompares.next hs hread⟩

end Evaluation

/-! ## Literals -/

theorem Sequence.items?_of_ofElements {v : Value} {expected : Sequence}
    (h : ofElements v = .ok expected) : v.items? = some expected.toList := by
  cases v <;> cases h <;> rfl

/-- The rule that a literal makes stands for it, and the literal has items to compare with. -/
theorem Rule.exists_of_makeSeq {content : Value} {rule : Rule} (h : makeSeq content = .ok rule) :
    rule = .literal content ∧ ∃ expected, Sequence.ofElements content = .ok expected ∧
      content.items? = some expected.toList ∧ expected.toList.length = expected.size ∧
      expected.size ≠ 0 := by
  obtain ⟨n, hn, h⟩ := Except.of_bind_eq_ok h
  by_cases hzero : n = 0
  · subst hzero
    cases h
  · simp only [hzero, if_false] at h
    cases h
    obtain ⟨expected, hexpected, hsize⟩ := Sequence.ofElements_of_length hn
    exact ⟨rfl, expected, hexpected, Sequence.items?_of_ofElements hexpected, expected.length_toList,
      hsize ▸ hzero⟩

namespace Evaluation

/-- A literal is consumed as a whole if all of it comes next, and nothing of it if not. -/
theorem exists_runFrom_literal {s : State} {b : Buffer} {content : Value} {expected : Sequence}
    (hs : s.source.Sees X path c p b) (hexpected : Sequence.ofElements content = .ok expected)
    (hlength : expected.toList.length = expected.size) (hsize : expected.size ≠ 0) :
    ∃ i t, ComparedTo X expected.toList p i ∧
      (literal path c content).runFrom s =
        (.ok (if Begins X expected.toList p then .single content else .noMatch), t) ∧
      t.source.positionOf c =
        (if Begins X expected.toList p then p + expected.toList.length else p : Nat) ∧
      (s.source.after (longerReads path c 1 (i + 1) ++ if Begins X expected.toList p then
        [⟨path, c, .consume expected.toList.length⟩] else [])).Matches t.source ∧
      ∀ m, s.source.buffer.PulledAtMost m → t.source.buffer.PulledAtMost (max m (p + i + 1)) := by
  obtain ⟨left, hleft⟩ := Nat.exists_eq_succ_of_ne_zero hsize
  obtain ⟨i, t, b', hlook, hcompares⟩ :=
    exists_compares_lookAhead expected left (k := 0) hs nofun (by omega)
  rw [Nat.succ_eq_add_one] at hleft
  have hpulled : ∀ m, s.source.buffer.PulledAtMost m →
      t.source.buffer.PulledAtMost (max m (p + i + 1)) := fun m hm =>
    hcompares.sees.pulledAtMost_iff.1 (hcompares.pulled m (hs.pulledAtMost_iff.2 hm))
  have hbegins := hcompares.compared.begins_iff
  have hrun : (literal path c content).runFrom s =
      ((if agrees X expected.toList p i then do
          onSource (Source.consume c expected.size)
          return .single content
        else return .noMatch : Evaluation Outcome)).runFrom t := by
    rw [literal, hexpected]
    show ((pure expected : Evaluation Sequence) >>= _).runFrom s = _
    rw [pure_bind, runFrom_bind, hleft, hlook]
  rw [hrun]
  by_cases hall : Begins X expected.toList p
  · -- all that was read waits, so that consuming it is not refused
    simp only [if_pos hall, if_pos (hbegins.1 hall)]
    obtain ⟨u, hconsume, hposition, hasked, hkept⟩ :=
      hcompares.sees.onSource_consume (hcompares.waits (hbegins.1 hall))
    rw [hlength] at hconsume
    refine ⟨i, u, hcompares.compared, ?_, hposition, ?_, fun m hm => hkept _ (hpulled m hm)⟩
    · rw [runFrom_bind, hconsume]
      rfl
    · rw [Source.after_append]
      exact (hcompares.asked.after _).trans hasked
  · simp only [if_neg hall, if_neg (mt hbegins.2 hall), List.append_nil]
    exact ⟨i, t, hcompares.compared, rfl, hcompares.sees.position_eq, hcompares.asked, hpulled⟩

end Evaluation

/-- Over a source with some items, a literal is matched at an open cursor exactly if its items come next,
wherever the cursor stands and whatever was done before, in forks and by rules. Then the literal itself
is the value, and the cursor has moved on by as many items as it has; if not, the cursor has not moved.
The items are compared up to the first place where they differ or the input ends, and up to there alone
the cursor is read: of a feed with an item in each element no more is pulled than brings the item at that
place. -/
theorem evaluates_literal {made : Source} (hmade : made.Fresh X path) (acts : List Action) {s : State}
    (hs : s.source = made.acted acts) (hopen : s.source.isClosed c = false) {content : Value}
    {rule : Rule} (hmake : Rule.makeSeq content = .ok rule) (g : Grammar) (arg : Value) :
    ∃ (ws : List Value) (p i : Nat) (t : State),
      content.items? = some ws ∧ s.source.positionOf c = p ∧ ComparedTo X ws p i ∧
      g.Evaluates path rule c arg s (.ok (if Begins X ws p then .single content else .noMatch)) t ∧
      t.source.positionOf c = (if Begins X ws p then p + ws.length else p : Nat) ∧
      (s.source.after (longerReads path c 1 (i + 1) ++
        if Begins X ws p then [⟨path, c, .consume ws.length⟩] else [])).Matches t.source ∧
      ∀ m, s.source.buffer.PulledAtMost m → t.source.buffer.PulledAtMost (max m (p + i + 1)) := by
  obtain ⟨rfl, expected, hexpected, hitems, hlength, hsize⟩ := Rule.exists_of_makeSeq hmake
  obtain ⟨p, b, hsees⟩ := hmade.sees acts (hs ▸ hopen)
  rw [← hs] at hsees
  obtain ⟨i, t, hcompared, hrun, hposition, hasked, hpulled⟩ :=
    Evaluation.exists_runFrom_literal hsees hexpected hlength hsize
  exact ⟨expected.toList, p, i, t, hitems, hsees.position_eq, hcompared, ⟨1, hrun⟩, hposition, hasked,
    hpulled⟩

/-- A feed of four numbers. -/
def fourNumbers : Source :=
  .ofFeed ([.int 1, .int 2, .int 3, .int 4].map .value) false .blocking

/-- A fork of the root consumes the first one. -/
def onFork : List Action :=
  [.request ⟨.blocking, .root, .fork⟩, .request ⟨.blocking, .fork 0, .read 1⟩,
    .request ⟨.blocking, .fork 0, .consume 1⟩]

/-- Of three numbers the second is another one than the input's, the next of which is never pulled. -/
theorem evaluates_literal_fourNumbers :
    fourNumbers.Fresh [.int 1, .int 2, .int 3, .int 4] .blocking ∧
    (fourNumbers.acted onFork).isClosed (.fork 0) = false ∧
    Rule.makeSeq (.list [.int 2, .int 9, .int 4]) = .ok (.literal (.list [.int 2, .int 9, .int 4])) ∧
    ∃ t, Grammar.empty.Evaluates .blocking (.literal (.list [.int 2, .int 9, .int 4])) (.fork 0) .none
        ⟨fourNumbers.acted onFork, .empty⟩ (.ok .noMatch) t ∧
      t.source.positionOf (.fork 0) = 1 ∧ t.source.buffer.PulledAtMost 3 := by
  have hfresh : fourNumbers.Fresh [.int 1, .int 2, .int 3, .int 4] .blocking :=
    .feed (.ofItems _) fun h => h
  have hopen : (fourNumbers.acted onFork).isClosed (.fork 0) = false := rfl
  have hmake : Rule.makeSeq (.list [.int 2, .int 9, .int 4]) =
      .ok (.literal (.list [.int 2, .int 9, .int 4])) := rfl
  obtain ⟨ws, p, i, t, hitems, hposition, hcompared, hevaluates, hmoved, -, hpulled⟩ :=
    evaluates_literal hfresh onFork (s := ⟨fourNumbers.acted onFork, .empty⟩) rfl hopen hmake .empty .none
  refine ⟨hfresh, hopen, hmake, t, ?_⟩
  cases hitems
  obtain rfl : p = 1 := Int.ofNat.inj (hposition.symm.trans rfl)
  have hfew : ¬ Begins [.int 1, .int 2, .int 3, .int 4] [.int 2, .int 9, .int 4] 1 := by decide
  have hsecond : i ≤ 1 := by
    by_contra hlater
    exact absurd (hcompared.before 1 (by omega)) (by decide)
  rw [if_neg hfew] at hevaluates hmoved
  exact ⟨hevaluates, hmoved, (hpulled 1 ⟨rfl, le_refl 1⟩).mono (by omega)⟩

namespace Source

open Backtrack.Stream (trimThreshold)

/-- A feed that brings a single chunk, with one item more than `n`. -/
def oneChunk (n : Nat) : Source := .ofFeed [.value (.list (.replicate (n + 1) .none))] true .blocking

/-- The root is taken past `n` items, and then back by one. -/
def takeBack (n : Nat) : List Operation :=
  [.read .blocking .root 1, .consume .root n, .consume .root (-1)]

theorem consume_ofChunk {n : Nat} (hn : 1024 ≤ n) :
    ((ofChunk (n + 1)).consume n).1 = ⟨[], 1, true, .blocking, #[.none], 0, false⟩ := by
  have hmany : trimThreshold ≤ 0 + (n : Int) := by
    rw [trimThreshold]
    omega
  rw [ofChunk_eq (by omega), Stream.consume, Stream.trim, if_pos ⟨hmany, by simp; omega⟩]
  simp

/-- Where many items are consumed they are dropped, so that the root that is taken back then stands before
all that is held. -/
theorem exists_didAll_takeBack {n : Nat} (hn : 1024 ≤ n) : ∃ events,
    (oneChunk n).didAll (takeBack n) =
      ⟨.stream ⟨[], 1, true, .blocking, #[.none], -1, false⟩, n + -1, #[], events⟩ := by
  have hread : ∃ events, (oneChunk n).did (.read .blocking .root 1) =
      ⟨.stream (ofChunk (n + 1)), 0, #[], events⟩ := by
    rw [did, Operation.run, snd_runOn_bind_pure (Source.read .blocking .root 1) (fun _ => ()),
      runOn_read rfl]
    exact ⟨_, rfl⟩
  have hwaits : consumeFailure? (.stream (ofChunk (n + 1))) 0 n = none := by
    have havailable : (Buffer.stream (ofChunk (n + 1))).available = (n + 1 : Nat) :=
      available_ofChunk (by omega)
    rw [consumeFailure?, Buffer.countFailure?, havailable]
    exact if_neg (by omega)
  obtain ⟨events, hread⟩ := hread
  have hconsume := runOn_consumeRoot (s := ⟨.stream (ofChunk (n + 1)), 0, #[], events⟩) hwaits
  have hdropped : ((Buffer.stream (ofChunk (n + 1))).consume n).1 =
      .stream ⟨[], 1, true, .blocking, #[.none], 0, false⟩ := congrArg Buffer.stream (consume_ofChunk hn)
  have hrun : (oneChunk n).didAll (takeBack n) = ((consumeRoot (-1)).runOn
      ((consumeRoot n).runOn ((oneChunk n).did (.read .blocking .root 1))).2).2 := rfl
  rw [hrun, hread, hconsume]
  dsimp only
  rw [hdropped, Int.zero_add]
  exact ⟨_, rfl⟩

end Source

/-- Over a range with more members than a length can tell, the root refuses to consume what comes next.
And a root that was taken back, by an amount below zero, may stand before all items that its stream still
holds, so that it does not find them any more. -/
theorem not_evaluates_literal :
    (Rule.makeSeq (.list [.int 0]) = .ok (.literal (.list [.int 0])) ∧
      Begins (Sequence.range 0 (2 ^ 63) 1).toList [.int 0] 0 ∧
      ((Evaluation.eval .empty .blocking 1 (.literal (.list [.int 0])) .root .none).runFrom
        (.ofSource (.ofData (.range 0 (2 ^ 63) 1)))).1 = .error (.failed .lengthTooLarge)) ∧
    ((Source.oneChunk 1024).didAll (Source.takeBack 1024)).positionOf .root = (1023 : Nat) ∧
    Begins (.replicate 1025 .none) [.none] 1023 ∧
    ((Evaluation.eval .empty .blocking 1 (.literal (.list [.none])) .root .none).runFrom
      (.ofSource ((Source.oneChunk 1024).didAll (Source.takeBack 1024)))).1 = .ok .noMatch := by
  obtain ⟨events, htakeBack⟩ := Source.exists_didAll_takeBack (le_refl 1024)
  refine ⟨⟨rfl, fun k hk => ?_, rfl⟩, ?_⟩
  · obtain rfl : k = 0 := by simpa using hk
    rw [agrees, ← Sequence.get?_eq_getElem?_toList]
    rfl
  · rw [htakeBack]
    exact ⟨rfl, by decide +kernel, rfl⟩

end Backtrack
