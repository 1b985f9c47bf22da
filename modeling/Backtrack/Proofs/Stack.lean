/-
Cursors as a stack of positions. Where a cursor rests while a fork of it is in use, the root and the
forks in use are a stack, and all that a run of requests shows of them is what a machine shows that
keeps nothing but their positions over one fixed list of items, and how many of these are buffered.
What is read, where cursors stand and which requests are refused depends on nothing else: neither on
how the buffer is filled nor on when it drops what was consumed.
-/
import Backtrack.Proofs.Motion
import Backtrack.Proofs.Streaming
import Mathlib
namespace Backtrack

/-! ## Requests -/

/-- What is asked of a cursor. -/
inductive Request where
  | read (n : Nat)
  | consume (n : Nat)
  | fork
  | join
  | close

/-- What a request gives. -/
inductive Answer where
  | items (vs : List Value)
  | cursor (c : Cursor)
  | done

/-- A step of a run. The cursor in use, the youngest that was neither joined nor closed nor given
up, is asked for something; one that was joined or closed before is; or the cursor in use is given up
for good. -/
inductive Move where
  | use (r : Request)
  | stale (index : Nat) (r : Request)
  | abandon

/-- What is seen of a run after a step: the answer, the positions of the cursors that are alive, the
youngest first and the root last, and up to where items are buffered. -/
structure Observation where
  answer : Except Failure Answer
  positions : List Int
  buffered : Int

/-! ## The stack machine -/

/-- The position of the cursor in use, those of the cursors below it, the nearest first, how many
cursors were joined or closed, and up to where items are buffered. -/
structure Stack where
  top : Nat
  below : List Nat
  closed : Nat
  buffered : Nat

namespace Stack

/-- A step of the machine over the items `X`. A read makes the items that it gives buffered, and
possibly more; nothing else depends on what lies behind it. -/
inductive Step (X : List Value) : Stack → Move → Except Failure Answer → Stack → Prop where
  | read {S : Stack} (n b : Nat) (hmore : S.buffered ≤ b) (hread : min (S.top + n) X.length ≤ b)
    (hb : b ≤ X.length) :
    Step X S (.use (.read n)) (.ok (.items ((X.drop S.top).take n))) { S with buffered := b }
  | consume {S : Stack} (n : Nat) (h : S.top + n ≤ S.buffered) :
    Step X S (.use (.consume n)) (.ok .done) { S with top := S.top + n }
  | refused {S : Stack} (n : Nat) (h : S.buffered < S.top + n) :
    Step X S (.use (.consume n)) (.error (Source.cannotConsume n (S.buffered - S.top))) S
  | fork {S : Stack} (c : Cursor) :
    Step X S (.use .fork) (.ok (.cursor c)) { S with below := S.top :: S.below }
  | join {S : Stack} (p : Nat) (rest : List Nat) (h : S.below = p :: rest) :
    Step X S (.use .join) (.ok .done) { S with below := rest, closed := S.closed + 1 }
  | joinRoot {S : Stack} (h : S.below = []) : Step X S (.use .join) (.ok .done) S
  | close {S : Stack} (p : Nat) (rest : List Nat) (h : S.below = p :: rest) :
    Step X S (.use .close) (.ok .done) { S with top := p, below := rest, closed := S.closed + 1 }
  | closeRoot {S : Stack} (h : S.below = []) :
    Step X S (.use .close) (.error (Source.onlyForks "close")) S
  | abandon {S : Stack} (p : Nat) (rest : List Nat) (h : S.below = p :: rest) :
    Step X S .abandon (.ok .done) { S with top := p, below := rest }
  | abandonRoot {S : Stack} (h : S.below = []) : Step X S .abandon (.ok .done) S
  | stale {S : Stack} (index : Nat) (r : Request) (h : index < S.closed) (hr : r ≠ .close) :
    Step X S (.stale index r) (.error Source.forkClosed) S
  | staleClose {S : Stack} (index : Nat) (h : index < S.closed) :
    Step X S (.stale index .close) (.ok .done) S
  | missing {S : Stack} (index : Nat) (r : Request) (h : S.closed ≤ index) :
    Step X S (.stale index r) (.ok .done) S

/-- What may be seen of a run of the machine. -/
inductive Trace (X : List Value) : Stack → List Move → List Observation → Prop where
  | nil (S : Stack) : Trace X S [] []
  | cons {S S' : Stack} {m : Move} {moves : List Move} {answer : Except Failure Answer}
    {seen : List Observation} (h : Step X S m answer S') (hrest : Trace X S' moves seen) :
    Trace X S (m :: moves) (⟨answer, (S'.top :: S'.below).map Nat.cast, S'.buffered⟩ :: seen)

theorem Trace.of_cons {X : List Value} {S : Stack} {m : Move} {moves : List Move} {o : Observation}
    {seen : List Observation} (h : Trace X S (m :: moves) (o :: seen)) :
    ∃ S', Step X S m o.answer S' ∧ Trace X S' moves seen := by
  cases h with
  | cons hstep hrest => exact ⟨_, hstep, hrest⟩

end Stack

/-! ## Cursors in use -/

/-- Asks a cursor for something. The root has nothing to be closed. -/
def Request.perform (path : Path) (c : Cursor) : Request → SourceM Answer
  | read n => do return .items (← Source.read path c n).toList
  | consume n => do
    Source.consume c n
    return .done
  | fork => return .cursor (← Source.fork c)
  | join => do
    Source.join c
    return .done
  | close =>
    match c with
    | .root => throw (Source.onlyForks "close")
    | .fork _ => do
      Source.close c
      return .done

/-- A source with its forks in use, each a fork of the next and the last one of the root, and the
forks that were joined or closed. -/
structure Cursors where
  source : Source
  live : List Cursor
  closed : List Cursor

namespace Cursors

/-- The cursor in use. -/
def top (t : Cursors) : Cursor := t.live.headD .root

/-- The cursors after the one in use was joined or closed, unless that is the root. -/
def release (t : Cursors) : Cursors :=
  match t.live with
  | [] => t
  | c :: live => { t with live := live, closed := c :: t.closed }

/-- The cursors after a request of the one in use has given an answer. -/
def after (t : Cursors) : Request → Except Failure Answer → Cursors
  | .fork, .ok (.cursor c) => { t with live := c :: t.live }
  | .join, .ok _ | .close, .ok _ => t.release
  | _, _ => t

/-- A step of a run. -/
def step (path : Path) (t : Cursors) : Move → Except Failure Answer × Cursors
  | .use r =>
    let (answer, s) := (r.perform path t.top).runOn t.source
    (answer, ({ t with source := s }).after r answer)
  | .stale index r =>
    match t.closed[index]? with
    | none => (.ok .done, t)
    | some c =>
      let (answer, s) := (r.perform path c).runOn t.source
      (answer, { t with source := s })
  | .abandon => (.ok .done, { t with live := t.live.tail })

/-- The positions of the cursors that are alive, the youngest first. -/
def positions (t : Cursors) : List Int := (t.live ++ [Cursor.root]).map t.source.positionOf

/-- What is seen of a run. -/
def trace (path : Path) : List Move → Cursors → List Observation
  | [], _ => []
  | m :: moves, t =>
    let (answer, u) := t.step path m
    ⟨answer, u.positions, u.source.position + u.source.buffer.available⟩ :: trace path moves u

end Cursors

/-! ## What a buffer holds -/

theorem Sequence.length_toList (s : Sequence) : s.toList.length = s.size := by
  have h := fun i => s.get?_eq_getElem?_toList i
  refine le_antisymm ?_ ?_
  · exact List.getElem?_eq_none_iff.1 ((h s.size).symm.trans (get?_eq_none_iff.2 (le_refl _)))
  · exact get?_eq_none_iff.1 ((h _).trans (List.getElem?_eq_none_iff.2 (le_refl _)))

namespace Buffer

/-- The buffer holds the items `X` from position `p` on, and can be read on the path. -/
inductive Holds (X : List Value) (path : Path) : Buffer → Nat → Prop where
  | memory {data : Sequence} (h : data.toList = X) (p : Nat) : Holds X path (.memory data p) p
  | stream {s : Stream} {p : Nat} (hpath : s.path = .suspending → path = .suspending)
    (h : s.Ahead (X.drop p)) : Holds X path (.stream s) p

variable {X : List Value} {path : Path} {b : Buffer} {p o n : Nat}

theorem Holds.countFailure? (h : Holds X path b p) : b.countFailure? = none := by
  cases h with
  | memory h p => rfl
  | stream hpath h => rfl

/-- What is not buffered yet lies behind what is. -/
theorem Holds.buffered_le (h : Holds X path b p) (hp : p ≤ X.length) :
    0 ≤ b.available ∧ p + b.available ≤ X.length := by
  cases h with
  | @memory data h p =>
    rw [← h, Sequence.length_toList] at hp ⊢
    simp only [available]
    omega
  | @stream s p hpath h =>
    obtain ⟨hnonneg, hle, pending, -, hitems⟩ := h
    have hlength := congrArg List.length hitems
    simp only [List.length_drop, List.length_append, Array.length_toList] at hlength
    simp only [available, Stream.available]
    omega

/-- A fill makes what is asked for buffered, or all there is. -/
theorem Holds.fill (h : Holds X path b p) (hp : p ≤ X.length) (amount : Int) :
    (b.fill path amount).2.2 = none ∧ Holds X path (b.fill path amount).1 p ∧
    b.available ≤ (b.fill path amount).1.available ∧
    (amount ≤ (b.fill path amount).1.available ∨
      p + (b.fill path amount).1.available = X.length) := by
  cases h with
  | @memory data h p =>
    refine ⟨rfl, .memory h p, le_refl _, .inr ?_⟩
    rw [← h, Sequence.length_toList]
    simp only [Buffer.fill, available]
    omega
  | @stream s p hpath h =>
    obtain ⟨hfailure, hpath', hahead, hmore, henough⟩ := h.fill hpath amount
    refine ⟨hfailure, .stream (by rwa [hpath']) hahead, hmore, henough.imp_right fun hall => ?_⟩
    rw [List.length_drop] at hall
    simp only [Buffer.fill, available]
    omega

/-- A slice shows the items between its bounds, fewer only at the end of all. -/
theorem Holds.slice (h : Holds X path b p)
    (henough : ((o + n : Nat) : Int) ≤ b.available ∨ p + b.available = X.length) :
    ∃ items, b.slice o (o + n) = .ok items ∧ items.toList = (X.drop (p + o)).take n := by
  cases h with
  | @memory data h p =>
    refine ⟨data.slice (p + o : Nat) (p + (o + n) : Nat), ?_, List.ext_getElem? fun k => ?_⟩
    · simp only [Buffer.slice]
      push_cast
      rfl
    · rw [← Sequence.get?_eq_getElem?_toList, Sequence.get?_slice, List.getElem?_take,
        List.getElem?_drop, ← h, Sequence.get?_eq_getElem?_toList]
      by_cases hk : k < n
      · rw [if_pos (by omega), if_pos hk]
      · rw [if_neg (by omega), if_neg hk]
  | @stream s p hpath h =>
    obtain ⟨m, hm⟩ := Int.eq_ofNat_of_zero_le h.head_nonneg
    refine ⟨_, rfl, List.ext_getElem? fun k => ?_⟩
    have hitem := h.getElem?_items (o + k)
    have hslice := Sequence.get?_slice (.items .list s.items) (m + o) (m + (o + n)) k
    rw [hm] at hitem ⊢
    push_cast at hslice hitem
    rw [← Sequence.get?_eq_getElem?_toList, hslice, List.getElem?_take]
    by_cases hk : k < n
    · rw [if_pos (by omega), if_pos hk, List.getElem?_drop]
      show s.items[m + o + k]? = _
      rw [Nat.add_assoc]
      refine hitem.trans ?_
      rw [List.getElem?_drop, ← Nat.add_assoc]
      split
      · rfl
      · -- fewer items wait than were asked for, so there are no more
        rename_i hwaits
        refine (List.getElem?_eq_none ?_).symm
        simp only [available] at henough
        omega
    · rw [if_neg (by omega), if_neg hk]

theorem Holds.consume (h : Holds X path b p) (hn : (n : Int) ≤ b.available) :
    Holds X path (b.consume n).1 (p + n) ∧ (b.consume n).1.available = b.available - n := by
  cases h with
  | @memory data h p =>
    have hmoved : Holds X path (.memory data (p + n : Nat)) (p + n) := .memory h (p + n)
    refine ⟨by simpa [Buffer.consume] using hmoved, ?_⟩
    simp only [Buffer.consume, available]
    omega
  | @stream s p hpath h =>
    obtain ⟨hahead, havailable⟩ := h.consume (Int.natCast_nonneg n) hn
    rw [List.drop_drop, Int.toNat_natCast] at hahead
    have hpath' : (s.consume n).1.path = .suspending → path = .suspending := by
      rwa [Stream.path_consume]
    exact ⟨.stream hpath' hahead, havailable⟩

end Buffer

/-! ## Forks in use -/

namespace Source

variable {s u : Source} {ds : List Cursor}

/-- The cursors are open forks, each of the next one and the last of the root. -/
inductive Chain (s : Source) : List Cursor → Prop where
  | root : Chain s []
  | fork {id : Nat} {ds : List Cursor} (hopen : s.isClosed (.fork id) = false)
    (hparent : (s.forkAt id).parent = parentOf (ds.headD .root)) (hnew : Cursor.fork id ∉ ds)
    (h : Chain s ds) : Chain s (.fork id :: ds)

theorem Chain.isOpen (h : Chain s ds) : s.isClosed (ds.headD .root) = false := by
  cases h with
  | root => rfl
  | fork hopen _ _ _ => exact hopen

theorem Chain.lt_size (h : Chain s ds) {id : Nat} (hid : Cursor.fork id ∈ ds) :
    id < s.forks.size := by
  induction h with
  | root => cases hid
  | fork hopen _ _ _ ih =>
    rcases List.mem_cons.1 hid with heq | hid
    · cases heq
      exact lt_size_of_open hopen
    · exact ih hid

/-- A chain stays one while its forks are left alone. -/
theorem Chain.congr (h : Chain s ds)
    (hsame : ∀ id, Cursor.fork id ∈ ds → u.forkAt id = s.forkAt id) : Chain u ds := by
  induction h with
  | root => exact .root
  | @fork id ds hopen hparent hnew _ ih =>
    have hid := hsame id List.mem_cons_self
    refine .fork ?_ ?_ hnew (ih fun other hother => hsame other (List.mem_cons_of_mem _ hother))
    · rw [isClosed, hid]
      exact hopen
    · rw [hid]
      exact hparent

theorem fork_mem_of_mem_append {id : Nat} (h : Cursor.fork id ∈ ds ++ [Cursor.root]) :
    Cursor.fork id ∈ ds := by
  rcases List.mem_append.1 h with h | h
  · exact h
  · cases List.mem_singleton.1 h

/-- So do the positions of its forks, while the root stands still. -/
theorem map_positionOf_congr (hposition : u.position = s.position)
    (hsame : ∀ id, Cursor.fork id ∈ ds → u.forkAt id = s.forkAt id) :
    ds.map u.positionOf = ds.map s.positionOf := by
  refine List.map_congr_left fun c hc => ?_
  cases c with
  | root => rw [positionOf, positionOf, hposition]; rfl
  | fork id => rw [positionOf, positionOf, hposition, offset, offset, hsame id hc]

theorem Chain.eq_nil_or (h : Chain s ds) : ds = [] ∨ ∃ id rest, ds = .fork id :: rest := by
  cases h with
  | root => exact .inl rfl
  | fork _ _ _ _ => exact .inr ⟨_, _, rfl⟩

theorem Chain.of_cons {id : Nat} (h : Chain s (.fork id :: ds)) :
    s.isClosed (.fork id) = false ∧ (s.forkAt id).parent = parentOf (ds.headD .root) ∧
      Cursor.fork id ∉ ds ∧ Chain s ds := by
  cases h with
  | fork hopen hparent hnew hrest => exact ⟨hopen, hparent, hnew, hrest⟩

/-- The cursor is a fork that was joined or closed. -/
def IsSpent (s : Source) (c : Cursor) : Prop :=
  ∃ id, c = .fork id ∧ id < s.forks.size ∧ (s.forkAt id).closed = true

theorem IsSpent.isClosed {c : Cursor} (h : s.IsSpent c) : s.isClosed c = true := by
  obtain ⟨id, rfl, -, hclosed⟩ := h
  exact hclosed

theorem IsSpent.congr {c : Cursor} (h : s.IsSpent c) (hsize : s.forks.size ≤ u.forks.size)
    (hsame : ∀ id < s.forks.size, (s.forkAt id).closed = true → (u.forkAt id).closed = true) :
    u.IsSpent c := by
  obtain ⟨id, rfl, hid, hclosed⟩ := h
  exact ⟨id, rfl, lt_of_lt_of_le hid hsize, hsame id hid hclosed⟩

/-- Moving a fork, or closing it, opens no other. -/
theorem IsSpent.setFork {c : Cursor} (h : s.IsSpent c) (id : Nat) {f : Fork → Fork}
    (hf : ∀ x, x.closed = true → (f x).closed = true) : (s.setFork id f).IsSpent c := by
  refine h.congr (by simp) fun other hother hclosed => ?_
  by_cases hne : id = other
  · subst hne
    rw [forkAt_setFork_self hother]
    exact hf _ hclosed
  · rw [forkAt_setFork_ne s hne]
    exact hclosed

end Source

namespace Cursors

open Source

/-- The cursors over the items `X` stand where the stack says. No cursor stands before the one below
it, and none behind what is buffered. -/
structure Represents (X : List Value) (path : Path) (t : Cursors) (S : Stack) : Prop where
  position_nonneg : 0 ≤ t.source.position
  holds : t.source.buffer.Holds X path t.source.position.toNat
  positions : t.positions = (S.top :: S.below).map Nat.cast
  sorted : (S.top :: S.below).Pairwise (· ≥ ·)
  buffered : t.source.position + t.source.buffer.available = S.buffered
  top_le : S.top ≤ S.buffered
  buffered_le : S.buffered ≤ X.length
  chain : t.source.Chain t.live
  closed : ∀ c ∈ t.closed, t.source.IsSpent c
  count : t.closed.length = S.closed

namespace Represents

variable {X : List Value} {path : Path} {t : Cursors} {S : Stack}

theorem positionOf_top (h : t.Represents X path S) : t.source.positionOf t.top = S.top := by
  have hpositions := h.positions
  cases hlive : t.live with
  | nil =>
    simp only [Cursors.positions, hlive, List.nil_append, List.map_cons] at hpositions
    rw [top, hlive]
    exact (List.cons.inj hpositions).1
  | cons c live =>
    simp only [Cursors.positions, hlive, List.cons_append, List.map_cons] at hpositions
    rw [top, hlive]
    exact (List.cons.inj hpositions).1

/-- The root stands below all others. -/
theorem position_le_top (h : t.Represents X path S) : t.source.position ≤ S.top := by
  have hroot : t.source.position ∈ t.positions := by
    refine List.mem_map.2 ⟨.root, by simp, ?_⟩
    simp [positionOf, offset]
  rw [h.positions] at hroot
  obtain ⟨p, hp, hcast⟩ := List.mem_map.1 hroot
  have hle : p ≤ S.top := by
    rcases List.mem_cons.1 hp with rfl | hp
    · exact le_refl _
    · exact List.rel_of_pairwise_cons h.sorted hp
  omega

/-- The offset of the cursor in use is a number of items. -/
theorem offset_top (h : t.Represents X path S) :
    ∃ o : Nat, t.source.offset t.top = o ∧ t.source.position.toNat + o = S.top := by
  have hposition := h.positionOf_top
  have hle := h.position_le_top
  have hnonneg := h.position_nonneg
  rw [positionOf] at hposition
  exact ⟨S.top - t.source.position.toNat, by omega, by omega⟩

theorem isOpen (h : t.Represents X path S) : t.source.isClosed t.top = false := h.chain.isOpen

theorem position_le_length (h : t.Represents X path S) :
    t.source.position.toNat ≤ X.length := by
  have := h.position_le_top
  have := h.top_le
  have := h.buffered_le
  omega

/-- Why the cursor in use cannot consume so many items, if it cannot. -/
theorem consumeFailure? (h : t.Represents X path S) (n : Nat) :
    Source.consumeFailure? t.source.buffer (t.source.offset t.top) n =
      if S.buffered < S.top + n then some (cannotConsume n (S.buffered - S.top)) else none := by
  have hposition := h.positionOf_top
  have hbuffered := h.buffered
  rw [positionOf] at hposition
  rw [Source.consumeFailure?, h.holds.countFailure?]
  dsimp only
  by_cases hlt : S.buffered < S.top + n
  · rw [if_pos hlt, if_pos (by omega), show t.source.buffer.available - t.source.offset t.top =
      (S.buffered : Int) - S.top by omega]
  · rw [if_neg hlt, if_neg (by omega)]

/-- What is told of the forks, and what is not seen at all, may change. -/
theorem of_same (h : t.Represents X path S) {u : Source} (hbuffer : u.buffer = t.source.buffer)
    (hposition : u.position = t.source.position)
    (hsize : u.forks.size = t.source.forks.size)
    (hforks : ∀ id, u.forkAt id = t.source.forkAt id) :
    Represents X path { t with source := u } S := by
  refine ⟨?_, ?_, ?_, h.sorted, ?_, h.top_le, h.buffered_le, h.chain.congr fun id _ => hforks id, ?_,
    h.count⟩
  · exact hposition ▸ h.position_nonneg
  · simp only [hbuffer, hposition]
    exact h.holds
  · rw [← h.positions]
    exact map_positionOf_congr hposition fun id _ => hforks id
  · simp only [hbuffer, hposition]
    exact h.buffered
  · intro c hc
    refine (h.closed c hc).congr (le_of_eq hsize.symm) fun id _ hclosed => ?_
    rw [hforks]
    exact hclosed

/-- The stack has cursors below the one in use if there are forks in use. -/
theorem below_eq (h : t.Represents X path S) :
    (t.live = [] ∧ S.below = []) ∨
      ∃ c live p rest, t.live = c :: live ∧ S.below = p :: rest := by
  have hlength := congrArg List.length h.positions
  simp only [Cursors.positions, List.length_map, List.length_append, List.length_cons,
    List.length_nil] at hlength
  cases hlive : t.live with
  | nil =>
    rw [hlive, List.length_nil] at hlength
    exact .inl ⟨rfl, List.length_eq_zero_iff.1 (by omega)⟩
  | cons c live =>
    rw [hlive, List.length_cons] at hlength
    cases hbelow : S.below with
    | nil =>
      rw [hbelow, List.length_nil] at hlength
      omega
    | cons p rest => exact .inr ⟨c, live, p, rest, rfl, rfl⟩

/-! ### Steps -/

theorem read (h : t.Represents X path S) (n : Nat) : ∃ S',
    S.Step X (.use (.read n)) (t.step path (.use (.read n))).1 S' ∧
    Represents X path (t.step path (.use (.read n))).2 S' := by
  obtain ⟨o, ho, htop⟩ := h.offset_top
  have hp := h.position_le_length
  have hnonneg := h.position_nonneg
  have hbuffered := h.buffered
  have hle := h.top_le
  obtain ⟨hfailure, hholds, hmore, henough⟩ := h.holds.fill hp (o + n)
  obtain ⟨hnonneg', hle'⟩ := hholds.buffered_le hp
  have henough' : ((o + n : Nat) : Int) ≤ (t.source.buffer.fill path (o + n)).1.available ∨
      t.source.position.toNat + (t.source.buffer.fill path (o + n)).1.available = X.length := by
    push_cast
    exact henough
  obtain ⟨items, hslice, hitems⟩ := hholds.slice henough'
  have hrun : ((Request.read n).perform path t.top).runOn t.source =
      (.ok (.items ((X.drop S.top).take n)), { t.source with
        buffer := (t.source.buffer.fill path (o + n)).1
        events := t.source.events ++ (t.source.buffer.fill path (o + n)).2.1 }) := by
    simp only [Request.perform, SourceM.runOn_bind, runOn_read h.isOpen, ho, hfailure, hslice]
    rw [← htop, ← hitems]
    rfl
  have hstep : t.step path (.use (.read n)) = (.ok (.items ((X.drop S.top).take n)),
      { t with source := { t.source with
        buffer := (t.source.buffer.fill path (o + n)).1
        events := t.source.events ++ (t.source.buffer.fill path (o + n)).2.1 } }) := by
    rw [Cursors.step, hrun]
    rfl
  rw [hstep]
  refine ⟨_, .read n (t.source.position.toNat +
    (t.source.buffer.fill path (o + n)).1.available.toNat) (by omega) (by omega) (by omega), ?_⟩
  refine ⟨hnonneg, hholds, h.positions, h.sorted, ?_, ?_, ?_,
    h.chain.congr fun _ _ => rfl, h.closed, h.count⟩
  · dsimp only
    omega
  · dsimp only
    omega
  · dsimp only
    omega

/-- What is buffered beyond a root that moves on stays buffered. -/
theorem consume_root (h : t.Represents X path S) (hlive : t.live = []) (n : Nat)
    (hn : S.top + n ≤ S.buffered) :
    ∃ u, (Source.consume t.top n).runOn t.source = (.ok (), u) ∧
      Represents X path { t with source := u } { S with top := S.top + n } := by
  have htop : t.top = .root := by rw [top, hlive]; rfl
  have hposition := h.positionOf_top
  have hbuffered := h.buffered
  have hpositions := h.positions
  have hbelow : S.below = [] := by
    rcases h.below_eq with ⟨-, hbelow⟩ | ⟨c, live, p, rest, hlive', -⟩
    · exact hbelow
    · rw [hlive] at hlive'
      cases hlive'
  have hfailure := h.consumeFailure? n
  rw [if_neg (by omega), htop] at hfailure
  simp only [htop, positionOf, offset, Int.add_zero] at hposition
  obtain ⟨hholds, havailable⟩ := h.holds.consume (n := n) (by omega)
  refine ⟨_, by rw [htop]; exact runOn_consumeRoot hfailure, ?_⟩
  have hnat : (t.source.position + n).toNat = t.source.position.toNat + n := by omega
  refine ⟨?_, ?_, ?_, ?_, ?_, hn, h.buffered_le, ?_, h.closed, h.count⟩
  · dsimp only
    omega
  · dsimp only
    rw [hnat]
    exact hholds
  · simp only [Cursors.positions, hlive, hbelow, List.nil_append, List.map_cons, List.map_nil,
      positionOf, offset]
    push_cast
    rw [hposition]
    simp
  · simp [hbelow]
  · dsimp only
    rw [havailable]
    omega
  · rw [hlive]
    exact .root

theorem consume_fork (h : t.Represents X path S) {id : Nat} {live : List Cursor}
    (hlive : t.live = .fork id :: live) (n : Nat) (hn : S.top + n ≤ S.buffered) :
    ∃ u, (Source.consume t.top n).runOn t.source = (.ok (), u) ∧
      Represents X path { t with source := u } { S with top := S.top + n } := by
  have htop : t.top = .fork id := by rw [top, hlive]; rfl
  have hfailure := h.consumeFailure? n
  have hpositions := h.positions
  have hsorted := h.sorted
  have hchain := h.chain
  rw [if_neg (by omega), htop] at hfailure
  rw [hlive] at hchain
  obtain ⟨hopen, hparent, hnew, hchain⟩ := hchain.of_cons
  have hid := lt_size_of_open hopen
  have hself : ∀ other, Cursor.fork other ∈ live ++ [Cursor.root] →
      (t.source.setFork id fun f => { f with offset := f.offset + n }).forkAt other =
        t.source.forkAt other := by
    intro other hother
    refine forkAt_setFork_ne _ ?_ _
    rintro rfl
    exact hnew (fork_mem_of_mem_append hother)
  refine ⟨_, by rw [htop]; exact runOn_consume_fork hopen hfailure, ?_⟩
  refine ⟨h.position_nonneg, h.holds, ?_, ?_, h.buffered, hn, h.buffered_le, ?_, ?_, h.count⟩
  · simp only [Cursors.positions, hlive, List.cons_append, List.map_cons] at hpositions ⊢
    rw [map_positionOf_congr (position_setFork _ _ _) hself, (List.cons.inj hpositions).2]
    have hposition := (List.cons.inj hpositions).1
    simp only [positionOf, offset, forkAt_setFork_self hid, position_setFork] at hposition ⊢
    push_cast
    rw [← hposition, Int.add_assoc]
  · refine List.pairwise_cons.2 ⟨fun p hp => ?_, (List.pairwise_cons.1 hsorted).2⟩
    exact Nat.le_add_right_of_le ((List.pairwise_cons.1 hsorted).1 p hp)
  · rw [hlive]
    refine .fork ?_ ?_ hnew (hchain.congr fun other hother => hself other (List.mem_append_left _ hother))
    · rw [isClosed, forkAt_setFork_self hid]
      exact hopen
    · rw [forkAt_setFork_self hid]
      exact hparent
  · exact fun c hc => (h.closed c hc).setFork id fun _ h => h

theorem consume (h : t.Represents X path S) (n : Nat) : ∃ S',
    S.Step X (.use (.consume n)) (t.step path (.use (.consume n))).1 S' ∧
    Represents X path (t.step path (.use (.consume n))).2 S' := by
  by_cases hn : S.top + n ≤ S.buffered
  · have hconsumed : ∃ u, (Source.consume t.top n).runOn t.source = (.ok (), u) ∧
        Represents X path { t with source := u } { S with top := S.top + n } := by
      rcases h.chain.eq_nil_or with hlive | ⟨id, live, hlive⟩
      · exact h.consume_root hlive n hn
      · exact h.consume_fork hlive n hn
    obtain ⟨u, hrun, hu⟩ := hconsumed
    have hstep : t.step path (.use (.consume n)) = (.ok .done, { t with source := u }) := by
      simp only [Cursors.step, Request.perform, SourceM.runOn_bind, hrun]
      rfl
    rw [hstep]
    exact ⟨_, .consume n hn, hu⟩
  · -- a refusal changes nothing
    have hfailure := h.consumeFailure? n
    rw [if_pos (by omega)] at hfailure
    have hrun : (Source.consume t.top n).runOn t.source =
        (.error (cannotConsume n (S.buffered - S.top)), t.source) := by
      rcases h.chain.eq_nil_or with hlive | ⟨id, live, hlive⟩
      · have htop : t.top = .root := by rw [top, hlive]; rfl
        rw [htop] at hfailure ⊢
        exact runOn_consumeRoot_of_some hfailure
      · have htop : t.top = .fork id := by rw [top, hlive]; rfl
        have hopen := h.isOpen
        rw [htop] at hfailure hopen ⊢
        exact runOn_consume_fork_of_some hopen hfailure
    have hstep : t.step path (.use (.consume n)) =
        (.error (cannotConsume n (S.buffered - S.top)), t) := by
      simp only [Cursors.step, Request.perform, SourceM.runOn_bind, hrun]
      rfl
    rw [hstep]
    exact ⟨_, .refused n (by omega), h⟩

theorem fork (h : t.Represents X path S) : ∃ S',
    S.Step X (.use .fork) (t.step path (.use .fork)).1 S' ∧
    Represents X path (t.step path (.use .fork)).2 S' := by
  have hopen := h.isOpen
  have hpositions := h.positions
  have hstep : t.step path (.use .fork) = (.ok (.cursor (.fork t.source.forks.size)),
      { t with
        source := t.source.addFork t.top
        live := .fork t.source.forks.size :: t.live }) := by
    simp only [Cursors.step, Request.perform, SourceM.runOn_bind, runOn_fork hopen]
    rfl
  have hold : ∀ id, Cursor.fork id ∈ t.live ++ [Cursor.root] →
      (t.source.addFork t.top).forkAt id = t.source.forkAt id :=
    fun id hid => forkAt_addFork_old (h.chain.lt_size (fork_mem_of_mem_append hid)) _
  rw [hstep]
  refine ⟨_, .fork _, ⟨h.position_nonneg, h.holds, ?_, ?_, h.buffered, h.top_le, h.buffered_le, ?_, ?_,
    h.count⟩⟩
  · simp only [Cursors.positions, List.cons_append, List.map_cons] at hpositions ⊢
    rw [map_positionOf_congr (position_addFork _ _) hold, hpositions, ← h.positionOf_top]
    simp [positionOf, offset, forkAt_addFork_new]
  · refine List.pairwise_cons.2 ⟨fun p hp => ?_, h.sorted⟩
    rcases List.mem_cons.1 hp with rfl | hp
    · exact le_refl _
    · exact (List.pairwise_cons.1 h.sorted).1 p hp
  · refine .fork ?_ ?_ ?_ (h.chain.congr fun id hid => hold id (List.mem_append_left _ hid))
    · simp [isClosed, forkAt_addFork_new]
    · simp [forkAt_addFork_new, top]
    · intro hmem
      exact absurd (h.chain.lt_size hmem) (lt_irrefl _)
  · refine fun c hc => (h.closed c hc).congr (by simp) fun id hid hclosed => ?_
    rw [forkAt_addFork_old hid]
    exact hclosed

/-- The cursors below the one in use stand where the rest of the stack says. -/
theorem positions_tail (h : t.Represents X path S) {c : Cursor} {live : List Cursor}
    (hlive : t.live = c :: live) :
    (live ++ [Cursor.root]).map t.source.positionOf = S.below.map Nat.cast := by
  have hpositions := h.positions
  simp only [Cursors.positions, hlive, List.cons_append, List.map_cons] at hpositions
  exact (List.cons.inj hpositions).2

/-- Leaving the cursor in use for the one below it, whether it is closed or not. -/
theorem of_drop (h : t.Represents X path S) {c : Cursor} {live : List Cursor} {p : Nat}
    {rest : List Nat} (hlive : t.live = c :: live) (hbelow : S.below = p :: rest) {u : Source}
    {closed : List Cursor} {k : Nat} (hbuffer : u.buffer = t.source.buffer)
    (hposition : u.position = t.source.position)
    (hforks : ∀ id, Cursor.fork id ∈ live → u.forkAt id = t.source.forkAt id)
    (hclosed : ∀ c ∈ closed, u.IsSpent c) (hcount : closed.length = k) :
    Represents X path ⟨u, live, closed⟩ ⟨p, rest, k, S.buffered⟩ := by
  have hsorted := h.sorted
  have hchain := h.chain
  have htail := h.positions_tail hlive
  have htop := h.top_le
  rw [hbelow] at hsorted htail
  have hle := (List.pairwise_cons.1 hsorted).1 p List.mem_cons_self
  refine ⟨hposition ▸ h.position_nonneg, ?_, ?_, (List.pairwise_cons.1 hsorted).2, ?_, ?_,
    h.buffered_le, ?_, hclosed, hcount⟩
  · simp only [hbuffer, hposition]
    exact h.holds
  · rw [← htail]
    exact map_positionOf_congr hposition fun id hid => hforks id (fork_mem_of_mem_append hid)
  · simp only [hbuffer, hposition]
    exact h.buffered
  · dsimp only
    omega
  · rw [hlive] at hchain
    cases hchain with
    | fork _ _ _ hrest => exact hrest.congr hforks

theorem abandon (h : t.Represents X path S) : ∃ S',
    S.Step X .abandon (t.step path .abandon).1 S' ∧
    Represents X path (t.step path .abandon).2 S' := by
  rcases h.below_eq with ⟨hlive, hbelow⟩ | ⟨c, live, p, rest, hlive, hbelow⟩
  · have hstep : t.step path .abandon = (.ok .done, t) := by
      simp only [Cursors.step, hlive, List.tail_nil]
      rw [← hlive]
    rw [hstep]
    exact ⟨_, .abandonRoot hbelow, h⟩
  · have hstep : t.step path .abandon = (.ok .done, { t with live := live }) := by
      simp only [Cursors.step, hlive, List.tail_cons]
    rw [hstep]
    exact ⟨_, .abandon p rest hbelow, h.of_drop hlive hbelow rfl rfl (fun _ _ => rfl) h.closed h.count⟩

/-- With the fork that is closed now, all that were joined or closed are spent. -/
theorem isSpent_of_mem (h : t.Represents X path S) {id : Nat} (hid : id < t.source.forks.size)
    {c : Cursor} (hc : c ∈ .fork id :: t.closed) :
    (t.source.setFork id fun f => { f with closed := true }).IsSpent c := by
  rcases List.mem_cons.1 hc with rfl | hc
  · exact ⟨id, rfl, by simpa using hid, by rw [forkAt_setFork_self hid]⟩
  · exact (h.closed c hc).setFork id fun _ _ => rfl

theorem close (h : t.Represents X path S) : ∃ S',
    S.Step X (.use .close) (t.step path (.use .close)).1 S' ∧
    Represents X path (t.step path (.use .close)).2 S' := by
  rcases h.below_eq with ⟨hlive, hbelow⟩ | ⟨c, live, p, rest, hlive, hbelow⟩
  · have htop : t.top = .root := by rw [top, hlive]; rfl
    have hstep : t.step path (.use .close) = (.error (onlyForks "close"), t) := by
      simp only [Cursors.step, htop, Request.perform, SourceM.runOn_throw]
      rfl
    rw [hstep]
    exact ⟨_, .closeRoot hbelow, h⟩
  · have hchain := h.chain
    rw [hlive] at hchain
    cases hchain with
    | @fork id _ hopen _ hnew _ =>
      have htop : t.top = .fork id := by rw [top, hlive]; rfl
      have hid := lt_size_of_open hopen
      have hstep : t.step path (.use .close) = (.ok .done,
          ⟨t.source.setFork id fun f => { f with closed := true }, live, .fork id :: t.closed⟩) := by
        simp only [Cursors.step, htop, Request.perform, SourceM.runOn_bind, runOn_close_fork,
          SourceM.runOn_pure, after, release, hlive]
      rw [hstep]
      refine ⟨_, .close p rest hbelow, h.of_drop hlive hbelow rfl rfl (fun other hother => ?_)
        (fun c hc => h.isSpent_of_mem hid hc) (by simp [h.count])⟩
      refine forkAt_setFork_ne _ ?_ _
      rintro rfl
      exact hnew hother

/-- A fork of the root makes the root go on to where it stands. -/
theorem join_root (h : t.Represents X path S) {id : Nat} (hlive : t.live = [.fork id]) :
    ∃ u, (Source.join t.top).runOn t.source = (.ok (), u) ∧
      Represents X path ⟨u, [], .fork id :: t.closed⟩ ⟨S.top, [], S.closed + 1, S.buffered⟩ := by
  have htop : t.top = .fork id := by rw [top, hlive]; rfl
  obtain ⟨o, ho, hposition⟩ := h.offset_top
  have hnonneg := h.position_nonneg
  have hbuffered := h.buffered
  have hle := h.top_le
  have hchain := h.chain
  rw [hlive] at hchain
  rw [htop] at ho
  cases hchain with
  | fork hopen hparent _ _ =>
    have hid := lt_size_of_open hopen
    set w := t.source.setFork id fun f => { f with closed := true } with hw
    have hfailure : Source.consumeFailure? w.buffer 0 (t.source.forkAt id).offset = none := by
      have hcount : w.buffer.countFailure? = none := h.holds.countFailure?
      rw [Source.consumeFailure?, hcount]
      dsimp only
      rw [if_neg]
      simp only [offset] at ho
      simp only [hw, buffer_setFork, ho]
      omega
    obtain ⟨hholds, havailable⟩ := h.holds.consume (n := o) (by omega)
    simp only [offset] at ho
    refine ⟨_, by rw [htop, runOn_join_of_root hopen hparent, runOn_consumeRoot hfailure], ?_⟩
    simp only [ho, hw, buffer_setFork, position_setFork]
    have hnat : (t.source.position + o).toNat = t.source.position.toNat + o := by omega
    refine ⟨?_, ?_, ?_, by simp, ?_, hle, h.buffered_le, .root, fun c hc => ?_, by simp [h.count]⟩
    · dsimp only
      omega
    · dsimp only
      rw [hnat]
      exact hholds
    · simp only [Cursors.positions, List.nil_append, List.map_cons, List.map_nil, positionOf, offset]
      simp
      omega
    · dsimp only
      rw [havailable]
      omega
    · have hspent : w.IsSpent c := h.isSpent_of_mem hid hc
      exact hspent.congr (le_refl _) fun _ _ h => h

/-- A fork of a fork makes that one go on to where it stands. -/
theorem join_fork (h : t.Represents X path S) {id parent : Nat} {live : List Cursor}
    (hlive : t.live = .fork id :: .fork parent :: live) {p : Nat} {rest : List Nat}
    (hbelow : S.below = p :: rest) :
    ∃ u, (Source.join t.top).runOn t.source = (.ok (), u) ∧
      Represents X path ⟨u, .fork parent :: live, .fork id :: t.closed⟩
        ⟨S.top, rest, S.closed + 1, S.buffered⟩ := by
  have htop : t.top = .fork id := by rw [top, hlive]; rfl
  have hpositions := h.positions_tail hlive
  have hposition := h.positionOf_top
  have hsorted := h.sorted
  have hchain := h.chain
  rw [hlive] at hchain
  rw [hbelow] at hpositions hsorted
  cases hchain with
  | fork hopen hparent hnew hrest =>
    have hid := lt_size_of_open hopen
    have hne : id ≠ parent := by
      rintro rfl
      exact hnew List.mem_cons_self
    cases hrest with
    | fork hopen' hparent' hnew' hrest =>
      have hparentId := lt_size_of_open hopen'
      set w := t.source.setFork id fun f => { f with closed := true } with hw
      have hparentId' : parent < w.forks.size := by simpa [hw] using hparentId
      refine ⟨_, by rw [htop, runOn_join_of_fork hopen hparent hne hopen'], ?_⟩
      -- only the two forks have changed
      have hself : ∀ other, Cursor.fork other ∈ live ++ [Cursor.root] →
          (w.setFork parent fun f => { f with offset := (t.source.forkAt id).offset }).forkAt other =
            t.source.forkAt other := by
        intro other hother
        have hmem := fork_mem_of_mem_append hother
        have hother' : parent ≠ other := by
          rintro rfl
          exact hnew' hmem
        have hother'' : id ≠ other := by
          rintro rfl
          exact hnew (List.mem_cons_of_mem _ hmem)
        rw [forkAt_setFork_ne w hother', hw, forkAt_setFork_ne _ hother'']
      refine ⟨h.position_nonneg, h.holds, ?_, ?_, h.buffered, h.top_le, h.buffered_le, ?_,
        fun c hc => ?_, by simp [h.count]⟩
      · simp only [Cursors.positions, List.cons_append, List.map_cons] at hpositions ⊢
        rw [map_positionOf_congr (by simp [hw]) hself, (List.cons.inj hpositions).2]
        rw [htop] at hposition
        congr 1
        rw [positionOf, offset, forkAt_setFork_self hparentId']
        exact hposition
      · refine List.pairwise_cons.2 ⟨fun q hq => ?_,
          (List.pairwise_cons.1 (List.pairwise_cons.1 hsorted).2).2⟩
        exact (List.pairwise_cons.1 hsorted).1 q (List.mem_cons_of_mem _ hq)
      · refine .fork ?_ ?_ hnew' (hrest.congr fun other hother =>
          hself other (List.mem_append_left _ hother))
        · rw [isClosed, forkAt_setFork_self hparentId', hw, forkAt_setFork_ne _ hne]
          exact hopen'
        · rw [forkAt_setFork_self hparentId', hw, forkAt_setFork_ne _ hne]
          exact hparent'
      · have hspent : w.IsSpent c := h.isSpent_of_mem hid hc
        exact hspent.setFork parent fun _ h => h

theorem join (h : t.Represents X path S) : ∃ S',
    S.Step X (.use .join) (t.step path (.use .join)).1 S' ∧
    Represents X path (t.step path (.use .join)).2 S' := by
  rcases h.below_eq with ⟨hlive, hbelow⟩ | ⟨c, live, p, rest, hlive, hbelow⟩
  · have htop : t.top = .root := by rw [top, hlive]; rfl
    have hstep : t.step path (.use .join) = (.ok .done, t) := by
      simp only [Cursors.step, htop, Request.perform, Source.join, SourceM.runOn_bind,
        SourceM.runOn_pure, after, release, hlive]
      rw [← hlive]
    rw [hstep]
    exact ⟨_, .joinRoot hbelow, h⟩
  · have hjoined : ∃ u, (Source.join t.top).runOn t.source = (.ok (), u) ∧
        Represents X path ⟨u, live, c :: t.closed⟩ ⟨S.top, rest, S.closed + 1, S.buffered⟩ := by
      have hchain := h.chain
      rw [hlive] at hchain
      cases hchain with
      | fork _ _ _ hrest =>
        rcases hrest.eq_nil_or with rfl | ⟨parent, below, rfl⟩
        · have htail := congrArg List.length (h.positions_tail hlive)
          rw [hbelow] at htail
          simp only [List.nil_append, List.map_cons, List.map_nil, List.length_cons,
            List.length_nil, List.length_map] at htail
          obtain rfl : rest = [] := List.length_eq_zero_iff.1 (by omega)
          exact h.join_root hlive
        · exact h.join_fork hlive hbelow
    obtain ⟨u, hrun, hu⟩ := hjoined
    have hstep : t.step path (.use .join) = (.ok .done, ⟨u, live, c :: t.closed⟩) := by
      simp only [Cursors.step, Request.perform, SourceM.runOn_bind, hrun, SourceM.runOn_pure, after,
        release, hlive]
    rw [hstep]
    exact ⟨_, .join p rest hbelow, hu⟩

/-- A fork that was joined or closed refuses everything but to be closed again. -/
theorem stale (h : t.Represents X path S) (index : Nat) (r : Request) : ∃ S',
    S.Step X (.stale index r) (t.step path (.stale index r)).1 S' ∧
    Represents X path (t.step path (.stale index r)).2 S' := by
  cases hfork : t.closed[index]? with
  | none =>
    have hstep : t.step path (.stale index r) = (.ok .done, t) := by
      simp only [Cursors.step, hfork]
    rw [hstep]
    exact ⟨_, .missing index r (h.count ▸ List.getElem?_eq_none_iff.1 hfork), h⟩
  | some c =>
    obtain ⟨hindex, -⟩ := List.getElem?_eq_some_iff.1 hfork
    rw [h.count] at hindex
    have hspent := h.closed c (List.mem_of_getElem? hfork)
    have hclosed := hspent.isClosed
    obtain ⟨id, rfl, hid, hid'⟩ := hspent
    have hrefused : ∀ r : Request, r ≠ .close →
        (r.perform path (.fork id)).runOn t.source = (.error forkClosed, t.source) := by
      intro r hr
      cases r with
      | read n => simp only [Request.perform, SourceM.runOn_bind, runOn_read_of_closed hclosed]
      | consume n => simp only [Request.perform, SourceM.runOn_bind, runOn_consume_of_closed hclosed]
      | fork => simp only [Request.perform, SourceM.runOn_bind, runOn_fork_of_closed hclosed]
      | join =>
        simp only [Request.perform, Source.join, SourceM.runOn_bind,
          runOn_checkOpen_of_closed hclosed]
      | close => exact absurd rfl hr
    by_cases hr : r = .close
    · subst hr
      have hstep : t.step path (.stale index .close) = (.ok .done,
          { t with source := t.source.setFork id fun f => { f with closed := true } }) := by
        simp only [Cursors.step, hfork, Request.perform, SourceM.runOn_bind, runOn_close_fork,
          SourceM.runOn_pure]
      rw [hstep]
      refine ⟨_, .staleClose index hindex, h.of_same rfl rfl (by simp) fun other => ?_⟩
      by_cases hne : id = other
      · subst hne
        rw [forkAt_setFork_self hid]
        generalize t.source.forkAt id = f at hid'
        cases f
        cases hid'
        rfl
      · exact forkAt_setFork_ne _ hne _
    · have hstep : t.step path (.stale index r) = (.error forkClosed, t) := by
        simp only [Cursors.step, hfork, hrefused r hr]
      rw [hstep]
      exact ⟨_, .stale index r hindex hr, h⟩

/-- Whatever the cursors do, the stack machine can do. -/
theorem step (h : t.Represents X path S) (m : Move) : ∃ S',
    S.Step X m (t.step path m).1 S' ∧ Represents X path (t.step path m).2 S' := by
  cases m with
  | use r =>
    cases r with
    | read n => exact h.read n
    | consume n => exact h.consume n
    | fork => exact h.fork
    | join => exact h.join
    | close => exact h.close
  | stale index r => exact h.stale index r
  | abandon => exact h.abandon

theorem trace (h : t.Represents X path S) (moves : List Move) :
    S.Trace X moves (Cursors.trace path moves t) := by
  induction moves generalizing t S with
  | nil => exact .nil S
  | cons m moves ih =>
    obtain ⟨S', hstep, hu⟩ := h.step m
    have hpositions := hu.positions
    have hbuffered := hu.buffered
    rw [Cursors.trace]
    simp only [hpositions, hbuffered]
    exact .cons hstep (ih hu)

end Represents

end Cursors

/-! ## Fresh sources -/

/-- A source at its start over the items `X`: all in memory, or brought by a feed that can be read on
the path. -/
inductive Source.Fresh (X : List Value) (path : Path) : Source → Prop where
  | memory {v : Value} {data : Sequence} (hv : Sequence.ofValue? v = some data)
    (hcount : v.countable = true) (hdata : data.toList = X) : Fresh X path (.ofData v)
  | feed {feed : List Element} {chunked : Bool} {feedPath : Path} (hfeed : Feeds chunked feed X)
    (hpath : feedPath = .suspending → path = .suspending) : Fresh X path (.ofFeed feed chunked feedPath)

theorem Source.Fresh.holds {X : List Value} {path : Path} {s : Source} (h : s.Fresh X path) :
    s.buffer.Holds X path 0 := by
  cases h with
  | memory hv hcount hdata =>
    rw [Source.ofData, Source.ofBuffer, Buffer.ofValue_eq_memory hv hcount]
    exact .memory hdata 0
  | feed hfeed hpath => exact .stream hpath (.ofFeed hfeed _)

theorem Source.Fresh.represents {X : List Value} {path : Path} {s : Source} (h : s.Fresh X path) :
    Cursors.Represents X path ⟨s, [], []⟩ ⟨0, [], 0, s.buffer.available.toNat⟩ := by
  have hholds := h.holds
  have hposition : s.position = 0 := by
    cases h with
    | memory _ _ _ => rfl
    | feed _ _ => rfl
  obtain ⟨hnonneg, hle⟩ := hholds.buffered_le (Nat.zero_le _)
  refine ⟨by simp [hposition], by simpa [hposition] using hholds, ?_, by simp, ?_, Nat.zero_le _, ?_,
    .root, by simp, rfl⟩
  · simp [Cursors.positions, Source.positionOf, Source.offset, hposition]
  · dsimp only
    omega
  · dsimp only
    omega

/-- The cursors over a fresh source are a stack of positions over its items: whatever run of
requests is made, in which no cursor is used while a fork of it is in use, what is read, which
requests are refused and where all cursors stand is what the stack machine shows. -/
theorem Cursors.trace_of_fresh {X : List Value} {path : Path} {s : Source} (h : s.Fresh X path)
    (moves : List Move) :
    Stack.Trace X ⟨0, [], 0, s.buffer.available.toNat⟩ moves
      (Cursors.trace path moves ⟨s, [], []⟩) :=
  h.represents.trace moves

/-- A fork reads ahead in chunks, consumes more than waits in vain, and is joined. -/
def lookingAhead : List Move :=
  [.use .fork, .use (.read 2), .use (.consume 2), .use (.consume 5), .use .join,
    .use (.read 5), .stale 0 (.read 1)]

theorem Cursors.trace_of_fresh_lookingAhead :
    Source.Fresh [.str [97], .str [98], .str [99]] .blocking
      (.ofFeed [.value (.str [97]), .value (.str []), .value (.str [98, 99])] true .blocking) ∧
    Stack.Trace [.str [97], .str [98], .str [99]] ⟨0, [], 0, 0⟩ lookingAhead
      [⟨.ok (.cursor (.fork 0)), [0, 0], 0⟩, ⟨.ok (.items [.str [97], .str [98]]), [0, 0], 3⟩,
        ⟨.ok .done, [2, 0], 3⟩, ⟨.error (Source.cannotConsume 5 1), [2, 0], 3⟩, ⟨.ok .done, [2], 3⟩,
        ⟨.ok (.items [.str [99]]), [2], 3⟩, ⟨.error Source.forkClosed, [2], 3⟩] := by
  have hfresh : Source.Fresh [.str [97], .str [98], .str [99]] .blocking
      (.ofFeed [.value (.str [97]), .value (.str []), .value (.str [98, 99])] true .blocking) :=
    .feed (Feeds.ofTexts [[97], [], [98, 99]]) fun h => h
  have htrace : Cursors.trace .blocking lookingAhead ⟨.ofFeed [.value (.str [97]),
      .value (.str []), .value (.str [98, 99])] true .blocking, [], []⟩ =
      [⟨.ok (.cursor (.fork 0)), [0, 0], 0⟩, ⟨.ok (.items [.str [97], .str [98]]), [0, 0], 3⟩,
        ⟨.ok .done, [2, 0], 3⟩, ⟨.error (Source.cannotConsume 5 1), [2, 0], 3⟩, ⟨.ok .done, [2], 3⟩,
        ⟨.ok (.items [.str [99]]), [2], 3⟩, ⟨.error Source.forkClosed, [2], 3⟩] := by
    cbv
  refine ⟨hfresh, ?_⟩
  rw [← htrace]
  exact trace_of_fresh hfresh lookingAhead

/-- Over a range with more members than a length can tell, the root takes over nothing from a
fork. -/
theorem Cursors.not_trace_longRange :
    ¬∃ X b, Stack.Trace X ⟨0, [], 0, b⟩ [.use .fork, .use .join]
      (Cursors.trace .blocking [.use .fork, .use .join] ⟨.ofData (.range 0 (2 ^ 63) 1), [], []⟩) := by
  have htrace : Cursors.trace .blocking [.use .fork, .use .join]
      ⟨.ofData (.range 0 (2 ^ 63) 1), [], []⟩ =
      [⟨.ok (.cursor (.fork 0)), [0, 0], 2 ^ 63⟩, ⟨.error .lengthTooLarge, [0, 0], 2 ^ 63⟩] := rfl
  rw [htrace]
  rintro ⟨X, b, h⟩
  obtain ⟨S, hfork, h⟩ := h.of_cons
  obtain ⟨S', hjoin, -⟩ := h.of_cons
  cases hfork
  cases hjoin

end Backtrack
