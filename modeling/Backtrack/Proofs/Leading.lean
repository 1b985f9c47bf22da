/-
The root and a fork of it, doing the same. The root consumes as it goes, and its stream may drop what
is consumed; the fork only counts how far it has got. So the buffer of the one leads the buffer of the
other, by as many items as the one root has moved on further than the other one. Every offset to the
root that has moved on is smaller by these, and nothing else differs: the same is pulled, the same
items show, and positions are the same, as they are counted from the start of the input. Forks made at
the root and at its fork inherit this.
-/
import Backtrack.Proofs.Pairing
namespace Backtrack

open Source (Inside Pulled consumeFailure?)

/-! ## Streams -/

namespace Stream

/-- Of the one stream `lead` more items are consumed than of the other, and some of the consumed ones
may be dropped. -/
structure Leads (lead : Int) (s s' : Stream) : Prop where
  feed : s'.feed = s.feed
  pulled : s'.pulled = s.pulled
  chunked : s'.chunked = s.chunked
  path : s'.path = s.path
  ended : s'.ended = s.ended
  items : ∃ dropped, s'.items = dropped ++ s.items ∧ s.head + dropped.size = s'.head + lead ∧
    (dropped = #[] ∨ 0 ≤ s.head)

variable {lead : Int} {s s' : Stream}

theorem Leads.refl (s : Stream) : Leads 0 s s :=
  ⟨rfl, rfl, rfl, rfl, rfl, #[], by simp, by simp, .inl rfl⟩

theorem Leads.available (h : Leads lead s s') : s'.available = s.available + lead := by
  obtain ⟨dropped, hitems, hhead, -⟩ := h.items
  simp only [Stream.available, hitems, Array.size_append]
  push_cast
  omega

theorem Leads.withFeed (h : Leads lead s s') (feed : List Element) :
    Leads lead { s with feed := feed } { s' with feed := feed } :=
  ⟨rfl, h.pulled, h.chunked, h.path, h.ended, h.items⟩

theorem Leads.advance (h : Leads lead s s') (rest : List Element) :
    Leads lead (s.advance rest) (s'.advance rest) :=
  ⟨rfl, congrArg (· + 1) h.pulled, h.chunked, h.path, h.ended, h.items⟩

theorem Leads.finish (h : Leads lead s s') : Leads lead s.finish.stream s'.finish.stream :=
  ⟨h.feed, h.pulled, h.chunked, h.path, rfl, h.items⟩

theorem Leads.append (h : Leads lead s s') (vs : List Value) :
    Leads lead { s with items := s.items ++ vs } { s' with items := s'.items ++ vs } := by
  obtain ⟨dropped, hitems, hhead, hdropped⟩ := h.items
  refine ⟨h.feed, h.pulled, h.chunked, h.path, h.ended, dropped, ?_, hhead, hdropped⟩
  simp only [hitems, ← Array.toList_inj, Array.toList_append, Array.toList_appendList,
    List.append_assoc]

/-- Both streams lack the same number of items, so both pull the same. -/
theorem Leads.pull (amount : Int) (feed : List Element) (h : Leads lead s s') :
    (Stream.pull (amount + lead) feed s').failure = (Stream.pull amount feed s).failure ∧
      Leads lead (Stream.pull amount feed s).stream (Stream.pull (amount + lead) feed s').stream := by
  have havailable := h.available
  induction feed generalizing s s' with
  | nil =>
    unfold Stream.pull
    by_cases hle : amount ≤ s.available
    · rw [if_pos hle, if_pos (by omega)]
      exact ⟨rfl, h.withFeed []⟩
    · rw [if_neg hle, if_neg (by omega)]
      exact ⟨rfl, (h.withFeed []).finish⟩
  | cons e rest ih =>
    unfold Stream.pull
    by_cases hle : amount ≤ s.available
    · rw [if_pos hle, if_pos (by omega)]
      exact ⟨rfl, h.withFeed _⟩
    · rw [if_neg hle, if_neg (by omega)]
      cases e with
      | stop => exact ⟨rfl, (h.advance rest).finish⟩
      | failing f => exact ⟨rfl, h.advance rest⟩
      | value v =>
        simp only [h.chunked]
        cases contribution s.chunked v with
        | error f => exact ⟨rfl, h.advance rest⟩
        | ok vs =>
          have hnext := (h.advance rest).append vs
          exact ih hnext hnext.available

theorem Leads.fill (h : Leads lead s s') (path : Path) (amount : Int) :
    (s'.fill path (amount + lead)).failure = (s.fill path amount).failure ∧
      Leads lead (s.fill path amount).stream (s'.fill path (amount + lead)).stream := by
  simp only [Stream.fill, h.path, h.ended, h.feed]
  split
  · exact ⟨rfl, h⟩
  · split
    · exact ⟨rfl, h⟩
    · exact h.pull amount s.feed

/-- Dropping consumed items changes nothing, if no more are consumed than there were. -/
theorem Leads.trim (h : Leads lead s s') (hs : 0 ≤ s.available) : Leads lead s.trim.1 s' := by
  unfold Stream.trim
  split
  · rename_i hmany
    obtain ⟨dropped, hitems, hhead, -⟩ := h.items
    have hnonneg : 0 ≤ s.head := le_trans (by decide) hmany.1
    rw [Stream.available] at hs
    refine ⟨h.feed, h.pulled, h.chunked, h.path, h.ended, dropped ++ s.items.extract 0 s.head.toNat,
      ?_, ?_, .inr (le_refl _)⟩
    · have hsize : s.head.toNat ≤ s.items.size := by omega
      simp [hitems, Array.append_assoc, Array.extract_append_extract, max_eq_right hsize]
    · simp only [Array.size_append, Array.size_extract]
      omega
  · exact h

theorem Leads.consume (h : Leads lead s s') {n : Int} (hn : 0 ≤ n) (hle : n ≤ s.available) :
    Leads (lead + n) (s.consume n).1 s' := by
  obtain ⟨dropped, hitems, hhead, hdropped⟩ := h.items
  have hmoved : Leads (lead + n) { s with head := s.head + n } s' := by
    refine ⟨h.feed, h.pulled, h.chunked, h.path, h.ended, dropped, hitems, ?_,
      hdropped.imp_right fun hnonneg => Int.add_nonneg hnonneg hn⟩
    simp only
    omega
  refine hmoved.trim ?_
  simp only [Stream.available] at hle ⊢
  omega

/-- At the same place, which is nearer to the one root than to the other one, the same items show. -/
theorem Leads.slice (h : Leads lead s s') {first last : Int} (hfirst : 0 ≤ first) (hle : first ≤ last) :
    (Buffer.stream s').slice (first + lead) (last + lead) = (Buffer.stream s).slice first last := by
  obtain ⟨dropped, hitems, hhead, rfl | hnonneg⟩ := h.items
  · have hsame : s'.items = s.items := by simpa using hitems
    have hplace : ∀ o, s'.head + (o + lead) = s.head + o := fun o => by
      simp only [List.size_toArray, List.length_nil] at hhead
      omega
    simp only [Buffer.slice, hsame, hplace]
  · -- both bounds lie behind what was dropped
    have hclip : ∀ o, 0 ≤ o → Sequence.clip (dropped.size + s.items.size) (s'.head + (o + lead)) =
        dropped.size + Sequence.clip s.items.size (s.head + o) := fun o ho => by
      rw [Sequence.clip_of_nonneg (by omega), Sequence.clip_of_nonneg (by omega)]
      omega
    simp only [Buffer.slice, Sequence.slice, Sequence.size, hitems, Array.size_append, hclip first hfirst,
      hclip last (le_trans hfirst hle), Array.extract_append]
    simp

end Stream

/-! ## Buffers -/

namespace Buffer

/-- Of the one buffer `lead` more items are consumed than of the other. -/
inductive Leads (lead : Int) : Buffer → Buffer → Prop where
  | memory (data : Sequence) {start start' : Int} (h : start = start' + lead) :
    Leads lead (.memory data start) (.memory data start')
  | irregular (data : Value) {start start' : Int} (h : start = start' + lead) :
    Leads lead (.irregular data start) (.irregular data start')
  | stream {s s' : Stream} (h : s.Leads lead s') : Leads lead (.stream s) (.stream s')

variable {lead : Int} {b b' : Buffer}

theorem Leads.refl (b : Buffer) : b.Leads 0 b := by
  cases b with
  | memory data start => exact .memory data (by simp)
  | irregular data start => exact .irregular data (by simp)
  | stream s => exact .stream (.refl s)

theorem Leads.available (h : b.Leads lead b') : b'.available = b.available + lead := by
  cases h with
  | memory data h =>
    simp only [Buffer.available]
    omega
  | irregular data h =>
    simp only [Buffer.available]
    omega
  | stream h => exact h.available

theorem Leads.countFailure? (h : b.Leads lead b') : b'.countFailure? = b.countFailure? := by
  cases h <;> rfl

theorem Leads.pulled? (h : b.Leads lead b') : b'.pulled? = b.pulled? := by
  cases h with
  | memory data h => rfl
  | irregular data h => rfl
  | stream h => exact congrArg some h.pulled

theorem Leads.fill (h : b.Leads lead b') (path : Path) (amount : Int) :
    (b'.fill path (amount + lead)).2.2 = (b.fill path amount).2.2 ∧
      (b.fill path amount).1.Leads lead (b'.fill path (amount + lead)).1 := by
  cases h with
  | memory data h => exact ⟨rfl, .memory data h⟩
  | irregular data h => exact ⟨rfl, .irregular data h⟩
  | stream h => exact ⟨(h.fill path amount).1, .stream (h.fill path amount).2⟩

theorem Leads.slice (h : b.Leads lead b') {first last : Int} (hfirst : 0 ≤ first) (hle : first ≤ last) :
    b'.slice (first + lead) (last + lead) = b.slice first last := by
  cases h with
  | @memory data start start' h =>
    have hplace : ∀ o, start' + (o + lead) = start + o := fun o => by omega
    simp only [Buffer.slice, hplace]
  | @irregular data start start' h =>
    have hplace : ∀ o, start' + (o + lead) = start + o := fun o => by omega
    simp only [Buffer.slice, hplace]
  | stream h => exact h.slice hfirst hle

theorem Leads.consume (h : b.Leads lead b') {n : Int} (hn : 0 ≤ n) (hle : n ≤ b.available) :
    (b.consume n).1.Leads (lead + n) b' := by
  cases h with
  | memory data h => exact .memory data (by omega)
  | irregular data h => exact .irregular data (by omega)
  | stream h => exact .stream (h.consume hn hle)

/-- From the same place the same can be consumed. -/
theorem Leads.consumeFailure? (h : b.Leads lead b') (offset amount : Int) :
    Source.consumeFailure? b' (offset + lead) amount = Source.consumeFailure? b offset amount := by
  have havailable := h.available
  have hrest : b'.available - (offset + lead) = b.available - offset := by omega
  simp only [Source.consumeFailure?, h.countFailure?, hrest]
  split
  · rfl
  · by_cases hless : b.available < offset + amount
    · rw [if_pos hless, if_pos (by omega)]
    · rw [if_neg hless, if_neg (by omega)]

end Buffer

/-! ## Cursors -/

namespace Source

/-- Open cursors stand at the same position, the second one being a fork. The first one may belong to a
root that has moved on further: what this root has consumed more is what its buffer leads by. -/
structure Shifted (d d' : Cursor) (s s' : Source) : Prop where
  buffer : s.buffer.Leads (s.position - s'.position) s'.buffer
  positionOf : s'.positionOf d' = s.positionOf d
  nonneg : 0 ≤ s.offset d
  within : s.offset d ≤ s.buffer.available
  countable : s.buffer.countFailure? = none
  isFork' : d' ≠ .root
  isOpen : s.isClosed d = false
  isOpen' : s'.isClosed d' = false

variable {d d' : Cursor} {s s' t t' : Source}

theorem Shifted.offset (h : Shifted d d' s s') :
    s'.offset d' = s.offset d + (s.position - s'.position) := by
  have hposition := h.positionOf
  simp only [Source.positionOf] at hposition
  omega

theorem Shifted.withEvents (h : Shifted d d' s s') (events events' : List Event) :
    Shifted d d' { s with events := events } { s' with events := events' } :=
  ⟨h.buffer, h.positionOf, h.nonneg, h.within, h.countable, h.isFork', h.isOpen, h.isOpen'⟩

/-- A root goes together with a fork that was made where it stands. -/
theorem Orderly.shifted_fork (h : s.Orderly) : Shifted .root (.fork s.forks.size) s (s.addFork .root) := by
  refine ⟨?_, ?_, le_refl _, h.nonneg, h.countable, nofun, rfl, ?_⟩
  · simpa using Buffer.Leads.refl s.buffer
  · exact positionOf_addFork_new s .root
  · simp [isClosed, forkAt_addFork_new]

theorem Shifted.addFork (h : Shifted d d' s s') :
    Shifted (.fork s.forks.size) (.fork s'.forks.size) (s.addFork d) (s'.addFork d') := by
  have hplace := offset_addFork_new s d
  refine ⟨h.buffer, ?_, hplace ▸ h.nonneg, hplace ▸ h.within, h.countable, nofun, ?_, ?_⟩
  · rw [positionOf_addFork_new, positionOf_addFork_new, h.positionOf]
  · simp [isClosed, forkAt_addFork_new]
  · simp [isClosed, forkAt_addFork_new]

/-- Both fill their buffers alike, and cut the same items out. -/
theorem Shifted.read (h : Shifted d d' s s') (path : Path) (n : Nat) :
    ∃ t', (Source.read path d' (n + 1)).runOn s' = (((Source.read path d (n + 1)).runOn s).1, t') ∧
      Shifted d d' ((Source.read path d (n + 1)).runOn s).2 t' := by
  obtain ⟨hfailure, hbuffer⟩ := h.buffer.fill path (s.offset d + (n + 1))
  have hplace : s'.offset d' + ((n : Int) + 1) =
      s.offset d + (n + 1) + (s.position - s'.position) := by
    have := h.offset
    omega
  rw [runOn_read h.isOpen, runOn_read h.isOpen', hplace, h.offset, hfailure]
  refine ⟨_, Prod.ext ?_ rfl, hbuffer, h.positionOf, h.nonneg,
    le_trans h.within (s.buffer.available_le_fill path _),
    (s.buffer.reaches_fill path _).countFailure?.trans h.countable, h.isFork', h.isOpen, h.isOpen'⟩
  cases (s.buffer.fill path (s.offset d + (n + 1))).2.2 with
  | some f => rfl
  | none => exact hbuffer.slice h.nonneg (by omega)

/-- A root that consumes leads by as much more. -/
theorem leads_consumeRoot {position' : Int} {b' : Buffer} (h : s.buffer.Leads (s.position - position') b')
    {n : Int} (hn : 0 ≤ n) (hnone : consumeFailure? s.buffer 0 n = none) :
    ((consumeRoot n).runOn s).2.buffer.Leads (((consumeRoot n).runOn s).2.position - position') b' := by
  have hle : n ≤ s.buffer.available := by simpa using le_available_of_consumeFailure? hnone
  have hlead := h.consume hn hle
  rw [runOn_consumeRoot hnone]
  rwa [show s.position + n - position' = s.position - position' + n by omega]

/-- A cursor that cannot consume is left as it is. -/
theorem runOn_consume_of_some {c : Cursor} {amount : Int} {f : Failure} (hc : s.isClosed c = false)
    (h : consumeFailure? s.buffer (s.offset c) amount = some f) :
    (consume c amount).runOn s = (.error f, s) := by
  cases c with
  | root => exact runOn_consumeRoot_of_some h
  | fork id => exact runOn_consume_fork_of_some hc h

/-- A cursor that can consume moves on by as much. -/
theorem runOn_consume_of_none {c : Cursor} {amount : Int} (hc : s.isClosed c = false)
    (h : consumeFailure? s.buffer (s.offset c) amount = none) :
    ((consume c amount).runOn s).1 = .ok () ∧
      ((consume c amount).runOn s).2.positionOf c = s.positionOf c + amount := by
  cases c with
  | root =>
    rw [show consume .root amount = consumeRoot amount from rfl, runOn_consumeRoot h]
    exact ⟨rfl, by simp [positionOf, Source.offset]⟩
  | fork id =>
    rw [runOn_consume_fork hc h]
    exact ⟨rfl, by simp [positionOf, Source.offset, forkAt_setFork_self (lt_size_of_open hc), add_assoc]⟩

/-- Both consume the same, or neither does. -/
theorem Shifted.consume (h : Shifted d d' s s') (n : Nat) :
    ∃ t', (Source.consume d' n).runOn s' = (((Source.consume d n).runOn s).1, t') ∧
      Shifted d d' ((Source.consume d n).runOn s).2 t' := by
  have hsame : consumeFailure? s'.buffer (s'.offset d') n = consumeFailure? s.buffer (s.offset d) n := by
    rw [h.offset]
    exact h.buffer.consumeFailure? _ _
  cases hfailure : consumeFailure? s.buffer (s.offset d) n with
  | some f =>
    rw [hfailure] at hsame
    rw [runOn_consume_of_some h.isOpen hfailure, runOn_consume_of_some h.isOpen' hsame]
    exact ⟨s', rfl, h⟩
  | none =>
    rw [hfailure] at hsame
    obtain ⟨hok, hposition⟩ := runOn_consume_of_none h.isOpen hfailure
    obtain ⟨hok', hposition'⟩ := runOn_consume_of_none h.isOpen' hsame
    have hmoved := moved_consume d n s
    refine ⟨((Source.consume d' n).runOn s').2, Prod.ext (hok'.trans hok.symm) rfl, ?_, ?_, ?_,
      hmoved.within h.within, hmoved.countFailure?.trans h.countable, h.isFork',
      hmoved.isClosed.trans h.isOpen, (moved_consume d' n s').isClosed.trans h.isOpen'⟩
    · -- the fork leaves its buffer alone
      cases d' with
      | root => exact absurd rfl h.isFork'
      | fork id' =>
        rw [runOn_consume_fork h.isOpen' hsame]
        cases d with
        | root => exact leads_consumeRoot h.buffer (Int.natCast_nonneg n) hfailure
        | fork id =>
          rw [runOn_consume_fork h.isOpen hfailure]
          exact h.buffer
    · rw [hposition, hposition', h.positionOf]
    · cases d with
      | root => exact le_refl _
      | fork id =>
        have hnonneg := h.nonneg
        rw [runOn_consume_fork h.isOpen hfailure]
        simp only [Source.offset, forkAt_setFork_self (lt_size_of_open h.isOpen)] at hnonneg ⊢
        omega

end Source

/-! ## Runs at both -/

namespace Pairing

open Source (Shifted leads_consumeRoot)

/-- The pairing of cursors at the same position, the one root having moved on further. -/
def shift : Pairing := ⟨Shifted, False⟩

variable {d d' : Cursor} {s s' t t' : Source}

/-- What was paired is paired however far its forks have got. -/
theorem Nested.shifted (h : shift.Nested d d' s s' t t') : Shifted d d' t t' := by
  obtain ⟨houter, hforked, hforked', hinner⟩ := h
  have hinside := hforked.toMoved.inside
  have hinside' := hforked'.toMoved.inside
  have hmoved := hinside.parent_moved
  refine ⟨hinner.buffer, ?_, ?_, hmoved.within houter.within, hinner.countable, houter.isFork',
    hmoved.isClosed.trans houter.isOpen, hinside'.parent_moved.isClosed.trans houter.isOpen'⟩
  · rw [hinside.positionOf_parent, hinside'.positionOf_parent, houter.positionOf]
  · exact hinside.offset_parent ▸ houter.nonneg

/-- The forks may be closed. -/
theorem Nested.shifted_close (h : shift.Nested d d' s s' t t') :
    Shifted d d' ((Source.close (.fork s.forks.size)).runOn t).2
      ((Source.close (.fork s'.forks.size)).runOn t').2 := by
  have hleft := h.shifted
  have hmoved : Source.Moved d s ((Source.close (.fork s.forks.size)).runOn t).2 :=
    Source.Motion.closed h.forked.toMoved
  have hmoved' : Source.Moved d' s' ((Source.close (.fork s'.forks.size)).runOn t').2 :=
    Source.Motion.closed h.forked'.toMoved
  rw [Source.runOn_close_fork] at hmoved hmoved' ⊢
  rw [Source.runOn_close_fork]
  have hplace := Source.offset_setFork_younger h.forked.isOpen (le_refl _) t
    fun f => { f with closed := true }
  have hplace' := Source.offset_setFork_younger h.forked'.isOpen (le_refl _) t'
    fun f => { f with closed := true }
  refine ⟨hleft.buffer, ?_, hplace ▸ hleft.nonneg, hplace ▸ hleft.within, hleft.countable,
    hleft.isFork', hmoved.isClosed.trans h.outer.isOpen, hmoved'.isClosed.trans h.outer.isOpen'⟩
  have hposition := hleft.positionOf
  simp only [Source.positionOf] at hposition ⊢
  rw [hplace, hplace']
  exact hposition

/-- Both take over where their forks stand, which the root does by consuming. -/
theorem Nested.shifted_join (h : shift.Nested d d' s s' t t') :
    ∃ u', (Source.join (.fork s'.forks.size)).runOn t' =
        (((Source.join (.fork s.forks.size)).runOn t).1, u') ∧
      Shifted d d' ((Source.join (.fork s.forks.size)).runOn t).2 u' := by
  have hinside := h.forked.toMoved.inside
  have hinside' := h.forked'.toMoved.inside
  have hinner := h.inner
  cases d' with
  | root => exact absurd rfl h.outer.isFork'
  | fork id' =>
    have hjoin := hinside.join
    have hjoin' := hinside'.join
    obtain ⟨hok', hbuffer', hposition', -⟩ := hinside'.runOn_join
    have hok := hjoin.succeeds hinner.countable hinner.within
    refine ⟨((Source.join (.fork s'.forks.size)).runOn t').2, Prod.ext (hok'.trans hok.symm) rfl, ?_,
      ?_, ?_, hjoin.within hok hinner.within, hjoin.moved.countFailure?.trans h.outer.countable, nofun,
      hjoin.moved.isClosed.trans h.outer.isOpen, hjoin'.moved.isClosed.trans h.outer.isOpen'⟩
    · rw [hbuffer', hposition']
      cases d with
      | root =>
        have hcount : Source.consumeFailure? t.buffer 0 (t.forkAt s.forks.size).offset = none := by
          have hwithin := hinner.within
          rw [Source.offset] at hwithin
          simp [Source.consumeFailure?, hinner.countable, hwithin]
        rw [Source.runOn_join_of_root hinside.isClosed_fork hinside.parent_fork]
        exact leads_consumeRoot (s := t.setFork s.forks.size fun f => { f with closed := true })
          hinner.buffer hinner.nonneg hcount
      | fork id =>
        obtain ⟨-, hbuffer, hposition, -⟩ := hinside.runOn_join
        rw [hbuffer, hposition]
        exact hinner.buffer
    · rw [hjoin.position hok, hjoin'.position hok', hinner.positionOf]
    · cases d with
      | root => exact le_refl _
      | fork id =>
        obtain ⟨-, -, -, hoffset⟩ := hinside.runOn_join
        rw [hoffset]
        exact hinner.nonneg

instance : shift.Lawful where
  settle h := Shifted.withEvents h [] []
  isClosed h := h.isOpen'.trans h.isOpen.symm
  positionOf h := Shifted.positionOf h
  read {_ _ _ _ n} h _ path := .inr (Shifted.read h path n)
  consume {_ _ _ _ n} h _ := .inr (Shifted.consume h n)
  addFork h _ := Shifted.addFork h
  left h := Nested.shifted h
  close h := .inr ⟨_, by rw [Source.runOn_close_fork, Source.runOn_close_fork], Nested.shifted_close h⟩
  join h := .inr (Nested.shifted_join h)

end Pairing

end Backtrack
