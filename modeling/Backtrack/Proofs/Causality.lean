/-
What arrives later changes no result that was reached. Two feeds that begin with the same elements
are told apart only by pulling one of the others, or by seeing the end of the feed. As long as
neither happens, buffers over the two feeds show the same and have taken the same elements, so that
the runs over them are coupled. An evaluation that has not seen the end therefore depends on nothing
but the elements it has pulled, and so does how many they are.
-/
import Backtrack.Proofs.Coupling
import Backtrack.Proofs.Raising
import Mathlib
namespace Backtrack

/-! ## Feeds exchanged -/

/-- The stream with another feed ahead. -/
def Stream.withFeed (feed : List Element) (s : Stream) : Stream := { s with feed := feed }

/-- What a fill gave, the stream having another feed ahead. -/
def Stream.Filled.withFeed (feed : List Element) (filled : Filled) : Filled :=
  { filled with stream := filled.stream.withFeed feed }

/-- The buffer with another feed ahead, if it has a feed at all. -/
def Buffer.withFeed (feed : List Element) : Buffer → Buffer
  | stream s => stream (s.withFeed feed)
  | memory data start => memory data start
  | irregular data start => irregular data start

/-- The state with another feed ahead. -/
def Evaluation.State.withFeed (feed : List Element) (s : State) : State :=
  { s with source := { s.source with buffer := s.source.buffer.withFeed feed } }

/-- The buffer has pulled an element of the last ones of its feed, or has seen the end of it. -/
def Buffer.Passed (rest : List Element) : Buffer → Prop
  | stream s => s.ended = true ∨ s.feed.length < rest.length
  | memory .. | irregular .. => False

/-! ## Pulling -/

namespace Stream

variable {rest rest' : List Element} {amount : Int}

/-- Nothing is pulled where enough waits. -/
theorem pull_of_le {feed : List Element} {s : Stream} (h : amount ≤ s.available) :
    pull amount feed s = ⟨s.withFeed feed, [], none⟩ := by
  cases feed with
  | nil =>
    rw [pull, if_pos h]
    rfl
  | cons e feed =>
    cases e with
    | stop =>
      rw [pull, if_pos h]
      rfl
    | failing f =>
      rw [pull, if_pos h]
      rfl
    | value v =>
      rw [pull, if_pos h]
      rfl

/-- The feed that is pulled from is the one given, whatever the stream has. -/
theorem pull_withFeed (feed other : List Element) (s : Stream) :
    pull amount feed (s.withFeed other) = pull amount feed s := by
  have havailable : (s.withFeed other).available = s.available := rfl
  by_cases h : amount ≤ s.available
  · rw [pull_of_le h, pull_of_le (havailable ▸ h)]
    rfl
  · cases feed with
    | nil =>
      rw [pull, pull, havailable]
      rfl
    | cons e feed =>
      cases e with
      | stop =>
        rw [pull, pull, havailable]
        rfl
      | failing f =>
        rw [pull, pull, havailable]
        rfl
      | value v =>
        rw [pull, pull, havailable]
        rfl

/-- A pull that is needed takes the first element of the feed at least, or sees its end. -/
theorem passed_pull {s : Stream} (h : ¬amount ≤ s.available) :
    (Buffer.stream (pull amount rest s).stream).Passed rest := by
  cases rest with
  | nil =>
    rw [pull, if_neg h]
    exact .inl rfl
  | cons e rest =>
    cases e with
    | stop =>
      rw [pull, if_neg h]
      exact .inl rfl
    | failing f =>
      rw [pull, if_neg h]
      exact .inr (Nat.lt_succ_self _)
    | value v =>
      rw [pull, if_neg h]
      cases hv : contribution s.chunked v with
      | error f => exact .inr (Nat.lt_succ_self _)
      | ok vs =>
        obtain ⟨-, -, hfeed, -⟩ := pull_bounds amount rest { s.advance rest with items := s.items ++ vs }
        exact .inr (Nat.lt_succ_of_le hfeed.length_le)

/-- Over feeds with a common beginning, pulls do the same until they go beyond it. -/
theorem pull_append (amount : Int) : ∀ (before : List Element) (s : Stream),
    (Buffer.stream (pull amount (before ++ rest) s).stream).Passed rest ∨
    ∃ (left : List Element) (filled : Filled),
      pull amount (before ++ rest) s = filled.withFeed (left ++ rest) ∧
      pull amount (before ++ rest') s = filled.withFeed (left ++ rest') := by
  intro before
  induction before with
  | nil =>
    intro s
    by_cases h : amount ≤ s.available
    · exact .inr ⟨[], ⟨s, [], none⟩, pull_of_le h, pull_of_le h⟩
    · exact .inl (passed_pull h)
  | cons e before ih =>
    intro s
    by_cases h : amount ≤ s.available
    · exact .inr ⟨e :: before, ⟨s, [], none⟩, pull_of_le h, pull_of_le h⟩
    · rw [List.cons_append, List.cons_append]
      cases e with
      | stop =>
        rw [pull, if_neg h]
        exact .inl (.inl rfl)
      | failing f =>
        rw [pull, pull, if_neg h, if_neg h]
        exact .inr ⟨before, ⟨s.advance before, failureEvents f, some (reported f)⟩, rfl, rfl⟩
      | value v =>
        rw [pull, pull, if_neg h, if_neg h]
        cases hv : contribution s.chunked v with
        | error f => exact .inr ⟨before, ⟨s.advance before, [], some f⟩, rfl, rfl⟩
        | ok vs =>
          -- the streams that go on differ in a feed that is not pulled from
          have hfeed : ∀ feed : List Element, pull amount feed
              { s.advance feed with items := s.items ++ vs } =
              pull amount feed { s.advance [] with items := s.items ++ vs } :=
            fun feed => pull_withFeed feed feed { s.advance [] with items := s.items ++ vs }
          simp only [hfeed]
          exact ih { s.advance [] with items := s.items ++ vs }

theorem fill_append (rest rest' : List Element) (path : Path) (amount : Int)
    (before : List Element) (s : Stream) :
    (Buffer.stream ((s.withFeed (before ++ rest)).fill path amount).stream).Passed rest ∨
    ∃ (left : List Element) (filled : Filled),
      (s.withFeed (before ++ rest)).fill path amount = filled.withFeed (left ++ rest) ∧
      (s.withFeed (before ++ rest')).fill path amount = filled.withFeed (left ++ rest') := by
  have hpath : ∀ feed, (s.withFeed feed).path = s.path := fun _ => rfl
  have hended : ∀ feed, (s.withFeed feed).ended = s.ended := fun _ => rfl
  have hfeed : ∀ feed, (s.withFeed feed).feed = feed := fun _ => rfl
  simp only [fill, hpath, hended, hfeed, pull_withFeed]
  split
  · exact .inr ⟨before, ⟨s, [], some onlySuspending⟩, rfl, rfl⟩
  · split
    · exact .inr ⟨before, ⟨s, [], none⟩, rfl, rfl⟩
    · exact pull_append amount before s

theorem consume_withFeed (feed : List Element) (amount : Int) (s : Stream) :
    (s.withFeed feed).consume amount = ((s.consume amount).1.withFeed feed, (s.consume amount).2) := by
  show (if trimThreshold ≤ s.head + amount ∧ (s.items.size : Int) ≤ (s.head + amount) * 2 then _
    else _) = _
  rw [consume, trim]
  split_ifs <;> rfl

/-- Once the end was seen, a fill does nothing. -/
theorem fill_of_ended {s : Stream} (h : s.ended = true) (path : Path) (amount : Int) :
    (s.fill path amount).stream = s := by
  unfold fill
  split
  · rfl
  · rfl

/-- How many elements the feed of a stream had at first. -/
def scripted (s : Stream) : Nat := s.pulled + s.feed.length

theorem scripted_pull (amount : Int) : ∀ (feed : List Element) (s : Stream),
    (pull amount feed s).stream.scripted = s.pulled + feed.length := by
  intro feed
  induction feed with
  | nil =>
    intro s
    rw [pull]
    split
    · rfl
    · rfl
  | cons e feed ih =>
    intro s
    by_cases h : amount ≤ s.available
    · rw [pull_of_le h]
      rfl
    · have htaken : s.pulled + 1 + feed.length = s.pulled + (e :: feed).length := by
        simp only [List.length_cons]
        omega
      cases e with
      | stop =>
        rw [pull, if_neg h]
        exact htaken
      | failing f =>
        rw [pull, if_neg h]
        exact htaken
      | value v =>
        rw [pull, if_neg h]
        cases hv : contribution s.chunked v with
        | error f => exact htaken
        | ok vs => exact (ih { s.advance feed with items := s.items ++ vs }).trans htaken

theorem scripted_fill (s : Stream) (path : Path) (amount : Int) :
    (s.fill path amount).stream.scripted = s.scripted := by
  unfold fill
  split
  · rfl
  · split
    · rfl
    · exact scripted_pull amount s.feed s

end Stream

namespace Buffer

variable {rest rest' : List Element} {b : Buffer}

theorem Passed.fill (h : b.Passed rest) (path : Path) (amount : Int) :
    (b.fill path amount).1.Passed rest := by
  cases b with
  | memory data start => exact h
  | irregular data start => exact h
  | stream s =>
    rcases h with hended | hfeed
    · left
      rw [Stream.fill_of_ended hended]
      exact hended
    · right
      obtain ⟨-, -, hsuffix, -⟩ := s.fill_bounds path amount
      exact lt_of_le_of_lt hsuffix.length_le hfeed

theorem Passed.consume (h : b.Passed rest) (amount : Int) : (b.consume amount).1.Passed rest := by
  have hsame : (b.consume amount).1.Passed rest = b.Passed rest :=
    apply_consume (Passed rest) (fun _ _ _ => rfl) (fun _ _ _ => rfl) (fun _ _ _ => rfl) b amount
  rwa [hsame]

@[simp] theorem available_withFeed (feed : List Element) (b : Buffer) :
    (b.withFeed feed).available = b.available := by cases b <;> rfl

@[simp] theorem countFailure?_withFeed (feed : List Element) (b : Buffer) :
    (b.withFeed feed).countFailure? = b.countFailure? := by cases b <;> rfl

@[simp] theorem slice_withFeed (feed : List Element) (b : Buffer) (first last : Int) :
    (b.withFeed feed).slice first last = b.slice first last := by cases b <;> rfl

theorem consume_withFeed (feed : List Element) (amount : Int) (b : Buffer) :
    (b.withFeed feed).consume amount = ((b.consume amount).1.withFeed feed, (b.consume amount).2) := by
  cases b with
  | stream s => simp only [withFeed, consume, Stream.consume_withFeed]
  | memory data start => rfl
  | irregular data start => rfl

theorem fill_append (rest rest' : List Element) (path : Path) (amount : Int)
    (before : List Element) (b : Buffer) :
    ((b.withFeed (before ++ rest)).fill path amount).1.Passed rest ∨
    ∃ (left : List Element) (filled : Buffer) (events : List Event) (failure : Option Failure),
      (b.withFeed (before ++ rest)).fill path amount =
        (filled.withFeed (left ++ rest), events, failure) ∧
      (b.withFeed (before ++ rest')).fill path amount =
        (filled.withFeed (left ++ rest'), events, failure) := by
  cases b with
  | memory data start => exact .inr ⟨before, .memory data start, [], none, rfl, rfl⟩
  | irregular data start => exact .inr ⟨before, .irregular data start, [], none, rfl, rfl⟩
  | stream s =>
    rcases s.fill_append rest rest' path amount before with
      hpassed | ⟨left, filled, hfill, hfill'⟩
    · exact .inl hpassed
    · refine .inr ⟨left, .stream filled.stream, filled.events, filled.failure, ?_, ?_⟩
      · simp only [withFeed, fill, hfill]
        rfl
      · simp only [withFeed, fill, hfill']
        rfl

end Buffer

/-! ## Elements pulled and elements left -/

/-- How many elements the feed of a buffer had at first, if there is one. -/
def Buffer.scripted : Buffer → Nat
  | stream s => s.scripted
  | memory .. | irregular .. => 0

theorem Buffer.scripted_fill (b : Buffer) (path : Path) (amount : Int) :
    (b.fill path amount).1.scripted = b.scripted := by
  cases b with
  | memory data start => rfl
  | irregular data start => rfl
  | stream s => exact s.scripted_fill path amount

theorem Buffer.scripted_consume (b : Buffer) (amount : Int) :
    (b.consume amount).1.scripted = b.scripted :=
  apply_consume scripted (fun _ _ _ => rfl) (fun _ _ _ => rfl) (fun _ _ _ => rfl) b amount

namespace Source

/-- An element that is gone from the feed was pulled. -/
def SameScript (_ : Cursor) (s u : Source) : Prop := u.buffer.scripted = s.buffer.scripted

theorem scripted_consumeRoot (amount : Int) (s : Source) :
    ((consumeRoot amount).runOn s).2.buffer.scripted = s.buffer.scripted := by
  rcases buffer_consumeRoot amount s with h | ⟨-, h⟩
  · rw [h]
  · rw [h, Buffer.scripted_consume]

instance : Motion SameScript where
  refl _ _ := rfl
  trans h h' := h'.trans h
  withEvents h _ := h
  read path c amount _ s := by
    cases hc : s.isClosed c with
    | true =>
      rw [runOn_read_of_closed hc]
      rfl
    | false =>
      rw [runOn_read hc]
      exact s.buffer.scripted_fill path _
  consume c n s := by
    cases c with
    | root => exact scripted_consumeRoot n s
    | fork id => exact congrArg Buffer.scripted (buffer_consume_fork id n s)
  left h := h.moved
  closed h := h.moved
  joined {c s u} h := by
    refine Eq.trans ?_ h.moved
    rcases buffer_join (.fork s.forks.size) u with hjoin | ⟨n, -, hjoin⟩
    · rw [hjoin]
    · rw [hjoin, Buffer.scripted_consume]

end Source

/-! ## Runs over feeds with a common beginning -/

namespace Coupling

/-- The coupling of runs over feeds that end in `rest` and `rest'` and are the same before; lost is
what has gone beyond that. -/
def ofRests (path : Path) (rest rest' : List Element) : Coupling where
  path := path
  path' := path
  surfacing := .blocking
  earlier := #[]
  earlier' := #[]
  related := fun b b' => ∃ (a : Buffer) (before : List Element),
    b = a.withFeed (before ++ rest) ∧ b' = a.withFeed (before ++ rest')
  lost := Buffer.Passed rest

instance (path : Path) (rest rest' : List Element) : (ofRests path rest rest').Lawful where
  surface _ := rfl
  available := by
    rintro _ _ ⟨a, before, rfl, rfl⟩
    simp
  countFailure? := by
    rintro _ _ ⟨a, before, rfl, rfl⟩
    simp
  slice := by
    rintro _ _ ⟨a, before, rfl, rfl⟩ first last
    simp
  consume := by
    rintro _ _ ⟨a, before, rfl, rfl⟩ n
    rw [Buffer.consume_withFeed, Buffer.consume_withFeed]
    exact ⟨rfl, _, before, rfl, rfl⟩
  fill := by
    rintro _ _ ⟨a, before, rfl, rfl⟩ n
    rcases a.fill_append rest rest' path n before with
      hpassed | ⟨left, filled, events, failure, hfill, hfill'⟩
    · exact .inl hpassed
    · right
      show ((a.withFeed (before ++ rest')).fill path n).2 = ((a.withFeed (before ++ rest)).fill path n).2 ∧
        ∃ (a' : Buffer) (left : List Element),
          ((a.withFeed (before ++ rest)).fill path n).1 = a'.withFeed (left ++ rest) ∧
          ((a.withFeed (before ++ rest')).fill path n).1 = a'.withFeed (left ++ rest')
      rw [hfill, hfill']
      exact ⟨rfl, filled, left, rfl, rfl⟩
  lost_consume h n := h.consume n
  lost_fill h n := h.fill path n

/-- Where nothing but `rest` is left of the one feed, nothing but `rest'` is left of the other. -/
theorem States.eq_withFeed {path : Path} {rest rest' : List Element} {u u' : Evaluation.State} {st : Stream}
    (h : (ofRests path rest rest').States u u') (hu : u.source.buffer = .stream st)
    (hleft : st.feed = rest) : u' = u.withFeed rest' := by
  obtain ⟨hsources, j, hj, hj'⟩ := h
  obtain ⟨a, before, ha, ha'⟩ := hsources.buffer
  rw [hu] at ha
  cases a with
  | memory data start => cases ha
  | irregular data start => cases ha
  | stream sa =>
    -- nothing of the common beginning is left
    obtain rfl : st = sa.withFeed (before ++ rest) := Buffer.stream.inj ha
    have hbefore : before ++ rest = rest := hleft
    obtain rfl : before = [] := List.append_left_eq_self.1 hbefore
    have hjournal : u'.journal = u.journal := hj'.trans hj.symm
    have hsource : u'.source = { u.source with buffer := u.source.buffer.withFeed rest' } := by
      rw [hsources.eq, ha', hu]
      rfl
    obtain ⟨source', journal'⟩ := u'
    cases hjournal
    cases hsource
    rfl

end Coupling

namespace Evaluation

variable {g : Grammar} {path : Path} {fuel : Nat} {rule : Rule} {c : Cursor} {arg : Value}
  {s u : State} {st st' : Stream} {r : Except Halt Outcome}

/-- The feed that an evaluation leaves is what it has not pulled. -/
theorem feed_of_run (hs : s.source.buffer = .stream st)
    (hrun : (eval g path fuel rule c arg).runFrom s = (r, u)) (hu : u.source.buffer = .stream st') :
    st.pulled ≤ st'.pulled ∧ st'.pulled - st.pulled ≤ st.feed.length ∧
      st'.feed = st.feed.drop (st'.pulled - st.pulled) := by
  have hscript : u.source.buffer.scripted = s.source.buffer.scripted := by
    have h := eval_keeps Source.SameScript g path fuel rule c arg s
    rwa [hrun] at h
  have hsuffix : u.source.buffer.feed <:+ s.source.buffer.feed := by
    have h := (eval_moves g path fuel rule c arg s).buffer.feed
    rwa [hrun] at h
  -- what is left is an end of the feed, and the count of pulled elements tells how long it is
  rw [hs, hu] at hscript hsuffix
  have hscript' : st'.pulled + st'.feed.length = st.pulled + st.feed.length := hscript
  have hlength : st'.feed.length ≤ st.feed.length := hsuffix.length_le
  refine ⟨by omega, by omega, ?_⟩
  rw [show st'.pulled - st.pulled = st.feed.length - st'.feed.length by omega]
  exact List.suffix_iff_eq_drop.1 hsuffix

/-- A result depends on what was pulled only. If an evaluation over a feed has ended without seeing
the end of the feed, it ends over any feed that begins with the elements it pulled, and it gives the
same result in the same state, but for the rest of the feed: the cursors stand at the same positions,
and as many elements were pulled. -/
theorem result_of_pulled (hs : s.source.buffer = .stream st)
    (hrun : (evalOperand g path fuel (.rule rule) c arg).runFrom s = (r, u))
    (hu : u.source.buffer = .stream st') (hended : st'.ended = false) (feed : List Element)
    (hfeed : feed.take (st'.pulled - st.pulled) = st.feed.take (st'.pulled - st.pulled)) :
    (evalOperand g path fuel (.rule rule) c arg).runFrom (s.withFeed feed) =
      (r, u.withFeed (feed.drop (st'.pulled - st.pulled))) := by
  rw [evalOperand_rule] at hrun ⊢
  obtain ⟨hpulled, hlength, hleft⟩ := feed_of_run hs hrun hu
  generalize hn : st'.pulled - st.pulled = n at hfeed hlength hleft ⊢
  set C := Coupling.ofRests path (st.feed.drop n) (feed.drop n)
  have hstates : C.States s (s.withFeed feed) := by
    refine ⟨⟨⟨.stream st, st.feed.take n, ?_, ?_⟩, rfl, rfl, rfl⟩, s.journal, ?_, ?_⟩
    · rw [List.take_append_drop, hs]
      rfl
    · rw [← hfeed, List.take_append_drop]
      show s.source.buffer.withFeed feed = _
      rw [hs]
    · exact (Journal.behind_empty _).symm
    · exact (Journal.behind_empty _).symm
  rcases (Coupled.eval C g fuel rule c arg).agrees _ _ hstates with
    hpassed | ⟨r', t, t', hx, hy, ht⟩
  · -- what is left of the feed shows that the evaluation has not gone beyond
    exfalso
    change Buffer.Passed (st.feed.drop n) ((eval g path fuel rule c arg).runFrom s).2.source.buffer at hpassed
    rw [hrun, hu] at hpassed
    rcases hpassed with h | h
    · rw [hended] at h
      cases h
    · rw [hleft] at h
      exact lt_irrefl _ h
  · have hx' : (eval g path fuel rule c arg).runFrom s = (r', t) := hx
    rw [hrun] at hx'
    cases hx'
    -- on either side the same path is taken, so that failures have surfaced already
    rw [show C.surfacing = .blocking from rfl, Halt.mapError_surfaced_blocking] at hy
    exact hy.trans (congrArg (Prod.mk _) (ht.eq_withFeed hu hleft))

/-- A state over a feed that begins with two ones and a two. -/
def onesThen (rest : List Element) : State :=
  .ofSource (.ofFeed ([.value (.int 1), .value (.int 1), .value (.int 2)] ++ rest) false .blocking)

/-- The stream after the ones of it were consumed, with the two waiting. -/
def twoWaiting (rest : List Element) : Stream where
  feed := rest
  pulled := 3
  chunked := false
  path := .blocking
  items := #[.int 1, .int 1, .int 2]
  head := 2
  ended := false

theorem result_of_pulled_ones :
    (evalOperand .empty .blocking 5 (.rule (.repetition (.item (.one (.int 1))) 0 none)) .root
      .none).runFrom (onesThen [.value (.int 1)]) =
        (.ok (.single (.list [.int 1, .int 1])),
          .ofSource ⟨.stream (twoWaiting [.value (.int 1)]), 2, #[], []⟩) ∧
    (twoWaiting [.value (.int 1)]).ended = false ∧
    (evalOperand .empty .blocking 5 (.rule (.repetition (.item (.one (.int 1))) 0 none)) .root
      .none).runFrom (onesThen [.failing ⟨.lengthTooLarge, rfl⟩]) =
        (.ok (.single (.list [.int 1, .int 1])),
          .ofSource ⟨.stream (twoWaiting [.failing ⟨.lengthTooLarge, rfl⟩]), 2, #[], []⟩) := by
  have hrun : (evalOperand .empty .blocking 5 (.rule (.repetition (.item (.one (.int 1))) 0 none))
      .root .none).runFrom (onesThen [.value (.int 1)]) =
        (.ok (.single (.list [.int 1, .int 1])),
          .ofSource ⟨.stream (twoWaiting [.value (.int 1)]), 2, #[], []⟩) := by cbv
  have hended : (twoWaiting [.value (.int 1)]).ended = false := rfl
  have hstream : (onesThen [.value (.int 1)]).source.buffer = .stream (.ofFeed
      ([.value (.int 1), .value (.int 1), .value (.int 2)] ++ [.value (.int 1)]) false .blocking) := rfl
  have hother := result_of_pulled hstream hrun rfl hended
    [.value (.int 1), .value (.int 1), .value (.int 2), .failing ⟨.lengthTooLarge, rfl⟩] rfl
  exact ⟨hrun, hended, hother⟩

end Evaluation
end Backtrack
