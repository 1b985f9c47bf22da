/-
Evaluation of streams. A feed that brings the items of an input, one by one or in chunks of
whatever lengths, serves as well as the input in memory: a stream holds some of the items from its
head on, its feed will bring the others, and both together are what is left of the input. Pulling
moves items from the feed to the stream, trimming drops what lies before the head, and neither
changes what lies ahead.
-/
import Backtrack.Proofs.Memory
import Backtrack.Lexeme.Basic
namespace Backtrack

/-! ## Feeds -/

/-- The feed brings the items one after another and then ends: with a signal, or because nothing
is left of it. -/
inductive Feeds (chunked : Bool) : List Element → List Value → Prop where
  | nil : Feeds chunked [] []
  | stop (rest : List Element) : Feeds chunked (.stop :: rest) []
  | value {v : Value} {vs : List Value} {feed : List Element} {items : List Value}
    (h : Stream.contribution chunked v = .ok vs) (hfeed : Feeds chunked feed items) :
    Feeds chunked (.value v :: feed) (vs ++ items)

/-- A feed of single items brings them. -/
theorem Feeds.ofItems : ∀ items : List Value, Feeds false (items.map .value) items
  | [] => .nil
  | v :: items => by
    have h : Stream.contribution false v = .ok [v] := rfl
    exact .value h (ofItems items)

/-- A feed of lists brings what the lists hold, some of which may be empty. -/
theorem Feeds.ofLists : ∀ chunks : List (List Value),
    Feeds true (chunks.map fun chunk => .value (.list chunk)) chunks.flatten
  | [] => .nil
  | _ :: chunks => .value rfl (ofLists chunks)

/-- A feed of texts brings their characters. -/
theorem Feeds.ofTexts : ∀ chunks : List Text,
    Feeds true (chunks.map fun chunk => .value (.str chunk))
      (chunks.flatten.map fun c => .str [c])
  | [] => .nil
  | _ :: chunks => by
    rw [List.flatten_cons, List.map_append]
    exact .value rfl (ofTexts chunks)

namespace Stream

/-! ## What lies ahead -/

/-- The items that the feed of a stream still brings. -/
def Brings (s : Stream) (pending : List Value) : Prop :=
  (s.ended = true ∧ pending = []) ∨ (s.ended = false ∧ Feeds s.chunked s.feed pending)

/-- The items ahead of the head of a stream: those that wait and those that the feed brings. -/
structure Ahead (s : Stream) (items : List Value) : Prop where
  head_nonneg : 0 ≤ s.head
  head_le : s.head ≤ s.items.size
  items_eq : ∃ pending, s.Brings pending ∧ items = s.items.toList.drop s.head.toNat ++ pending

variable {s : Stream} {items : List Value}

theorem Ahead.ofFeed {feed : List Element} {chunked : Bool} (h : Feeds chunked feed items)
    (path : Path) : (Stream.ofFeed feed chunked path).Ahead items :=
  ⟨le_refl _, le_refl _, items, .inr ⟨rfl, h⟩, rfl⟩

/-- What waits is the beginning of what lies ahead. -/
theorem Ahead.getElem?_items (h : s.Ahead items) (i : Nat) :
    s.items[s.head.toNat + i]? = if (i : Int) < s.available then items[i]? else none := by
  obtain ⟨pending, -, rfl⟩ := h.items_eq
  have hnonneg := h.head_nonneg
  rw [available]
  split
  · rename_i hi
    rw [List.getElem?_append_left (by simp; omega), List.getElem?_drop, Array.getElem?_toList]
  · rename_i hi
    exact Array.getElem?_eq_none (by omega)

/-- A slice of what is held shows what waits. -/
theorem Ahead.get?_slice (h : s.Ahead items) (i k : Nat) :
    ((Sequence.items .list s.items).slice (s.head + i) (s.head + (i + (k + 1)))).get? k =
      if ((i + k : Nat) : Int) < s.available then items[i + k]? else none := by
  obtain ⟨n, hn⟩ := Int.eq_ofNat_of_zero_le h.head_nonneg
  have hslice := Sequence.get?_slice (.items .list s.items) (n + i) (n + (i + (k + 1))) k
  have hitem := h.getElem?_items (i + k)
  rw [hn] at hitem ⊢
  push_cast at hslice
  rw [hslice, if_pos (by omega), Nat.add_assoc]
  exact hitem

/-! ## Filling -/

/-- Pulling from a feed moves items from the feed to the stream, until enough wait or none is
left. -/
theorem pull_spec (amount : Int) {feed : List Element} {pending : List Value} :
    ∀ {s : Stream}, Feeds s.chunked feed pending → s.ended = false →
      (pull amount feed s).failure = none ∧
      (pull amount feed s).stream.path = s.path ∧
      (pull amount feed s).stream.head = s.head ∧
      ∃ brought left, pending = brought ++ left ∧
        (pull amount feed s).stream.items.toList = s.items.toList ++ brought ∧
        (pull amount feed s).stream.Brings left ∧
        (amount ≤ (pull amount feed s).stream.available ∨ left = []) := by
  intro s hfeed hended
  generalize hchunked : s.chunked = chunked at hfeed
  -- along the feed; an element that is pulled becomes part of what is brought
  induction hfeed generalizing s with
  | nil =>
    rw [pull]
    split
    · rename_i h
      exact ⟨rfl, rfl, rfl, [], [], rfl, by simp, .inr ⟨hended, .nil⟩, .inl h⟩
    · exact ⟨rfl, rfl, rfl, [], [], rfl, by simp [finish], .inl ⟨rfl, rfl⟩, .inr rfl⟩
  | stop rest =>
    rw [pull]
    split
    · rename_i h
      exact ⟨rfl, rfl, rfl, [], [], rfl, by simp, .inr ⟨hended, .stop rest⟩, .inl h⟩
    · exact ⟨rfl, rfl, rfl, [], [], rfl, by simp [finish, advance], .inl ⟨rfl, rfl⟩, .inr rfl⟩
  | @value v vs feed later h hfeed ih =>
    rw [pull]
    split
    · rename_i hle
      exact ⟨rfl, rfl, rfl, [], vs ++ later, rfl, by simp,
        .inr ⟨hended, .value (by rw [hchunked]; exact h) (by rw [hchunked]; exact hfeed)⟩, .inl hle⟩
    · simp only [hchunked, h]
      obtain ⟨hfailure, hpath, hhead, brought, left, rfl, hitems, hleft, henough⟩ :=
        ih (s := { s.advance feed with items := s.items ++ vs }) hended hchunked
      exact ⟨hfailure, hpath, hhead, vs ++ brought, left, by simp, by rw [hitems]; simp,
        hleft, henough⟩

/-- A fill makes enough items wait, or all there are. -/
theorem Ahead.fill {path : Path} (h : s.Ahead items)
    (hpath : s.path = .suspending → path = .suspending) (amount : Int) :
    (s.fill path amount).failure = none ∧ (s.fill path amount).stream.path = s.path ∧
    (s.fill path amount).stream.Ahead items ∧
    s.available ≤ (s.fill path amount).stream.available ∧
    (amount ≤ (s.fill path amount).stream.available ∨
      (s.fill path amount).stream.available = items.length) := by
  obtain ⟨hnonneg, hle, pending, hpending, rfl⟩ := h
  -- a suspending feed is read on the suspending path, so the fill does not refuse it
  have hreadable : ¬(s.path = .suspending ∧ path = .blocking) := by
    rintro ⟨hs, rfl⟩
    cases hpath hs
  rw [Stream.fill, if_neg hreadable]
  rcases hpending with ⟨hended, rfl⟩ | ⟨hended, hfeed⟩
  · -- the feed has ended, so all that lies ahead waits already
    rw [if_pos hended]
    refine ⟨rfl, rfl, ⟨hnonneg, hle, [], .inl ⟨hended, rfl⟩, rfl⟩, le_refl _, .inr ?_⟩
    simp only [available, List.append_nil, List.length_drop, Array.length_toList]
    omega
  · rw [if_neg (by simp [hended])]
    obtain ⟨hfailure, hpath', hhead, brought, left, rfl, hitems, hleft, henough⟩ :=
      pull_spec amount hfeed hended
    have hsize : (pull amount s.feed s).stream.items.size = s.items.size + brought.length := by
      rw [← Array.length_toList, hitems]
      simp
    refine ⟨hfailure, hpath', ⟨by omega, by omega, left, hleft, ?_⟩, ?_, ?_⟩
    · rw [hitems, hhead, List.drop_append_of_le_length (by simp; omega), List.append_assoc]
    · simp only [available]
      omega
    · refine henough.imp_right ?_
      rintro rfl
      simp only [available, List.append_nil, List.length_append, List.length_drop,
        Array.length_toList]
      omega

/-! ## Consuming -/

/-- Dropping what is consumed does not change what lies ahead. -/
theorem Ahead.trim (h : s.Ahead items) : s.trim.1.Ahead items := by
  unfold Stream.trim
  split
  · obtain ⟨hnonneg, hle, pending, hpending, rfl⟩ := h
    refine ⟨le_refl _, by simp, pending, hpending, ?_⟩
    simp [List.take_of_length_le]
  · exact h

theorem path_consume (s : Stream) (amount : Int) : (s.consume amount).1.path = s.path := by
  unfold Stream.consume Stream.trim
  split <;> rfl

theorem available_trim (h : s.Ahead items) : s.trim.1.available = s.available := by
  unfold Stream.trim
  split
  · have := h.head_nonneg
    have := h.head_le
    simp only [available, Array.size_extract]
    omega
  · rfl

/-- Moving the head on leaves what lies behind it ahead no longer. -/
theorem Ahead.moveHead (h : s.Ahead items) {amount : Int} (hamount : 0 ≤ amount)
    (hle : amount ≤ s.available) :
    ({ s with head := s.head + amount } : Stream).Ahead (items.drop amount.toNat) := by
  obtain ⟨hnonneg, -, pending, hpending, rfl⟩ := h
  rw [available] at hle
  refine ⟨by simp only; omega, by simp only; omega, pending, hpending, ?_⟩
  rw [List.drop_append_of_le_length (by simp; omega), List.drop_drop,
    Int.toNat_add hnonneg hamount]

theorem Ahead.consume (h : s.Ahead items) {amount : Int} (hamount : 0 ≤ amount)
    (hle : amount ≤ s.available) :
    (s.consume amount).1.Ahead (items.drop amount.toNat) ∧
    (s.consume amount).1.available = s.available - amount := by
  have hmoved := h.moveHead hamount hle
  refine ⟨hmoved.trim, ?_⟩
  rw [Stream.consume, available_trim hmoved]
  simp only [available]
  omega

/-- Where enough items wait, or all there are, a slice shows the item that stands `k` places behind
its beginning, or that there is none. -/
theorem Ahead.saw_slice (h : s.Ahead items) {n k : Nat}
    (henough : (n : Int) + (k + 1) ≤ s.available ∨ s.available = items.length) :
    Saw k ((n : Int) + (k + 1) ≤ s.available)
      (.ok ((Sequence.items .list s.items).slice (s.head + n) (s.head + (n + (k + 1)))))
      (.ok items[n + k]?) := by
  have hslice := h.get?_slice n k
  by_cases hk : ((n + k : Nat) : Int) < s.available
  · rw [if_pos hk] at hslice
    cases hv : items[n + k]? with
    | none => exact .ended (hslice.trans hv)
    | some v => exact .found (hslice.trans hv) (by omega)
  · rw [if_neg hk] at hslice
    -- fewer items wait than were asked for, so nothing else lies ahead
    rw [List.getElem?_eq_none (by omega)]
    exact .ended hslice

end Stream

/-! ## Streams as a presentation -/

/-- Behind a position that a cursor has an offset to, items are found by their own indices. -/
theorem Sequence.getElem?_drop_toList {data : Sequence} {p : Int} {n i k : Nat} (hp : 0 ≤ p)
    (hi : p + n = i) : (data.toList.drop p.toNat)[n + k]? = data.get? (i + k) := by
  rw [List.getElem?_drop, Sequence.get?_eq_getElem?_toList, show p.toNat + (n + k) = i + k by omega]

/-- A stream that can be read on the path shows the data whose rest lies ahead of it. No cursor
stands before the root. -/
def Presentation.stream (data : Sequence) (path : Path) :
    Presentation (Medium.fixed data) path where
  Shows _ b p := ∃ s, b = .stream s ∧ (s.path = .suspending → path = .suspending) ∧ 0 ≤ p ∧
    s.Ahead (data.toList.drop p.toNat)
  Admits o := 0 ≤ o
  admits_zero := le_refl _
  admits_add n h := Int.add_nonneg h (Int.natCast_nonneg n)
  countable := by
    rintro t b p ⟨s, rfl, -, -, -⟩
    rfl
  shows_fill := by
    rintro t b p o i k ⟨s, rfl, hpath, hp, hahead⟩ - -
    obtain ⟨-, hpath', hahead', -, -⟩ := hahead.fill hpath (o + (k + 1))
    exact ⟨_, rfl, by rwa [hpath'], hp, hahead'⟩
  available_fill := by
    rintro t b p o i k ⟨s, rfl, hpath, hp, hahead⟩ - -
    obtain ⟨-, -, -, hmore, -⟩ := hahead.fill hpath (o + (k + 1))
    exact hmore
  saw_fill := by
    rintro t b p o i k ⟨s, rfl, hpath, hp, hahead⟩ ho hi
    obtain ⟨hfailure, -, hahead', -, henough⟩ := hahead.fill hpath (o + (k + 1))
    obtain ⟨n, rfl⟩ := Int.eq_ofNat_of_zero_le ho
    simp only [Buffer.fill, hfailure, Buffer.slice, Medium.fixed]
    rw [← Sequence.getElem?_drop_toList hp hi]
    exact hahead'.saw_slice henough
  shows_consume := by
    rintro t b p o ⟨s, rfl, hpath, hp, hahead⟩ ho hle
    obtain ⟨hahead', -⟩ := hahead.consume ho hle
    rw [List.drop_drop, ← Int.toNat_add hp ho] at hahead'
    exact ⟨(s.consume o).1, rfl, by rwa [Stream.path_consume], Int.add_nonneg hp ho, hahead'⟩
  available_consume := by
    rintro t b p o ⟨s, rfl, hpath, hp, hahead⟩ ho hle
    exact (hahead.consume ho hle).2

/-! ## Evaluation of streams -/

/-- Evaluating a rule over a stream from its start gives what scanning gives, and takes the root to
where the scan ends. -/
theorem agrees_of_feeds {data : Sequence} {feed : List Element} {chunked : Bool}
    (hfeed : Feeds chunked feed data.toList) {feedPath path : Path}
    (hpath : feedPath = .suspending → path = .suspending) (g : Grammar) (fuel : Nat) (rule : Rule)
    (arg : Value) :
    (Presentation.stream data path).Agrees .root (.ofFeed feed chunked feedPath)
      ((Evaluation.eval g path fuel rule .root arg).runFrom
        (.ofSource (.ofFeed feed chunked feedPath)))
      ((Scan.eval (.fixed data) g fuel rule arg).runFrom ⟨0, ()⟩) := by
  have hstands : (Presentation.stream data path).Stands ⟨0, ()⟩ (.ofFeed feed chunked feedPath)
      .root :=
    ⟨⟨_, rfl, hpath, le_refl _, Stream.Ahead.ofFeed hfeed feedPath⟩, rfl, rfl, le_refl _,
      le_refl _⟩
  exact Presentation.eval_simulates _ g fuel rule .root arg _ (.ofSource _) hstands

/-- Evaluating a rule over a stream whose feed brings the items of an input, singly or in chunks,
gives what evaluating it over the input in memory gives, and takes the root to the same
position. -/
theorem eval_ofFeed_eq_eval_ofData {v : Value} {data : Sequence}
    (hv : Sequence.ofValue? v = some data) (hcount : v.countable = true) {feed : List Element}
    {chunked : Bool} (hfeed : Feeds chunked feed data.toList) {feedPath path : Path}
    (hpath : feedPath = .suspending → path = .suspending) (g : Grammar) (fuel : Nat) (rule : Rule)
    (arg : Value) :
    ((Evaluation.eval g path fuel rule .root arg).runFrom
        (.ofSource (.ofFeed feed chunked feedPath))).1 =
      ((Evaluation.eval g path fuel rule .root arg).runFrom (.ofSource (.ofData v))).1 ∧
    ((Evaluation.eval g path fuel rule .root arg).runFrom
        (.ofSource (.ofFeed feed chunked feedPath))).2.source.positionOf .root =
      ((Evaluation.eval g path fuel rule .root arg).runFrom
        (.ofSource (.ofData v))).2.source.positionOf .root := by
  have hstream := agrees_of_feeds hfeed hpath g fuel rule arg
  have hmemory := Presentation.eval_simulates (Presentation.memory data path) g fuel rule .root arg
    ⟨0, ()⟩ (.ofSource (.ofData v))
    ((Source.IsOver.ofData hv hcount).stands rfl rfl (Nat.zero_le _))
  exact ⟨hstream.result.trans hmemory.result.symm,
    hstream.stands.position.trans hmemory.stands.position.symm⟩

/-- One item at the end of the input, or else two. -/
def oneOrTwo : Rule :=
  .or [.and [Lexeme.anything, .finish], .and [Lexeme.anything, Lexeme.anything]]

theorem eval_ofFeed_eq_eval_ofData_oneOrTwo :
    ((Evaluation.eval .empty .blocking 4 oneOrTwo .root .none).runFrom (.ofSource
        (.ofFeed [.value (.str [97]), .value (.str []), .value (.str [98])] true .blocking))).1 =
      .ok (.success [.str [97], .str [98]]) ∧
    ((Evaluation.eval .empty .blocking 4 oneOrTwo .root .none).runFrom (.ofSource
        (.ofFeed [.value (.str [97]), .value (.str []), .value (.str [98])] true
          .blocking))).2.source.positionOf .root = 2 := by
  have hdata : Sequence.ofValue? (.str [97, 98]) = some (.items .str #[.str [97], .str [98]]) := rfl
  have hfeed : Feeds true [.value (.str [97]), .value (.str []), .value (.str [98])]
      (Sequence.items .str #[.str [97], .str [98]]).toList := Feeds.ofTexts [[97], [], [98]]
  have hpath : Path.blocking = .suspending → Path.blocking = .suspending := fun h => h
  obtain ⟨hresult, hposition⟩ :=
    eval_ofFeed_eq_eval_ofData hdata rfl hfeed hpath .empty 4 oneOrTwo .none
  rw [hresult, hposition]
  exact ⟨rfl, rfl⟩

/-- A range with more members than a length can tell is no input in memory to consume from, but its
members can be fed one by one. -/
theorem eval_ofFeed_ne_eval_ofData_longRange :
    ((Evaluation.eval .empty .blocking 1 Lexeme.anything .root .none).runFrom
      (.ofSource (.ofData (.range 0 (2 ^ 63) 1)))).1 = .error (.failed .lengthTooLarge) ∧
    ((Evaluation.eval .empty .blocking 1 Lexeme.anything .root .none).runFrom (.ofSource
      (.ofFeed ((Sequence.range 0 (2 ^ 63) 1).toList.map .value) false .blocking))).1 =
        .ok (.success [.int 0]) := by
  refine ⟨rfl, ?_⟩
  have hpath : Path.blocking = .suspending → Path.blocking = .suspending := fun h => h
  have hfeed := Feeds.ofItems (Sequence.range 0 (2 ^ 63) 1).toList
  rw [(agrees_of_feeds hfeed hpath .empty 1 Lexeme.anything .none).result]
  rfl

end Backtrack
