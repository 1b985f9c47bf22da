/-
How much of a feed is pulled. The furthest place that reads have asked for is told by where their
cursors stand and how many items they ask for, and so far the feed has been pulled, not an element
further, whatever else was done in between: `Drawn` says so of a source. A read goes on from where the
feed stands until what it asks for waits; nothing else pulls, and what the root moves on is no longer
waiting, so that both together are always the items of the elements that were pulled.
-/
import Backtrack.Proofs.Requests
import Backtrack.Proofs.Supply
namespace Backtrack

namespace Stream

variable {script rest : List Value} {chunked : Bool} {v : Value} {s : Stream} {position amount : Int}

/-! ## What values bring -/

/-- Taking one of the values brings its items. In a chunked feed these can be gone through and held. -/
def Plain (chunked : Bool) (script : List Value) : Prop :=
  ∀ v ∈ script, ∃ items, contribution chunked v = .ok items

/-- How many items the values bring. -/
def contributed (chunked : Bool) (vs : List Value) : Nat := (vs.flatMap (itemsOf chunked)).length

theorem contributed_append (chunked : Bool) (vs ws : List Value) :
    contributed chunked (vs ++ ws) = contributed chunked vs + contributed chunked ws := by
  rw [contributed, List.flatMap_append, List.length_append]
  rfl

theorem contributed_take_le (chunked : Bool) (vs : List Value) {j k : Nat} (h : j ≤ k) :
    contributed chunked (vs.take j) ≤ contributed chunked (vs.take k) := by
  obtain ⟨n, rfl⟩ := Nat.exists_eq_add_of_le h
  rw [List.take_add, contributed_append]
  exact Nat.le_add_right _ _

@[simp] theorem contributed_false (vs : List Value) : contributed false vs = vs.length := by
  simp [contributed, itemsOf]

/-- A value that brings items brings those that it stands for. -/
theorem Plain.contribution_eq (h : Plain chunked script) (hv : v ∈ script) :
    contribution chunked v = .ok (itemsOf chunked v) := by
  obtain ⟨items, hitems⟩ := h v hv
  cases chunked with
  | false => rfl
  | true =>
    simp only [contribution, Value.elements, if_pos] at hitems ⊢
    split at hitems
    · cases hitems
    · cases hsome : v.items? with
      | none => simp [hsome] at hitems
      | some vs => simp [itemsOf, hsome]

/-! ## Streams over values -/

/-- The stream has taken the first of the values, and their items wait but for those that the root at
`position` has passed. Its end is signalled at the end of the values alone. -/
structure Draws (script : List Value) (chunked : Bool) (position : Int) (s : Stream) : Prop where
  chunked_eq : s.chunked = chunked
  feed_eq : s.feed = (script.drop s.pulled).map .value
  pulled_le : s.pulled ≤ script.length
  total : position + s.available = contributed chunked (script.take s.pulled)
  pulled_of_ended : s.ended = true → s.pulled = script.length

namespace Draws

theorem ofFeed (script : List Value) (chunked : Bool) (path : Path) :
    Draws script chunked 0 (.ofFeed (script.map .value) chunked path) :=
  ⟨rfl, rfl, Nat.zero_le _, rfl, nofun⟩

/-- The next value is taken, and brings its items. -/
theorem next (hplain : Plain chunked script) (h : s.Draws script chunked position)
    (hrest : script.drop s.pulled = v :: rest) :
    contribution s.chunked v = .ok (itemsOf chunked v) ∧
      ({ s.advance (rest.map .value) with items := s.items ++ itemsOf chunked v } : Stream).Draws
        script chunked position := by
  have htake : script.take (s.pulled + 1) = script.take s.pulled ++ [v] := by
    rw [List.take_add, hrest]
    rfl
  have hmem : v ∈ script := List.mem_of_mem_drop (i := s.pulled) (by simp [hrest])
  have hmore : s.pulled < script.length := by
    have := congrArg List.length hrest
    simp only [List.length_drop, List.length_cons] at this
    omega
  obtain ⟨rfl, hfeed, hle, htotal, hended⟩ := h
  refine ⟨hplain.contribution_eq hmem, rfl, ?_, hmore, ?_, fun h => ?_⟩
  · show rest.map Element.value = (script.drop (s.pulled + 1)).map Element.value
    rw [← List.tail_drop, hrest, List.tail_cons]
  · show position + _ = (contributed s.chunked (script.take (s.pulled + 1)) : Int)
    rw [htake, contributed_append, Nat.cast_add, ← htotal]
    simp only [available, advance, ← Array.length_toList, Array.toList_appendList, List.length_append,
      contributed, List.flatMap_cons, List.flatMap_nil, List.append_nil]
    push_cast
    ring
  · exact absurd (hended h) hmore.ne

/-- How a stream is left by a pull for what ends at the place `target`: as one from which no more was
pulled than that takes. -/
structure Pulls (script : List Value) (chunked : Bool) (position target : Int) (s u : Stream) : Prop
    extends u.Draws script chunked position where
  pulled_mono : s.pulled ≤ u.pulled
  least : ∀ k, s.pulled ≤ k → k < u.pulled → contributed chunked (script.take k) < target
  enough : target ≤ contributed chunked (script.take u.pulled) ∨ u.pulled = script.length

theorem pull (hplain : Plain chunked script) (rest : List Value) : ∀ {s : Stream},
    s.Draws script chunked position → s.ended = false → script.drop s.pulled = rest →
    Pulls script chunked position (position + amount) s (pull amount s.feed s).stream := by
  induction rest with
  | nil =>
    intro s h hended hrest
    have hlast : s.pulled = script.length := le_antisymm h.pulled_le (List.drop_eq_nil_iff.1 hrest)
    have hfeed : s.feed = [] := by rw [h.feed_eq, hrest, List.map_nil]
    rw [hfeed, Stream.pull]
    split
    · exact ⟨⟨h.chunked_eq, hfeed ▸ h.feed_eq, h.pulled_le, h.total, h.pulled_of_ended⟩, le_refl _,
        fun k hk hlt => absurd hlt (not_lt.2 hk), .inr hlast⟩
    · exact ⟨⟨h.chunked_eq, hfeed ▸ h.feed_eq, h.pulled_le, h.total, fun _ => hlast⟩, le_refl _,
        fun k hk hlt => absurd hlt (not_lt.2 hk), .inr hlast⟩
  | cons v rest ih =>
    intro s h hended hrest
    rcases le_or_gt amount s.available with hle | hlt
    · rw [pull_feed_of_le hle]
      refine ⟨h, le_refl _, fun k hk hlt => absurd hlt (not_lt.2 hk), .inl ?_⟩
      rw [← h.total]
      omega
    · obtain ⟨hbrings, hnext⟩ := h.next hplain hrest
      have hfeed : s.feed = .value v :: rest.map .value := by rw [h.feed_eq, hrest, List.map_cons]
      rw [hfeed, Stream.pull, if_neg (not_le.2 hlt)]
      simp only [hbrings]
      obtain ⟨hdraws, hmono, hleast, henough⟩ := ih hnext hended (by
        show script.drop (s.pulled + 1) = rest
        rw [← List.tail_drop, hrest, List.tail_cons])
      refine ⟨hdraws, (Nat.le_succ _).trans hmono, fun k hk hlt' => ?_, henough⟩
      rcases hk.eq_or_lt with rfl | hk
      · -- what waited before this value was taken was not enough
        rw [← h.total]
        omega
      · exact hleast k hk hlt'

theorem fill (hplain : Plain chunked script) (h : s.Draws script chunked position) {path : Path}
    (hpath : ¬ (s.path = .suspending ∧ path = .blocking)) :
    Pulls script chunked position (position + amount) s (s.fill path amount).stream := by
  rw [Stream.fill, if_neg hpath]
  cases hended : s.ended with
  | true =>
    exact ⟨h, le_refl _, fun k hk hlt => absurd hlt (not_lt.2 hk), .inr (h.pulled_of_ended hended)⟩
  | false => exact h.pull hplain _ hended rfl

theorem consume (h : s.Draws script chunked position) {n : Int} (hn : n ≤ s.available) :
    (s.consume n).1.Draws script chunked (position + n) := by
  have hkept : (s.consume n).1.chunked = s.chunked ∧ (s.consume n).1.feed = s.feed ∧
      (s.consume n).1.pulled = s.pulled ∧ (s.consume n).1.ended = s.ended := by
    unfold Stream.consume trim
    split <;> exact ⟨rfl, rfl, rfl, rfl⟩
  obtain ⟨hchunked, hfeed, hpulled, hended⟩ := hkept
  refine ⟨hchunked.trans h.chunked_eq, ?_, ?_, ?_, ?_⟩
  · rw [hfeed, hpulled]
    exact h.feed_eq
  · rw [hpulled]
    exact h.pulled_le
  · rw [hpulled, ← h.total, available_consume_of_le hn]
    ring
  · rw [hpulled, hended]
    exact h.pulled_of_ended

end Draws

end Stream

/-- A feed that is read while others go on cannot be read by one who waits for it. -/
def Path.Refused (feed path : Path) : Prop := feed = .suspending ∧ path = .blocking

instance (feed path : Path) : Decidable (feed.Refused path) := inferInstanceAs (Decidable (_ ∧ _))

namespace Source

open Backtrack.Stream (Plain Draws contributed)

variable {script : List Value} {chunked : Bool} {feed : Path} {furthest : Int} {s u : Source}
  {st : Stream}

/-! ## The furthest place asked for -/

/-- The place up to which a use asks for items: the end of what a read asks for, if its cursor is open
and it is made on a path on which the feed can be read. -/
def asked (feed : Path) (s : Source) : Use → Int
  | ⟨path, c, .read n⟩ => if s.isClosed c ∨ feed.Refused path then 0 else s.positionOf c + n
  | _ => 0

/-- The furthest place that a run of uses asks for. -/
def furthestAsked (feed : Path) (s : Source) : List Use → Int
  | [] => 0
  | use :: uses => max (s.asked feed use) ((s.after [use]).furthestAsked feed uses)

/-- How a source over the values stands if the place `furthest` is the furthest that was asked for: no
fewer elements would bring all items up to there. They are brought by those that were pulled, unless
these are all. What the root has passed and what waits are the items that the pulled elements bring. -/
structure Drawn (script : List Value) (chunked : Bool) (feed : Path) (furthest : Int) (s : Source)
    (st : Stream) : Prop extends st.Draws script chunked s.position where
  buffer_eq : s.buffer = .stream st
  path_eq : st.path = feed
  least : ∀ k < st.pulled, contributed chunked (script.take k) < furthest
  enough : furthest ≤ contributed chunked (script.take st.pulled) ∨ st.pulled = script.length

/-- If no element brings more than one item, just as many are pulled as items are asked for. -/
theorem Drawn.pulled_eq_min (h : s.Drawn script false feed furthest st) (hnonneg : 0 ≤ furthest) :
    (st.pulled : Int) = min furthest script.length := by
  have hle := h.pulled_le
  have hbrings : ∀ k ≤ script.length, contributed false (script.take k) = k := fun k hk => by
    rw [Stream.contributed_false, List.length_take_of_le hk]
  have henough := h.enough
  rw [hbrings _ hle] at henough
  rcases Nat.eq_zero_or_eq_succ_pred st.pulled with hzero | hsucc
  · omega
  · have hlast := h.least (st.pulled - 1) (by omega)
    rw [hbrings _ (by omega)] at hlast
    omega

theorem Matches.drawn (h : s.Matches u) (hs : s.Drawn script chunked feed furthest st) :
    u.Drawn script chunked feed furthest st := by
  obtain ⟨events, rfl⟩ := h
  exact ⟨hs.toDraws, hs.buffer_eq, hs.path_eq, hs.least, hs.enough⟩

/-! ## Requests -/

/-- A read at an open cursor takes the feed to where it asks. -/
theorem Drawn.read (hplain : Plain chunked script) (h : s.Drawn script chunked feed furthest st)
    {path : Path} {c : Cursor} (hc : s.isClosed c = false) (hpath : ¬ feed.Refused path) (n : Nat) :
    ∃ st', ((Source.read path c n).runOn s).2.Drawn script chunked feed
      (max furthest (s.positionOf c + n)) st' := by
  have htarget : s.positionOf c + n = s.position + (s.offset c + n) := by rw [positionOf]; ring
  obtain ⟨hdraws, hmono, hleast, henough⟩ : Stream.Draws.Pulls script chunked s.position
      (s.position + (s.offset c + n)) st (st.fill path (s.offset c + n)).stream :=
    h.toDraws.fill hplain (h.path_eq.symm ▸ hpath)
  obtain ⟨-, hkept, -⟩ := st.fill_bounds path (s.offset c + n)
  rw [runOn_read hc, h.buffer_eq, htarget]
  refine ⟨_, hdraws, rfl, hkept.trans h.path_eq, fun k hk => ?_, ?_⟩
  · rcases lt_or_ge k st.pulled with hlt | hge
    · exact lt_max_of_lt_left (h.least k hlt)
    · exact lt_max_of_lt_right (hleast k hge hk)
  · rcases henough with henough | hlast
    · refine (h.enough.imp (fun hle => ?_) fun hlast => ?_)
      · have := Stream.contributed_take_le chunked script hmono
        exact max_le (by omega) henough
      · exact le_antisymm hdraws.pulled_le (hlast ▸ hmono)
    · exact .inr hlast

/-- What the root is taken past was brought before. -/
theorem Drawn.passed (h : s.Drawn script chunked feed furthest st) (hpassage : Passage s u) :
    ∃ st', u.Drawn script chunked feed furthest st' := by
  cases hpassage with
  | kept hbuffer hposition =>
    exact ⟨st, hposition.symm ▸ h.toDraws, hbuffer.trans h.buffer_eq, h.path_eq, h.least, h.enough⟩
  | consumed n hle hbuffer hposition =>
    have hbase := s.buffer.base_consume n
    rw [h.buffer_eq] at hle hbuffer hbase
    have hpulled : (st.consume n).1.pulled = st.pulled :=
      Option.some.inj ((Buffer.stream st).pulled?_consume n)
    refine ⟨(st.consume n).1, hposition.symm ▸ h.toDraws.consume hle, hbuffer, ?_, ?_, ?_⟩
    · exact (Buffer.Base.stream.inj hbase).2.trans h.path_eq
    · rw [hpulled]
      exact h.least
    · rw [hpulled]
      exact h.enough

/-- A read that cannot be made does nothing to the buffer. -/
theorem Drawn.refused (h : s.Drawn script chunked feed furthest st) {path : Path} {c : Cursor}
    (hrefused : s.isClosed c = true ∨ feed.Refused path) (n : Nat) :
    ((Source.read path c n).runOn s).2.Drawn script chunked feed furthest st := by
  cases hc : s.isClosed c with
  | true =>
    rw [runOn_read_of_closed hc]
    exact h
  | false =>
    have hpath : feed.Refused path := hrefused.resolve_left (by simp [hc])
    rw [runOn_read hc, h.buffer_eq, Buffer.fill_of_refused (h.path_eq.symm ▸ hpath)]
    exact ⟨h.toDraws, rfl, h.path_eq, h.least, h.enough⟩

theorem Drawn.perform (hplain : Plain chunked script) (hs : s.Proper) (hnonneg : 0 ≤ furthest)
    (h : s.Drawn script chunked feed furthest st) (use : Use) :
    ∃ st', (s.after [use]).Drawn script chunked feed (max furthest (s.asked feed use)) st' := by
  obtain ⟨path, c, r⟩ := use
  have hother : (∀ n, r ≠ .read n) →
      ∃ st', (s.after [⟨path, c, r⟩]).Drawn script chunked feed (max furthest 0) st' := by
    intro hr
    rw [max_eq_left hnonneg]
    exact h.passed (passage_perform hs hr path c)
  cases r with
  | read n =>
    rw [asked, after_single]
    split
    · rename_i hrefused
      rw [max_eq_left hnonneg]
      exact ⟨st, h.refused hrefused n⟩
    · rename_i hreads
      obtain ⟨hc, hpath⟩ := not_or.1 hreads
      exact h.read hplain (Bool.eq_false_of_not_eq_true hc) hpath n
  | consume | fork | join | close => exact hother (by simp)

theorem Drawn.after (hplain : Plain chunked script) (uses : List Use) : ∀ {s : Source} {furthest : Int}
    {st : Stream}, s.Proper → 0 ≤ furthest → s.Drawn script chunked feed furthest st →
    ∃ st', (s.after uses).Drawn script chunked feed (max furthest (s.furthestAsked feed uses)) st' := by
  induction uses with
  | nil =>
    intro s furthest st _ hnonneg h
    rw [furthestAsked, max_eq_left hnonneg]
    exact ⟨st, h⟩
  | cons use uses ih =>
    intro s furthest st hs hnonneg h
    obtain ⟨st', h'⟩ := h.perform hplain hs hnonneg use
    rw [furthestAsked, ← max_assoc]
    exact ih (hs.after [use]) (le_max_of_le_left hnonneg) h'

theorem furthestAsked_nonneg (feed : Path) (uses : List Use) : ∀ s : Source,
    0 ≤ s.furthestAsked feed uses := by
  induction uses with
  | nil => exact fun _ => le_refl _
  | cons use uses ih => exact fun s => le_max_of_le_right (ih _)

/-! ## Runs -/

/-- Over values that can be gone through, a source has always pulled just as many elements as it takes
to bring what was asked for, up to the furthest place that any read has asked for so far, or all of them
if they bring less. Whatever else is done, in forks that are joined or dropped, by the root or while a
rule is evaluated, it pulls nothing. -/
theorem drawn_of_asked (script : List Value) (chunked : Bool) (feed : Path)
    (hplain : Plain chunked script) (acts : List Action) :
    (∃ uses, Makes (ofFeed (script.map .value) chunked feed) acts uses) ∧
    ∀ uses, Makes (ofFeed (script.map .value) chunked feed) acts uses →
      ∃ st : Stream,
        ((ofFeed (script.map .value) chunked feed).acted acts).Drawn script chunked feed
          ((ofFeed (script.map .value) chunked feed).furthestAsked feed uses) st ∧
        (chunked = false → (st.pulled : Int) =
          min ((ofFeed (script.map .value) chunked feed).furthestAsked feed uses) script.length) := by
  have hproper : (ofFeed (script.map .value) chunked feed).Proper := (Arisen.ofFeed ..).proper rfl
  have hstart : (ofFeed (script.map .value) chunked feed).Drawn script chunked feed 0
      (.ofFeed (script.map .value) chunked feed) :=
    ⟨.ofFeed script chunked feed, rfl, rfl, nofun, .inl (Int.natCast_nonneg _)⟩
  refine ⟨exists_makes acts hproper, fun uses huses => ?_⟩
  have hnonneg := furthestAsked_nonneg feed uses (ofFeed (script.map .value) chunked feed)
  obtain ⟨st, hst⟩ := hstart.after hplain uses hproper (le_refl _)
  rw [max_eq_right hnonneg] at hst
  have hdrawn := huses.matches.drawn hst
  refine ⟨st, hdrawn, ?_⟩
  rintro rfl
  exact hdrawn.pulled_eq_min hnonneg

/-- Lists of two items, of none and of one, and one that is left alone. -/
def lists : List Value := [.list [.int 1, .int 2], .list [], .list [.int 3], .list [.int 4]]

/-- A fork reads on behind the first list and is dropped; the root consumes an item. -/
def readAhead : List Use :=
  [⟨.blocking, .root, .fork⟩, ⟨.blocking, .fork 0, .read 2⟩, ⟨.blocking, .fork 0, .consume 2⟩,
    ⟨.blocking, .fork 0, .read 1⟩, ⟨.blocking, .root, .consume 1⟩, ⟨.blocking, .fork 0, .close⟩]

theorem drawn_of_asked_readAhead :
    Plain true lists ∧ ∃ st : Stream,
      ((ofFeed (lists.map .value) true .blocking).acted (readAhead.map .request)).Drawn lists true
        .blocking 3 st ∧ st.pulled = 3 := by
  have hplain : Plain true lists := by
    intro v hv
    simp only [lists, List.mem_cons, List.not_mem_nil, or_false] at hv
    obtain rfl | rfl | rfl | rfl := hv <;> exact ⟨_, rfl⟩
  have hmakes : Makes (ofFeed (lists.map .value) true .blocking) (readAhead.map .request) readAhead :=
    .request <| .request <| .request <| .request <| .request <| .request <| .nil _
  obtain ⟨-, hdrawn⟩ := drawn_of_asked lists true .blocking hplain (readAhead.map .request)
  obtain ⟨st, hst, -⟩ := hdrawn readAhead hmakes
  refine ⟨hplain, st, hst, ?_⟩
  have hpulled := congrArg Buffer.pulled? hst.buffer_eq
  exact (Option.some.inj hpulled).symm

/-- A chunk with more items than can be held is pulled and brings none of them, and a feed that is read
while others go on is not pulled by a read that waits for it, whatever that asks for. -/
theorem not_drawn_of_asked_longRange :
    (∃ st : Stream,
      ((ofFeed [.value (.range 0 (2 ^ 63) 1)] true .blocking).after
        [⟨.blocking, .root, .read 1⟩]).buffer = .stream st ∧ st.pulled = 1 ∧
      ((ofFeed [.value (.range 0 (2 ^ 63) 1)] true .blocking).after
        [⟨.blocking, .root, .read 1⟩]).position + st.available <
          contributed true [.range 0 (2 ^ 63) 1]) ∧
    (ofFeed [.value (.int 5)] false .suspending).isClosed .root = false ∧
    ((ofFeed [.value (.int 5)] false .suspending).after
      [⟨.blocking, .root, .read 1⟩]).buffer.pulled? = some 0 ∧
    contributed false ([.int 5].take 0) <
      (ofFeed [.value (.int 5)] false .suspending).positionOf .root + 1 := by
  refine ⟨⟨_, rfl, rfl, ?_⟩, rfl, rfl, by decide⟩
  -- the first member of the range would be there
  have hitem := Value.getElem?_rangeItems 0 1 (Value.rangeSize 0 (2 ^ 63) 1) 0 0
  rw [if_pos (by decide)] at hitem
  obtain ⟨hlt, -⟩ := List.getElem?_eq_some_iff.1 hitem
  have hcontributed : contributed true [.range 0 (2 ^ 63) 1] =
      (Value.rangeItems 0 1 0 (Value.rangeSize 0 (2 ^ 63) 1)).length := by
    rw [contributed, List.flatMap_cons, List.flatMap_nil, List.append_nil]
    rfl
  rw [hcontributed]
  exact Int.natCast_pos.2 hlt

end Source
end Backtrack
