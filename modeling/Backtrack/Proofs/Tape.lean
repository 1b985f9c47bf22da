/-
The tape of a source: its buffer as it would be if the root had never moved, so that places on it are
counted from the start of the input. A read shows what the tape shows at the position of its cursor,
whichever cursor that is, and makes the tape longer; consuming, joining and forking leave the tape
alone. Of two tapes of one line the longer one shows the same, unless the shorter one fails at an
element that the longer one has taken already.
-/
import Backtrack.Proofs.Leading
import Backtrack.Proofs.Supply
namespace Backtrack

/-! ## Elements taken between two buffers -/

namespace Stream

theorem Leads.taken {lead : Int} {s s' : Stream} (h : s.Leads lead s') :
    s.taken.Leads lead s'.taken := by
  rw [Stream.taken, Stream.taken, h.ended]
  split
  · exact h
  · rw [h.feed]
    split
    · exact ⟨rfl, h.pulled, h.chunked, h.path, rfl, h.items⟩
    · rename_i rest _
      exact (h.advance rest).finish
    · exact h.advance _
    · rw [h.chunked]
      split
      · exact h.advance _
      · exact (h.advance _).append _

end Stream

namespace Buffer

variable {b b' b'' : Buffer} {path : Path} {o n : Int} {e : Failure}

theorem later_taken (b : Buffer) : b.Later b.taken := by
  cases b with
  | memory data start => exact .refl _
  | irregular data start => exact .refl _
  | stream s =>
    simp only [taken, Stream.taken]
    split
    · exact .refl _
    · split
      · exact ⟨rfl, List.suffix_rfl⟩
      · rename_i rest hfeed
        exact ⟨rfl, by simp [feed, Stream.advance, hfeed]⟩
      · rename_i rest hfeed
        exact ⟨rfl, by simp [feed, Stream.advance, hfeed]⟩
      · rename_i v rest hfeed
        split
        · exact ⟨rfl, by simp [feed, Stream.advance, hfeed]⟩
        · exact ⟨rfl, by simp [feed, Stream.advance, hfeed]⟩

/-- Further along the line of a buffer its feed has gone on. -/
theorem Reaches.later (h : b.Reaches b') : b.Later b' := h.induction .refl .trans later_taken

theorem Leads.taken {lead : Int} (h : b.Leads lead b') : b.taken.Leads lead b'.taken := by
  cases h with
  | memory data h => exact .memory data h
  | irregular data h => exact .irregular data h
  | stream h => exact .stream h.taken

/-- A lead stays the same however far the buffers get. -/
theorem Leads.reaches {lead : Int} {c : Buffer} (h : b.Leads lead b') (hc : b.Reaches c) :
    ∃ c', b'.Reaches c' ∧ c.Leads lead c' := by
  obtain ⟨n, rfl⟩ := hc
  refine ⟨Buffer.taken^[n] b', ⟨n, rfl⟩, ?_⟩
  induction n with
  | zero => exact h
  | succ n ih =>
    rw [Function.iterate_succ_apply', Function.iterate_succ_apply']
    exact ih.taken

theorem Leads.feed {lead : Int} (h : b.Leads lead b') : b'.feed = b.feed := by
  cases h with
  | memory | irregular => rfl
  | stream h => exact h.feed

/-- The elements that the second buffer has taken of its feed and the first has not. -/
def between (b b' : Buffer) : List Element := b.feed.take (b.feed.length - b'.feed.length)

/-- The elements that were taken are those that are no longer to come. -/
theorem between_eq {taken : List Element} (h : b.feed = taken ++ b'.feed) : b.between b' = taken := by
  rw [between, h, List.length_append, Nat.add_sub_cancel, List.take_left]

theorem Reaches.between_append (h : b.Reaches b') (h' : b'.Reaches b'') :
    b.between b'' = b.between b' ++ b'.between b'' := by
  obtain ⟨first, hfirst⟩ := h.later.feed
  obtain ⟨second, hsecond⟩ := h'.later.feed
  rw [between_eq hfirst.symm, between_eq hsecond.symm]
  exact between_eq (by rw [← hfirst, ← hsecond, List.append_assoc])

/-- What taking an element of the feed raises. -/
def Raises : Buffer → Element → Failure → Prop
  | stream s, x, e => Stream.Raises s.chunked x e
  | memory .., _, _ | irregular .., _, _ => False

/-- The second buffer has taken an element that the first has not, which raises the failure. -/
def Misses (b b' : Buffer) (e : Failure) : Prop := ∃ x ∈ b.between b', b.Raises x e

/-- Which elements were taken has nothing to do with what was consumed. -/
theorem Leads.misses_iff {lead lead' : Int} {c c' : Buffer} (h : b.Leads lead c) (h' : b'.Leads lead' c') :
    c.Misses c' e ↔ b.Misses b' e := by
  have hbetween : c.between c' = b.between b' := by rw [between, between, h.feed, h'.feed]
  have hraises : ∀ x, c.Raises x e ↔ b.Raises x e := by
    cases h with
    | memory | irregular => exact fun _ => Iff.rfl
    | stream h => simp only [Raises, h.chunked, implies_true]
  simp only [Misses, hbetween, hraises]

theorem Misses.reaches (h : b.Reaches b') (h' : b'.Reaches b'') (hmisses : b.Misses b' e) :
    b.Misses b'' e := by
  obtain ⟨x, hx, hraises⟩ := hmisses
  refine ⟨x, ?_, hraises⟩
  rw [h.between_append h']
  exact List.mem_append_left _ hx

theorem misses_advance {s : Stream} {k : Nat} {x : Element} {rest : List Element}
    (hfeed : (Stream.taken^[k] s).feed = x :: rest) (hraises : Stream.Raises s.chunked x e) :
    (stream s).Misses (stream ((Stream.taken^[k] s).advance rest)) e := by
  have hreaches : (stream s).Reaches (stream (Stream.taken^[k] s)) := ⟨k, iterate_taken_stream s k⟩
  obtain ⟨before, hbefore⟩ := hreaches.later.feed
  have hbetween : (stream s).between (stream ((Stream.taken^[k] s).advance rest)) = before ++ [x] := by
    refine between_eq ?_
    rw [← hbefore, feed, hfeed, List.append_assoc]
    rfl
  exact ⟨x, by simp [hbetween], hraises⟩

/-- A fill that fails stops behind an element that raises the failure, or fails for all buffers of the
line and does nothing to them. -/
theorem misses_or_refused_of_fill (h : (b.fill path n).2.2 = some e) :
    b.Misses (b.fill path n).1 e ∨ ∀ c, b.Reaches c → c.fill path n = (c, [], some e) := by
  cases b with
  | memory data start => cases h
  | irregular data start => cases h
  | stream s =>
    by_cases hrefused : s.path = .suspending ∧ path = .blocking
    · right
      rw [fill_of_refused hrefused] at h
      obtain rfl := Option.some.inj h
      intro c hc
      cases hc.extends with
      | refl => exact fill_of_refused hrefused n
      | stream hsu => exact fill_of_refused (hsu.path.symm ▸ hrefused) n
    · left
      simp only [fill, Stream.fill, if_neg hrefused] at h ⊢
      cases hended : s.ended with
      | true =>
        rw [hended, if_pos rfl] at h
        cases h
      | false =>
        rw [hended, if_neg Bool.false_ne_true] at h
        obtain ⟨k, x, rest, hfeed, -, hstream, hraises⟩ :=
          Stream.exists_of_pull_failure s.feed rfl hended h
        rw [if_neg Bool.false_ne_true, hstream]
        exact misses_advance hfeed hraises

/-! ## Looks -/

/-- What is seen of a buffer when it is read: `n` items from the place `o` on. -/
def look (b : Buffer) (path : Path) (o n : Int) : Except Failure Sequence :=
  match (b.fill path (o + n)).2.2 with
  | some e => .error e
  | none => (b.fill path (o + n)).1.slice o (o + n)

theorem Leads.look {lead : Int} (h : b.Leads lead b') (ho : 0 ≤ o) (hn : 0 ≤ n) (path : Path) :
    b'.look path (o + lead) n = b.look path o n := by
  obtain ⟨hfailure, hfill⟩ := h.fill path (o + n)
  have hplace : o + lead + n = o + n + lead := by ring
  rw [Buffer.look, Buffer.look, hplace, hfailure]
  cases (b.fill path (o + n)).2.2 with
  | some e => rfl
  | none => exact hfill.slice ho (by omega)

/-- A buffer that is further on shows the same, unless the one behind it fails at an element that it has
taken already. After the look the one is still behind the other. -/
theorem Reaches.look (h : b.Reaches b') (ho : ¬ b.Precedes o) (hn : 0 ≤ n) (path : Path) :
    (b'.look path o n = b.look path o n ∨ ∃ e, b.look path o n = .error e ∧ b.Misses b' e) ∧
      (b.fill path (o + n)).1.Reaches (b'.fill path (o + n)).1 := by
  have hfar := b'.reaches_fill path (o + n)
  rcases h.fill path (o + n) with ⟨hfails, hbehind⟩ | ⟨hbuffer, hfailure⟩ | ⟨hbehind, hstays, hfailure⟩
  · refine ⟨?_, hbehind.trans hfar⟩
    obtain ⟨e, he⟩ := Option.ne_none_iff_exists'.1 hfails
    have hlook : b.look path o n = .error e := by rw [Buffer.look, he]
    rcases misses_or_refused_of_fill he with hmisses | hrefused
    · exact .inr ⟨e, hlook, hmisses.reaches (b.reaches_fill path _) hbehind⟩
    · left
      rw [hlook, Buffer.look, hrefused b' h]
  · refine ⟨.inl ?_, hbuffer ▸ .refl _⟩
    rw [Buffer.look, Buffer.look, hbuffer, hfailure]
  · refine ⟨.inl ?_, hbehind.trans hfar⟩
    rw [Buffer.look, Buffer.look, hfailure]
    cases hnone : (b.fill path (o + n)).2.2 with
    | some e => rfl
    | none =>
      rw [hstays]
      exact slice_of_reaches_fill ho hn hnone hbehind

end Buffer

/-! ## Tapes of sources -/

namespace Source

variable {s u : Source} {b b' : Buffer} {c : Cursor}

/-- A source as it is made, before anything was asked of it. -/
inductive New : Source → Prop where
  | ofData (v : Value) : New (.ofData v)
  | ofFeed (feed : List Element) (chunked : Bool) (path : Path) : New (.ofFeed feed chunked path)

theorem New.proper (h : s.New) : s.Proper := by
  cases h with
  | ofData v => exact (Arisen.ofData v).proper rfl
  | ofFeed feed chunked path => exact (Arisen.ofFeed feed chunked path).proper rfl

/-- The buffer `b` is the tape of the source: the source's own is as far along, the root having passed
some of its items, and it begins at the start of the input. -/
structure OnTape (s : Source) (b : Buffer) : Prop where
  position_nonneg : 0 ≤ s.position
  leads : s.buffer.Leads s.position b
  starts : ∀ o, 0 ≤ o → ¬ b.Precedes o

theorem New.onTape (h : s.New) : s.OnTape s.buffer := by
  cases h with
  | ofData v =>
    refine ⟨le_refl _, .refl _, fun o _ => ?_⟩
    simp only [Source.ofData, ofBuffer, Buffer.ofValue]
    split
    · split <;> exact id
    · exact id
  | ofFeed feed chunked path =>
    refine ⟨le_refl _, .refl _, fun o ho => ?_⟩
    simpa [Source.ofFeed, ofBuffer, Buffer.Precedes, Stream.ofFeed] using ho

/-- What waits ahead of the root is what is left of the tape. -/
theorem OnTape.available (h : s.OnTape b) : b.available = s.position + s.buffer.available := by
  rw [h.leads.available, add_comm]

/-- Taking the root further leaves the tape alone. -/
theorem OnTape.passed (h : s.OnTape b) (hpassage : Passage s u) : u.OnTape b := by
  cases hpassage with
  | kept hbuffer hposition => exact ⟨hposition ▸ h.position_nonneg, hposition ▸ hbuffer ▸ h.leads, h.starts⟩
  | consumed n hle hbuffer hposition =>
    have hnonneg := h.position_nonneg
    refine ⟨by omega, ?_, h.starts⟩
    rw [hbuffer, hposition]
    exact h.leads.consume (Int.natCast_nonneg n) hle

theorem OnTape.effect (h : s.OnTape b) (heffect : Effect s u) : ∃ b', b.Reaches b' ∧ u.OnTape b' := by
  cases heffect with
  | filled hreaches hposition =>
    obtain ⟨b', hb, hleads⟩ := h.leads.reaches hreaches
    refine ⟨b', hb, hposition ▸ h.position_nonneg, hposition ▸ hleads, fun o ho => ?_⟩
    rw [hb.precedes_iff]
    exact h.starts o ho
  | consumed n hle hbuffer hposition => exact ⟨b, .refl b, h.passed (.consumed n hle hbuffer hposition)⟩

/-- However a source is used, its tape only gets longer. -/
theorem OnTape.after (uses : List Use) : ∀ {s : Source} {b : Buffer}, s.Proper → s.OnTape b →
    ∃ b', b.Reaches b' ∧ (s.after uses).OnTape b' := by
  induction uses with
  | nil => exact fun _ h => ⟨_, .refl _, h⟩
  | cons use uses ih =>
    intro s b hs h
    obtain ⟨b', hb, h'⟩ := h.effect (effect_perform hs use.request use.path use.cursor)
    obtain ⟨b'', hb', h''⟩ := ih (hs.after [use]) h'
    exact ⟨b'', hb.trans hb', h''⟩

theorem OnTape.positionOf_nonneg (h : s.OnTape b) (hs : s.Proper) (c : Cursor) : 0 ≤ s.positionOf c :=
  Int.add_nonneg h.position_nonneg (hs.zero_le_offset c)

/-- A read at an open cursor looks at the tape where the cursor stands, and makes it longer. -/
theorem OnTape.read (hs : s.Proper) (h : s.OnTape b) (hc : s.isClosed c = false) (path : Path) (n : Nat) :
    ((Source.read path c n).runOn s).1 = b.look path (s.positionOf c) n ∧
      ((Source.read path c n).runOn s).2.OnTape (b.fill path (s.positionOf c + n)).1 := by
  have hplace : s.positionOf c = s.offset c + s.position := add_comm _ _
  have hend : s.positionOf c + n = s.offset c + n + s.position := by rw [positionOf]; ring
  obtain ⟨-, hfill⟩ := h.leads.fill path (s.offset c + n)
  rw [runOn_read hc, hend]
  refine ⟨?_, h.position_nonneg, hfill, fun o ho => ?_⟩
  · rw [hplace, h.leads.look (hs.zero_le_offset c) (Int.natCast_nonneg n)]
    rfl
  · rw [(b.reaches_fill path _).precedes_iff]
    exact h.starts o ho

end Source
end Backtrack
