/-
Presentations: when buffers show what a medium holds. A presentation relates a state of the medium
to a buffer whose root has come to some position, and says what it takes that reading and consuming
keep the relation. Over it, `Stands a s c` says that the open cursor `c` of the source `s` stands
where the scan state `a` is, and each operation on cursors is told once in these terms: a read sees
what the medium holds, a consumption advances the index, a fork stands where its parent stands, a
closed fork leaves its parent there, and a joined one takes it along.
-/
import Backtrack.Proofs.Cursor
import Backtrack.Proofs.Scan
namespace Backtrack

open Source

/-- What a read gives of what lies `k` places ahead, where the medium gives `found`: the same
failure, which is no signal; the item, with room to consume up to it; or nothing, where the input has
ended. -/
inductive Saw (k : Nat) (room : Prop) : Except Failure Sequence → Except Failure (Option Value) → Prop
  where
  | failed {f : Failure} (hf : f.isA .stopIteration = false) : Saw k room (.error f) (.error f)
  | found {items : Sequence} {v : Value} (h : items.get? k = some v) (hr : room) :
    Saw k room (.ok items) (.ok (some v))
  | ended {items : Sequence} (h : items.get? k = none) : Saw k room (.ok items) (.ok none)

/-- What shows a medium: `Shows t b p` says that the buffer `b`, whose first waiting item is at
position `p`, shows the medium in state `t` to every cursor at an admitted offset. -/
structure Presentation {τ : Type} (M : Medium τ) (path : Path) where
  Shows : τ → Buffer → Int → Prop
  Admits : Int → Prop
  admits_zero : Admits 0
  admits_add : ∀ {o : Int} (n : Nat), Admits o → Admits (o + n)
  countable : ∀ {t b p}, Shows t b p → b.countFailure? = none
  shows_fill : ∀ {t b p o} {i : Nat} (k : Nat), Shows t b p → Admits o → p + o = i →
    Shows (M.item? (i + k) t).2 (b.fill path (o + (k + 1))).1 p
  available_fill : ∀ {t b p o} {i : Nat} (k : Nat), Shows t b p → Admits o → p + o = i →
    b.available ≤ (b.fill path (o + (k + 1))).1.available
  saw_fill : ∀ {t b p o} {i : Nat} (k : Nat), Shows t b p → Admits o → p + o = i →
    Saw k (o + (k + 1) ≤ (b.fill path (o + (k + 1))).1.available)
      (match (b.fill path (o + (k + 1))).2.2 with
        | some f => .error f
        | none => (b.fill path (o + (k + 1))).1.slice o (o + (k + 1)))
      (M.item? (i + k) t).1
  shows_consume : ∀ {t b p o}, Shows t b p → Admits o → o ≤ b.available →
    Shows t (b.consume o).1 (p + o)
  available_consume : ∀ {t b p o}, Shows t b p → Admits o → o ≤ b.available →
    (b.consume o).1.available = b.available - o

namespace Presentation

variable {τ : Type} {M : Medium τ} {path : Path} (P : Presentation M path)

/-- The open cursor `c` of `s` stands where the scan state `a` is, over a buffer that shows the
medium, and not beyond what waits. -/
structure Stands (a : Scan.State τ) (s : Source) (c : Cursor) : Prop where
  shows : P.Shows a.medium s.buffer s.position
  isOpen : s.isClosed c = false
  position : s.positionOf c = a.index
  within : s.offset c ≤ s.buffer.available
  admitted : P.Admits (s.offset c)

variable {P} {a b : Scan.State τ} {s u : Source} {c : Cursor}

/-- What is reported does not matter to where a cursor stands. -/
theorem Stands.withEvents (h : P.Stands a s c) (events : List Event) :
    P.Stands a { s with events := events } c :=
  ⟨h.shows, h.isOpen, h.position, h.within, h.admitted⟩

/-! ## Reading and consuming -/

theorem Stands.read (h : P.Stands a s c) (k : Nat) :
    P.Stands ⟨a.index, (M.item? (a.index + k) a.medium).2⟩ ((read path c (k + 1)).runOn s).2 c ∧
    Frame c s ((read path c (k + 1)).runOn s).2 ∧
    Saw k (((read path c (k + 1)).runOn s).2.offset c + (k + 1) ≤
        ((read path c (k + 1)).runOn s).2.buffer.available)
      ((read path c (k + 1)).runOn s).1 (M.item? (a.index + k) a.medium).1 := by
  have hp : s.position + s.offset c = a.index := h.position
  have hmono := P.available_fill k h.shows h.admitted hp
  rw [runOn_read h.isOpen]
  refine ⟨⟨P.shows_fill k h.shows h.admitted hp, h.isOpen, h.position, le_trans h.within hmono,
    h.admitted⟩, ⟨le_refl _, fun _ _ _ => rfl, fun _ _ => rfl, fun _ => rfl, fun _ => hmono⟩, ?_⟩
  exact P.saw_fill k h.shows h.admitted hp

theorem Stands.consumeFailure?_eq_none (h : P.Stands a s c) {o n : Int}
    (hn : o + n ≤ s.buffer.available) : consumeFailure? s.buffer o n = none := by
  simp [consumeFailure?, P.countable h.shows, hn]

/-- Consuming what waits goes on by as many places. -/
theorem Stands.consume (h : P.Stands a s c) {n : Nat} (hn : s.offset c + n ≤ s.buffer.available) :
    ∃ u, (Source.consume c n).runOn s = (.ok (), u) ∧
      P.Stands ⟨a.index + n, a.medium⟩ u c ∧ Frame c s u := by
  cases c with
  | root =>
    have hn' : (n : Int) ≤ s.buffer.available := by simpa [offset] using hn
    have hadm : P.Admits n := by simpa using P.admits_add n P.admits_zero
    refine ⟨_, runOn_consumeRoot (h.consumeFailure?_eq_none (by simpa using hn')),
      ⟨P.shows_consume h.shows hadm hn', rfl, ?_, ?_, P.admits_zero⟩,
      ⟨le_refl _, fun _ _ _ => rfl, fun _ _ => rfl, fun hc => absurd rfl hc, fun hc => absurd rfl hc⟩⟩
    · have hp := h.position
      simp only [positionOf, offset] at hp ⊢
      push_cast
      omega
    · simp only [offset, P.available_consume h.shows hadm hn']
      omega
  | fork id =>
    have hid := lt_size_of_open h.isOpen
    refine ⟨_, runOn_consume_fork h.isOpen (h.consumeFailure?_eq_none hn), ?_, ?_⟩
    · have hp := h.position
      have hadm := P.admits_add n h.admitted
      simp only [positionOf, offset] at hp hn hadm
      refine ⟨h.shows, ?_, ?_, ?_, ?_⟩
      · simpa [isClosed, forkAt_setFork_self hid] using h.isOpen
      · simp only [positionOf, offset, position_setFork, forkAt_setFork_self hid]
        push_cast
        omega
      · simpa [offset, forkAt_setFork_self hid] using hn
      · simpa [offset, forkAt_setFork_self hid] using hadm
    · refine ⟨by simp, fun other _ hne => forkAt_setFork_ne s (by rintro rfl; exact hne rfl) _, ?_,
        fun _ => rfl, fun _ => le_refl _⟩
      rintro other ⟨rfl⟩
      rw [forkAt_setFork_self hid]

/-! ## Forks -/

/-- A new fork stands where its parent stands. -/
theorem Stands.fork (h : P.Stands a s c) :
    P.Stands a (s.addFork c) (.fork s.forks.size) := by
  refine ⟨h.shows, ?_, ?_, ?_, ?_⟩
  · simp [isClosed, forkAt_addFork_new]
  · simpa [positionOf, offset, forkAt_addFork_new] using h.position
  · simpa [offset, forkAt_addFork_new] using h.within
  · simpa [offset, forkAt_addFork_new] using h.admitted

/-- Where neither the root nor the cursor has moved, the cursor stands where it stood. -/
theorem Stands.unmoved (h : P.Stands a s c) {t : τ} (hshows : P.Shows t u.buffer u.position)
    (hposition : u.position = s.position) (havailable : s.buffer.available ≤ u.buffer.available)
    (hfork : ∀ id, .fork id = c → u.forkAt id = s.forkAt id) : P.Stands ⟨a.index, t⟩ u c := by
  have hoffset : u.offset c = s.offset c := by
    cases c with
    | root => rfl
    | fork id => rw [offset, offset, hfork id rfl]
  have hclosed : u.isClosed c = s.isClosed c := by
    cases c with
    | root => rfl
    | fork id => rw [isClosed, isClosed, hfork id rfl]
  refine ⟨hshows, hclosed.trans h.isOpen, ?_, ?_, ?_⟩
  · rw [← h.position, positionOf, positionOf, hoffset, hposition]
  · rw [hoffset]
    exact le_trans h.within havailable
  · rw [hoffset]
    exact h.admitted

/-- Whatever became of a fork, its parent stands where it stood. -/
theorem Stands.of_fork (h : P.Stands a s c) (hu : P.Stands b u (.fork s.forks.size))
    (hf : Frame (.fork s.forks.size) (s.addFork c) u) : P.Stands ⟨a.index, b.medium⟩ u c := by
  refine h.unmoved hu.shows (hf.position (by simp)) (hf.available (by simp)) ?_
  rintro id rfl
  -- the parent was there before the fork, so the fork's frame leaves it alone
  have hid := lt_size_of_open h.isOpen
  rw [hf.others id (by simp; omega) (by simp; omega), forkAt_addFork_old hid]

/-- A change to another fork does not matter to where a cursor stands. -/
theorem Stands.setFork_ne (h : P.Stands a s c) {id : Nat} (hne : .fork id ≠ c) (f : Fork → Fork) :
    P.Stands a (s.setFork id f) c := by
  refine h.unmoved h.shows rfl (le_refl _) ?_
  rintro other rfl
  exact forkAt_setFork_ne s (by rintro rfl; exact hne rfl) f

/-- Closing a fork leaves its parent where it stood. -/
theorem Stands.close (h : P.Stands a s c) (hu : P.Stands b u (.fork s.forks.size))
    (hf : Frame (.fork s.forks.size) (s.addFork c) u) :
    ∃ v, (Source.close (.fork s.forks.size)).runOn u = (.ok (), v) ∧
      P.Stands ⟨a.index, b.medium⟩ v c ∧ Frame c s v := by
  have hne : .fork s.forks.size ≠ c := by
    rintro rfl
    exact lt_irrefl _ (lt_size_of_open h.isOpen)
  exact ⟨_, runOn_close_fork u _, (h.of_fork hu hf).setFork_ne hne _,
    (hf.of_fork h.isOpen).setFork (.inl (le_refl _)) fun _ => rfl⟩

/-- Joining a fork makes its parent stand where the fork stood. -/
theorem Stands.join (h : P.Stands a s c) (hu : P.Stands b u (.fork s.forks.size))
    (hf : Frame (.fork s.forks.size) (s.addFork c) u) :
    ∃ v, (Source.join (.fork s.forks.size)).runOn u = (.ok (), v) ∧
      P.Stands b v c ∧ Frame c s v := by
  have hparent : (u.forkAt s.forks.size).parent = parentOf c := by
    rw [hf.parent _ rfl, forkAt_addFork_new]
  have hback := h.of_fork hu hf
  have hframe : Frame c s (u.setFork s.forks.size fun x => { x with closed := true }) :=
    (hf.of_fork h.isOpen).setFork (.inl (le_refl _)) fun _ => rfl
  have hposition := hu.position
  have hwithin := hu.within
  have hadm := hu.admitted
  simp only [positionOf, offset] at hposition hwithin hadm
  cases c with
  | root =>
    -- the root takes over what the fork consumed, so that the buffer itself goes on
    have hc : consumeFailure? (u.setFork s.forks.size fun x => { x with closed := true }).buffer 0
        (u.forkAt s.forks.size).offset = none :=
      hu.consumeFailure?_eq_none (by simpa using hwithin)
    refine ⟨_, (runOn_join_of_root hu.isOpen hparent).trans (runOn_consumeRoot hc),
      ⟨P.shows_consume hu.shows hadm hwithin, rfl, ?_, ?_, P.admits_zero⟩, ?_⟩
    · simpa [positionOf, offset] using hposition
    · simpa [offset, P.available_consume hu.shows hadm hwithin] using hwithin
    · exact ⟨hframe.size, hframe.others, hframe.parent, fun hc => absurd rfl hc,
        fun hc => absurd rfl hc⟩
  | fork id =>
    -- a parent that is a fork takes over the offset, and the buffer stays where it is
    have hid := lt_size_of_open h.isOpen
    have hid' : id < (u.setFork s.forks.size fun x => { x with closed := true }).forks.size := by
      simpa using lt_of_lt_of_le hid (hf.of_fork h.isOpen).size
    have hopen := hback.isOpen
    refine ⟨_, runOn_join_of_fork hu.isOpen hparent (by omega) hopen, ?_,
      hframe.setFork (.inr rfl) fun _ => rfl⟩
    have hne : s.forks.size ≠ id := by omega
    refine ⟨hu.shows, ?_, ?_, ?_, ?_⟩
    · simpa [isClosed, forkAt_setFork_self hid', forkAt_setFork_ne u hne] using hopen
    · simpa [positionOf, offset, forkAt_setFork_self hid'] using hposition
    · simpa [offset, forkAt_setFork_self hid'] using hwithin
    · simpa [offset, forkAt_setFork_self hid'] using hadm

end Presentation
end Backtrack
