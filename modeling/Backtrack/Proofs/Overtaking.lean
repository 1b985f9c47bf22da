/-
Forks that the root overtakes. A fork keeps an offset to the root, and the root moves on without
regard to the forks that are open, by itself or when one of them is joined. The others keep their
offsets, so that fewer items may wait than a fork has consumed. How many fewer is told here, for
every run of requests at whatever cursors: no more than the root has moved since it made the fork
that the fork comes from. Of a fork of which the root has not moved since, all that it has consumed
waits.
-/
import Backtrack.Proofs.Course
import Backtrack.Proofs.Extent
import Backtrack.Proofs.Stack
namespace Backtrack

/-- A request, the cursor that it is made of, and the path on which that cursor reads. -/
structure Use where
  path : Path
  cursor : Cursor
  request : Request

namespace Source

/-- The source after a run of uses, whatever they answered. -/
def after (s : Source) : List Use → Source
  | [] => s
  | ⟨path, c, r⟩ :: uses => after ((r.perform path c).runOn s).2 uses

@[simp] theorem after_nil (s : Source) : s.after [] = s := rfl

theorem after_append (before since : List Use) : ∀ s : Source,
    s.after (before ++ since) = (s.after before).after since := by
  induction before with
  | nil => exact fun s => rfl
  | cons use before ih => exact fun s => ih _

/-- The fork `g` is the fork `f`, or was made from a fork that comes from it. -/
inductive ComesFrom (s : Source) (f : Nat) : Nat → Prop where
  | self : ComesFrom s f f
  | fork {g parent : Nat} (hparent : (s.forkAt g).parent = some parent)
    (h : ComesFrom s f parent) : ComesFrom s f g

variable {s t u : Source} {c : Cursor} {f g : Nat}

/-! ## Changes -/

/-- What a request that makes no fork does to a source, a step at a time: it fills the buffer, takes
the root past items that wait, takes a fork past items that wait, closes a fork, or puts a fork where
a fork of it stands. -/
inductive Change (s : Source) : Source → Prop where
  | filled {u : Source} (hmore : s.buffer.available ≤ u.buffer.available)
    (hposition : u.position = s.position) (hforks : u.forks = s.forks) : Change s u
  | passed {u : Source} (amount : Int)
    (hamount : 0 ≤ amount ∨ ∃ id, amount = s.offset (.fork id))
    (hle : amount ≤ s.buffer.available)
    (havailable : u.buffer.available = s.buffer.available - amount)
    (hposition : u.position = s.position + amount) (hforks : u.forks = s.forks) : Change s u
  | advanced (id n : Nat) (hle : s.offset (.fork id) + n ≤ s.buffer.available) :
    Change s (s.setFork id fun f => { f with offset := f.offset + n })
  | closed (id : Nat) : Change s (s.setFork id fun f => { f with closed := true })
  | handed (id parent : Nat) (hparent : (s.forkAt id).parent = some parent) :
    Change s (s.setFork parent fun p => { p with offset := s.offset (.fork id) })

/-- Any number of changes. -/
abbrev Changes : Source → Source → Prop := Relation.ReflTransGen Change

theorem forkAt_congr (h : u.forks = s.forks) (id : Nat) : u.forkAt id = s.forkAt id := by
  rw [forkAt, forkAt, h]

theorem forkAt_of_size_le (h : s.forks.size ≤ g) : s.forkAt g = ⟨none, 0, true⟩ := by
  simp [forkAt, Array.getD_eq_getD_getElem?, h]

/-- A change at a fork leaves the others alone. -/
theorem forkAt_setFork_or (s : Source) (id : Nat) (f : Fork → Fork) (g : Nat) :
    (s.setFork id f).forkAt g = s.forkAt g ∨
    g = id ∧ (s.setFork id f).forkAt g = f (s.forkAt id) := by
  by_cases hne : id = g
  · subst hne
    by_cases hid : id < s.forks.size
    · exact .inr ⟨rfl, forkAt_setFork_self hid f⟩
    · left
      rw [forkAt_of_size_le (by simpa using hid), forkAt_of_size_le (by simpa using hid)]
  · exact .inl (forkAt_setFork_ne s hne f)

theorem parent_setFork (s : Source) (id : Nat) {f : Fork → Fork} (hf : ∀ x, (f x).parent = x.parent)
    (g : Nat) : ((s.setFork id f).forkAt g).parent = (s.forkAt g).parent := by
  rcases forkAt_setFork_or s id f g with h | ⟨rfl, h⟩
  · rw [h]
  · rw [h, hf]

theorem offset_setFork_closed (s : Source) (id : Nat) (g : Nat) :
    (s.setFork id fun f => { f with closed := true }).offset (.fork g) = s.offset (.fork g) := by
  rw [offset, offset]
  rcases forkAt_setFork_or s id (fun f => { f with closed := true }) g with h | ⟨rfl, h⟩
  · rw [h]
  · rw [h]

/-! ### Operations make changes -/

theorem changes_read (path : Path) (c : Cursor) (amount : Int) (s : Source) :
    Changes s ((read path c amount).runOn s).2 := by
  cases hc : s.isClosed c with
  | true =>
    rw [runOn_read_of_closed hc]
  | false =>
    rw [runOn_read hc]
    exact .single (.filled (s.buffer.available_le_fill path _) rfl rfl)

theorem changes_consumeRoot {amount : Int}
    (hamount : 0 ≤ amount ∨ ∃ id, amount = s.offset (.fork id)) :
    Changes s ((consumeRoot amount).runOn s).2 := by
  cases h : consumeFailure? s.buffer 0 amount with
  | some f =>
    rw [runOn_consumeRoot_of_some h]
  | none =>
    have hle : amount ≤ s.buffer.available := by simpa using le_available_of_consumeFailure? h
    rw [runOn_consumeRoot h]
    exact .single (.passed amount hamount hle (Buffer.available_consume_of_le hle) rfl rfl)

theorem changes_consume (c : Cursor) (n : Nat) (s : Source) :
    Changes s ((consume c n).runOn s).2 := by
  cases c with
  | root => exact changes_consumeRoot (.inl (Int.natCast_nonneg n))
  | fork id =>
    cases hc : s.isClosed (.fork id) with
    | true =>
      rw [runOn_consume_of_closed hc]
    | false =>
      cases h : consumeFailure? s.buffer (s.offset (.fork id)) n with
      | some f =>
        rw [runOn_consume_fork_of_some hc h]
      | none =>
        rw [runOn_consume_fork hc h]
        exact .single (.advanced id n (le_available_of_consumeFailure? h))

theorem changes_close (c : Cursor) (s : Source) : Changes s ((close c).runOn s).2 := by
  cases c with
  | root => exact .refl
  | fork id =>
    rw [runOn_close_fork]
    exact .single (.closed id)

/-- A fork that is joined is closed first, and then the root or the parent is moved. -/
theorem changes_join (c : Cursor) (s : Source) : Changes s ((join c).runOn s).2 := by
  cases c with
  | root => exact .refl
  | fork id =>
    have hoffset := offset_setFork_closed s id id
    rw [runOn_join_fork]
    split
    · exact .refl
    · refine .head (.closed id) ?_
      split
      · exact changes_consumeRoot (.inr ⟨id, hoffset.symm⟩)
      · rename_i parent hparent
        split
        · exact .refl
        · rw [show (s.forkAt id).offset = s.offset (.fork id) from rfl, ← hoffset]
          exact .single (.handed id parent
            ((parent_setFork s id (by exact fun _ => rfl) id).trans hparent))

theorem snd_runOn_bind_pure {α β : Type} (x : SourceM α) (f : α → β) (s : Source) :
    ((x >>= fun a => pure (f a)).runOn s).2 = (x.runOn s).2 := by
  rw [SourceM.runOn_bind]
  split <;> simp_all

/-- What a request leaves is what its operation leaves. -/
theorem snd_runOn_perform (r : Request) (path : Path) (c : Cursor) (s : Source) :
    ((r.perform path c).runOn s).2 = match r with
      | .read n => ((read path c n).runOn s).2
      | .consume n => ((consume c n).runOn s).2
      | .fork => ((fork c).runOn s).2
      | .join => ((join c).runOn s).2
      | .close => ((close c).runOn s).2 := by
  cases r with
  | read n => exact snd_runOn_bind_pure (read path c n) (fun vs => Answer.items vs.toList) s
  | consume n => exact snd_runOn_bind_pure (consume c n) (fun _ => Answer.done) s
  | fork => exact snd_runOn_bind_pure (fork c) Answer.cursor s
  | join => exact snd_runOn_bind_pure (join c) (fun _ => Answer.done) s
  | close =>
    cases c with
    | root => rfl
    | fork id => exact snd_runOn_bind_pure (close (.fork id)) (fun _ => Answer.done) s

/-- A request makes a fork of an open cursor, or does nothing but make changes. -/
theorem perform_cases (r : Request) (path : Path) (c : Cursor) (s : Source) :
    r = .fork ∧ s.isClosed c = false ∧ ((r.perform path c).runOn s).2 = s.addFork c ∨
    Changes s ((r.perform path c).runOn s).2 := by
  rw [snd_runOn_perform]
  cases r with
  | read n => exact .inr (changes_read path c n s)
  | consume n => exact .inr (changes_consume c n s)
  | fork =>
    cases hc : s.isClosed c with
    | true =>
      right
      rw [runOn_fork_of_closed hc]
    | false =>
      left
      rw [runOn_fork hc]
      exact ⟨rfl, rfl, rfl⟩
  | join => exact .inr (changes_join c s)
  | close => exact .inr (changes_close c s)

/-- No request changes where the input ends. -/
theorem extent_perform (r : Request) (path : Path) (c : Cursor) (s : Source) :
    ((r.perform path c).runOn s).2.extent = s.extent := by
  rw [snd_runOn_perform]
  cases r with
  | read n => exact extent_read path c n s
  | consume n => exact extent_consume c n s
  | fork =>
    cases hc : s.isClosed c with
    | true => rw [runOn_fork_of_closed hc]
    | false => rw [runOn_fork hc, extent_addFork]
  | join => exact extent_join c s
  | close => exact extent_close c s

theorem extent_after (uses : List Use) : ∀ s : Source, (s.after uses).extent = s.extent := by
  induction uses with
  | nil => exact fun s => rfl
  | cons use uses ih => exact fun s => (ih _).trans (extent_perform ..)

/-! ## What every run keeps -/

/-- Forks keep their parents. -/
theorem Change.parent (h : Change s u) (g : Nat) : (u.forkAt g).parent = (s.forkAt g).parent := by
  cases h with
  | filled _ _ hforks => rw [forkAt_congr hforks]
  | passed _ _ _ _ _ hforks => rw [forkAt_congr hforks]
  | advanced id n _ => exact parent_setFork s id (by exact fun _ => rfl) g
  | closed id => exact parent_setFork s id (by exact fun _ => rfl) g
  | handed id parent _ => exact parent_setFork s parent (by exact fun _ => rfl) g

theorem Change.size_forks (h : Change s u) : u.forks.size = s.forks.size := by
  cases h with
  | filled _ _ hforks => rw [hforks]
  | passed _ _ _ _ _ hforks => rw [hforks]
  | advanced | closed | handed => exact size_forks_setFork ..

theorem Changes.size_forks (h : Changes s u) : u.forks.size = s.forks.size := by
  induction h with
  | refl => rfl
  | tail _ hstep ih => exact hstep.size_forks.trans ih

/-- The root has not gone beyond what waits, no fork stands behind the root, and forks are younger
than their parents. -/
structure Proper (s : Source) : Prop where
  available_nonneg : 0 ≤ s.buffer.available
  offset_nonneg : ∀ g, 0 ≤ s.offset (.fork g)
  parent_lt : ∀ g parent, (s.forkAt g).parent = some parent → parent < g

theorem Proper.zero_le_offset (hs : s.Proper) (c : Cursor) : 0 ≤ s.offset c := by
  cases c with
  | root => exact le_refl _
  | fork id => exact hs.offset_nonneg id

/-- The root is not taken back: a fork that it joins stands where it stands or behind. -/
theorem Proper.amount_nonneg (hs : s.Proper) {amount : Int}
    (hamount : 0 ≤ amount ∨ ∃ id, amount = s.offset (.fork id)) : 0 ≤ amount := by
  rcases hamount with h | ⟨id, rfl⟩
  · exact h
  · exact hs.offset_nonneg id

theorem Change.proper (h : Change s u) (hs : s.Proper) : u.Proper := by
  have hparent : ∀ g parent, (u.forkAt g).parent = some parent → parent < g := by
    intro g parent hg
    exact hs.parent_lt g parent (by rwa [← h.parent g])
  refine ⟨?_, fun g => ?_, hparent⟩
  · have := hs.available_nonneg
    cases h with
    | filled hmore _ _ => omega
    | passed amount _ hle havailable _ _ => omega
    | advanced | closed | handed => exact this
  · have hg := hs.offset_nonneg g
    simp only [offset] at hg ⊢
    cases h with
    | filled _ _ hforks => rwa [forkAt_congr hforks]
    | passed _ _ _ _ _ hforks => rwa [forkAt_congr hforks]
    | advanced id n _ =>
      rcases forkAt_setFork_or s id (fun f => { f with offset := f.offset + n }) g with h | ⟨rfl, h⟩
      · rwa [h]
      · rw [h]
        dsimp only
        omega
    | closed id => exact hg.trans_eq (offset_setFork_closed s id g).symm
    | handed id parent _ =>
      rcases forkAt_setFork_or s parent (fun p => { p with offset := s.offset (.fork id) }) g with
        h | ⟨rfl, h⟩
      · rwa [h]
      · rw [h]
        exact hs.offset_nonneg id

/-- With a fork made of a cursor, only that fork has another parent than before: the cursor. -/
theorem parent_addFork {parent : Nat} (h : ((s.addFork c).forkAt g).parent = some parent) :
    (s.forkAt g).parent = some parent ∨ g = s.forks.size ∧ c = .fork parent := by
  rcases Nat.lt_trichotomy g s.forks.size with hg | rfl | hg
  · rw [forkAt_addFork_old hg] at h
    exact .inl h
  · rw [forkAt_addFork_new] at h
    cases c with
    | root => cases h
    | fork id =>
      cases h
      exact .inr ⟨rfl, rfl⟩
  · rw [forkAt_of_size_le (by simpa using hg)] at h
    cases h

theorem Proper.addFork (hs : s.Proper) (hc : s.isClosed c = false) : (s.addFork c).Proper := by
  refine ⟨hs.available_nonneg, fun g => ?_, fun g parent hparent => ?_⟩
  · rcases Nat.lt_trichotomy g s.forks.size with hg | rfl | hg
    · rw [offset, forkAt_addFork_old hg]
      exact hs.offset_nonneg g
    · rw [offset, forkAt_addFork_new]
      exact hs.zero_le_offset c
    · rw [offset, forkAt_of_size_le (by simpa using hg)]
  · rcases parent_addFork hparent with h | ⟨rfl, rfl⟩
    · exact hs.parent_lt g parent h
    · exact lt_size_of_open hc

/-- What changes and new forks keep, every run keeps. -/
theorem after_induction {P : Source → Prop} (hchange : ∀ {s u}, Change s u → P s → P u)
    (hfork : ∀ {s c}, s.isClosed c = false → P s → P (s.addFork c)) (uses : List Use) :
    ∀ {s : Source}, P s → P (s.after uses) := by
  induction uses with
  | nil => exact fun hs => hs
  | cons use uses ih =>
    intro s hs
    obtain ⟨path, c, r⟩ := use
    refine ih ?_
    rcases perform_cases r path c s with ⟨-, hc, h⟩ | h
    · rw [h]
      exact hfork hc hs
    · generalize ((r.perform path c).runOn s).2 = u at h ⊢
      induction h with
      | refl => exact hs
      | tail _ hstep ih => exact hchange hstep ih

theorem Proper.after (hs : s.Proper) (uses : List Use) : (s.after uses).Proper :=
  after_induction (P := Proper) (fun h hs => h.proper hs) (fun hc hs => hs.addFork hc) uses hs

/-- What every request of a source in use keeps, a run keeps. -/
theorem Proper.after_induction {P : Source → Prop}
    (hstep : ∀ (s : Source) (use : Use), s.Proper → P s → P (s.after [use])) (uses : List Use) :
    ∀ {s : Source}, s.Proper → P s → P (s.after uses) := by
  induction uses with
  | nil => exact fun _ hs => hs
  | cons use uses ih => exact fun hproper hs => ih (hproper.after [use]) (hstep _ use hproper hs)

/-! ## Families of forks -/

theorem ComesFrom.of_parent_eq (hparent : ∀ id, (u.forkAt id).parent = (s.forkAt id).parent)
    (h : u.ComesFrom f g) : s.ComesFrom f g := by
  induction h with
  | self => exact .self
  | fork hg _ ih => exact .fork (by rwa [← hparent]) ih

/-- A fork is no younger than one that comes from it. -/
theorem ComesFrom.le (hs : s.Proper) (h : s.ComesFrom f g) : f ≤ g := by
  induction h with
  | self => exact le_refl f
  | fork hparent _ ih => exact ih.trans (hs.parent_lt _ _ hparent).le

theorem ComesFrom.lt_size (hf : f < s.forks.size) (h : s.ComesFrom f g) : g < s.forks.size := by
  cases h with
  | self => exact hf
  | fork hparent _ =>
    by_contra hge
    rw [forkAt_of_size_le (by omega)] at hparent
    cases hparent

/-- A new fork comes from the forks that its own cursor comes from, and of the others none comes
from a fork that it did not come from before. -/
theorem ComesFrom.of_addFork (hs : s.Proper) (hc : s.isClosed c = false)
    (h : (s.addFork c).ComesFrom f g) :
    s.ComesFrom f g ∨ g = s.forks.size ∧ ∃ id, c = .fork id ∧ s.ComesFrom f id := by
  induction h with
  | self => exact .inl .self
  | @fork g parent hparent _ ih =>
    rcases parent_addFork hparent with hold | ⟨rfl, rfl⟩ <;> rcases ih with h | ⟨rfl, -⟩
    · exact .inl (.fork hold h)
    · -- the new fork is the parent of none that was there
      rw [forkAt_of_size_le (hs.parent_lt g _ hold).le] at hold
      cases hold
    · exact .inr ⟨rfl, parent, rfl, h⟩
    · exact absurd (lt_size_of_open hc) (lt_irrefl _)

/-- Every fork comes from one that the root made. -/
theorem Proper.exists_comesFrom (hs : s.Proper) (g : Nat) :
    ∃ f ≤ g, (s.forkAt f).parent = none ∧ s.ComesFrom f g := by
  induction g using Nat.strong_induction_on with
  | _ g ih =>
    cases hparent : (s.forkAt g).parent with
    | none => exact ⟨g, le_refl g, hparent, .self⟩
    | some parent =>
      have hlt := hs.parent_lt g parent hparent
      obtain ⟨f, hle, hf, hcomes⟩ := ih parent hlt
      exact ⟨f, by omega, hf, .fork hparent hcomes⟩

/-- The input brought all that the forks that come from `f` have consumed behind the position `p`: it
waits still, or the root has gone past it. -/
structure Brought (f : Nat) (p : Int) (s : Source) : Prop extends Proper s where
  lt_size : f < s.forks.size
  position_le : p ≤ s.position
  offset_le : ∀ g, s.ComesFrom f g → p + s.offset (.fork g) ≤ s.position + s.buffer.available

/-- A fork that the root makes has consumed nothing. -/
theorem Proper.brought (hs : s.Proper) : (s.addFork .root).Brought s.forks.size s.position := by
  have hproper := hs.addFork (c := .root) rfl
  refine ⟨hproper, by simp, le_refl _, fun g hg => ?_⟩
  have havailable := hs.available_nonneg
  have hzero : (s.addFork .root).offset (.fork g) = 0 := by
    rcases (hg.le hproper).eq_or_lt with rfl | hlt
    · rw [offset, forkAt_addFork_new, offset]
    · rw [offset, forkAt_of_size_le (by simpa using hlt)]
  simp only [hzero, position_addFork, buffer_addFork]
  omega

theorem Change.brought {p : Int} (h : Change s u) (hs : s.Brought f p) : u.Brought f p := by
  have hproper := h.proper hs.toProper
  have hfrom : ∀ {g}, u.ComesFrom f g → s.ComesFrom f g := fun hg => hg.of_parent_eq h.parent
  have hsize := h.size_forks.symm ▸ hs.lt_size
  have hposition := hs.position_le
  cases h with
  | filled hmore hposition' hforks =>
    refine ⟨hproper, hsize, by omega, fun g hg => ?_⟩
    have := hs.offset_le g (hfrom hg)
    rw [offset] at this ⊢
    rw [forkAt_congr hforks]
    omega
  | passed amount hamount hle havailable hposition' hforks =>
    have hnonneg := hs.amount_nonneg hamount
    refine ⟨hproper, hsize, by omega, fun g hg => ?_⟩
    have := hs.offset_le g (hfrom hg)
    rw [offset] at this ⊢
    rw [forkAt_congr hforks]
    omega
  | advanced id n hle =>
    refine ⟨hproper, hsize, hposition, fun g hg => ?_⟩
    have := hs.offset_le g (hfrom hg)
    rw [offset] at this hle ⊢
    rcases forkAt_setFork_or s id (fun f => { f with offset := f.offset + n }) g with h | ⟨rfl, h⟩
    · rw [h]
      exact this
    · -- what the fork consumes waits ahead of the root, which is behind `p`
      rw [h]
      simp only [position_setFork, buffer_setFork]
      omega
  | closed id =>
    refine ⟨hproper, hsize, hposition, fun g hg => ?_⟩
    rw [offset_setFork_closed]
    exact hs.offset_le g (hfrom hg)
  | handed id parent hparent =>
    refine ⟨hproper, hsize, hposition, fun g hg => ?_⟩
    have hg' := hfrom hg
    rw [offset]
    rcases forkAt_setFork_or s parent (fun p => { p with offset := s.offset (.fork id) }) g with
      h | ⟨rfl, h⟩
    · rw [h]
      exact hs.offset_le g hg'
    · -- the fork that is joined comes from `f` as its parent does
      rw [h]
      exact hs.offset_le id (.fork hparent hg')

theorem Brought.addFork {p : Int} (hc : s.isClosed c = false) (hs : s.Brought f p) :
    (s.addFork c).Brought f p := by
  have hlt := hs.lt_size
  refine ⟨hs.toProper.addFork hc, by simp; omega, hs.position_le, fun g hg => ?_⟩
  rcases hg.of_addFork hs.toProper hc with hg | ⟨rfl, id, rfl, hid⟩
  · rw [offset, forkAt_addFork_old (hg.lt_size hlt)]
    exact hs.offset_le g hg
  · -- the new fork stands where its parent stands, which comes from `f` already
    rw [offset, forkAt_addFork_new]
    exact hs.offset_le id hid

theorem Brought.after {p : Int} (hs : s.Brought f p) (uses : List Use) :
    (s.after uses).Brought f p :=
  after_induction (P := Brought f p) (fun h hs => h.brought hs) (fun hc hs => hs.addFork hc) uses hs

/-! ## Runs -/

/-- Forks keep their parents. -/
theorem parent_after (uses : List Use) (hf : f < s.forks.size) :
    ((s.after uses).forkAt f).parent = (s.forkAt f).parent := by
  have h := after_induction
    (P := fun u => f < u.forks.size ∧ (u.forkAt f).parent = (s.forkAt f).parent)
    (fun h hu => ⟨h.size_forks.symm ▸ hu.1, (h.parent f).trans hu.2⟩)
    (fun _ hu => ⟨by rw [size_forks_addFork]; omega, by rw [forkAt_addFork_old hu.1]; exact hu.2⟩)
    uses (s := s) ⟨hf, rfl⟩
  exact h.2

/-- A fork without a parent was made by the root. -/
theorem exists_use_of_parent_eq_none (uses : List Use) : ∀ {s : Source}, s.forks.size ≤ f →
    f < (s.after uses).forks.size → ((s.after uses).forkAt f).parent = none →
    ∃ before path since, uses = before ++ ⟨path, .root, .fork⟩ :: since ∧
      (s.after before).forks.size = f := by
  induction uses with
  | nil => exact fun hle hlt _ => absurd hlt (by simpa using hle)
  | cons use uses ih =>
    obtain ⟨path, c, r⟩ := use
    intro s hle hlt hparent
    -- the fork is made by a later use, or by this one
    by_cases hmade : ((r.perform path c).runOn s).2.forks.size ≤ f
    · obtain ⟨before, path', since, rfl, hsize⟩ := ih hmade hlt hparent
      exact ⟨⟨path, c, r⟩ :: before, path', since, rfl, hsize⟩
    · rcases perform_cases r path c s with ⟨rfl, hc, h⟩ | h
      · -- the fork is made now, and keeps the parent that it gets
        have hf : s.forks.size = f := by
          rw [h, size_forks_addFork] at hmade
          omega
        subst hf
        rw [after, parent_after uses (by omega), h, forkAt_addFork_new] at hparent
        cases c with
        | root => exact ⟨[], path, uses, rfl, rfl⟩
        | fork id => cases hparent
      · exact absurd ((Changes.size_forks h)) (by omega)

/-! ## Joining -/

/-- The cursor that a fork was made of. -/
def parentAt (s : Source) (g : Nat) : Cursor := (s.forkAt g).parent.elim .root .fork

/-- A length that cannot be told is no wrong value. -/
theorem isA_valueError_of_countFailure? {b : Buffer} {e : Failure} (h : b.countFailure? = some e) :
    e.isA .valueError = false := by
  cases b with
  | memory | stream => cases h
  | irregular data start =>
    cases hlength : data.length with
    | ok n => simp [Buffer.countFailure?, hlength] at h
    | error e' =>
      obtain rfl : e' = e := by simpa [Buffer.countFailure?, hlength] using h
      rw [Value.length] at hlength
      split at hlength
      · split at hlength
        · cases hlength
        · cases hlength
          rfl
      · cases hlength
        rfl

theorem fst_runOn_consumeRoot (amount : Int) (s : Source) :
    ((consumeRoot amount).runOn s).1 = match consumeFailure? s.buffer 0 amount with
      | some e => .error e
      | none => .ok () := by
  cases h : consumeFailure? s.buffer 0 amount with
  | some e => rw [runOn_consumeRoot_of_some h]
  | none => rw [runOn_consumeRoot h]

/-- The root refuses to be taken past items with a `ValueError` where fewer wait, if it can tell how
many do. -/
theorem consumeFailure?_isA_valueError_iff {b : Buffer} {amount : Int} :
    (∃ e, consumeFailure? b 0 amount = some e ∧ e.isA .valueError = true) ↔
      b.countFailure? = none ∧ b.available < amount := by
  unfold consumeFailure?
  cases hcount : b.countFailure? with
  | some e =>
    have hclass := isA_valueError_of_countFailure? hcount
    simp [hclass]
  | none =>
    by_cases hlt : b.available < 0 + amount
    · have hclass : (cannotConsume amount (b.available - 0)).isA .valueError = true := rfl
      simp only [if_pos hlt]
      simp_all
    · simp only [if_neg hlt]
      simp_all

/-- Of the joins of an open fork into an open cursor only those into the root can be refused, and
those are refused where the root has overtaken the fork. -/
theorem join_isA_valueError_iff (hs : s.Proper) (hg : s.isClosed (.fork g) = false)
    (hparent : s.isClosed (s.parentAt g) = false) :
    (∃ e, ((join (.fork g)).runOn s).1 = .error e ∧ e.isA .valueError = true) ↔
      s.parentAt g = .root ∧ s.buffer.countFailure? = none ∧ s.availableAt (.fork g) < 0 := by
  cases hp : (s.forkAt g).parent with
  | none =>
    have hresult : ∀ e, ((join (.fork g)).runOn s).1 = .error e ↔
        consumeFailure? s.buffer 0 (s.offset (.fork g)) = some e := by
      intro e
      rw [runOn_join_of_root hg hp, fst_runOn_consumeRoot, buffer_setFork, offset]
      cases consumeFailure? s.buffer 0 (s.forkAt g).offset <;> simp
    simp only [hresult, consumeFailure?_isA_valueError_iff, parentAt, hp, availableAt, Option.elim]
    simp
  | some parent =>
    have hroot : s.parentAt g = .fork parent := by rw [parentAt, hp, Option.elim]
    rw [hroot] at hparent
    rw [runOn_join_of_fork hg hp (hs.parent_lt g parent hp).ne' hparent]
    simp [hroot]

/-- A source without forks, as it arises. -/
theorem Arisen.proper (hs : s.Arisen) (hnone : s.forks = #[]) : s.Proper := by
  have hfork : ∀ g, s.forkAt g = ⟨none, 0, true⟩ := fun g => forkAt_of_size_le (by simp [hnone])
  refine ⟨hs.available_nonneg, fun g => ?_, fun g parent hparent => ?_⟩
  · rw [offset, hfork]
  · rw [hfork] at hparent
    cases hparent

/-- However cursors were used, each fork that is open comes from a fork that the root made, and at
most as many items as the root has moved since are missing behind the root for what the fork has
consumed: so far its position may lie behind the end of the input. Where items are missing, the root
refuses to take over what the fork has consumed; every other cursor that is open takes it over. -/
theorem overtaken_at_most (hs : s.Arisen) (hnone : s.forks = #[]) (uses : List Use)
    (hg : (s.after uses).isClosed (.fork g) = false) :
    ∃ (before : List Use) (path : Path) (since : List Use) (moved : Nat),
      uses = before ++ ⟨path, .root, .fork⟩ :: since ∧
      (s.after uses).ComesFrom (s.after before).forks.size g ∧
      (s.after uses).position = (s.after before).position + moved ∧
      -moved ≤ (s.after uses).availableAt (.fork g) ∧
      (s.after uses).positionOf (.fork g) ≤ s.extent + moved ∧
      ((s.after uses).isClosed ((s.after uses).parentAt g) = false →
        ((∃ e, ((join (.fork g)).runOn (s.after uses)).1 = .error e ∧ e.isA .valueError = true) ↔
          (s.after uses).parentAt g = .root ∧ (s.after uses).buffer.countFailure? = none ∧
            (s.after uses).availableAt (.fork g) < 0)) := by
  have hproper := hs.proper hnone
  have hafter := hproper.after uses
  obtain ⟨f, hle, hroot, hcomes⟩ := hafter.exists_comesFrom g
  have hf : f < (s.after uses).forks.size := lt_of_le_of_lt hle (lt_size_of_open hg)
  obtain ⟨before, path, since, huses, rfl⟩ :=
    exists_use_of_parent_eq_none uses (by simp [hnone]) hf hroot
  -- the state right after the root made the fork, from where its family is kept account of
  have hbrought : (s.after uses).Brought (s.after before).forks.size (s.after before).position := by
    rw [huses, after_append, after, snd_runOn_perform]
    exact (hproper.after before).brought.after since
  obtain ⟨moved, hmoved⟩ := Int.le.dest hbrought.position_le
  have hoffset := hbrought.offset_le g hcomes
  have hextent : (s.after uses).position + (s.after uses).buffer.available ≤ s.extent := by
    rw [← extent_after uses s, extent]
    omega
  refine ⟨before, path, since, moved, huses, hcomes, hmoved.symm, ?_, ?_,
    join_isA_valueError_iff hafter hg⟩
  · rw [availableAt]
    omega
  · rw [positionOf]
    omega

/-- A fork consumes the whole input, and so does the root. -/
def overtaking : List Use :=
  [⟨.blocking, .root, .fork⟩, ⟨.blocking, .fork 0, .read 2⟩, ⟨.blocking, .fork 0, .consume 2⟩,
    ⟨.blocking, .root, .consume 2⟩]

theorem overtaken_at_most_overtaking :
    ((ofData (.str [97, 98])).after overtaking).isClosed (.fork 0) = false ∧
    ∃ (before : List Use) (path : Path) (since : List Use) (moved : Nat),
      overtaking = before ++ ⟨path, .root, .fork⟩ :: since ∧
      ((ofData (.str [97, 98])).after overtaking).ComesFrom
        ((ofData (.str [97, 98])).after before).forks.size 0 ∧
      ((ofData (.str [97, 98])).after overtaking).position =
        ((ofData (.str [97, 98])).after before).position + moved ∧
      -moved ≤ ((ofData (.str [97, 98])).after overtaking).availableAt (.fork 0) ∧
      ((ofData (.str [97, 98])).after overtaking).positionOf (.fork 0) ≤ 2 + moved := by
  have hopen : ((ofData (.str [97, 98])).after overtaking).isClosed (.fork 0) = false := rfl
  obtain ⟨before, path, since, moved, huses, hcomes, hmoved, havailable, hposition, -⟩ :=
    overtaken_at_most (.ofData (.str [97, 98])) rfl overtaking hopen
  exact ⟨hopen, before, path, since, moved, huses, hcomes, hmoved, havailable, hposition⟩

/-- A fork that the root overtakes has consumed more than there is, and cannot be joined. -/
theorem not_waiting_overtaking :
    ((ofData (.str [97, 98])).after overtaking).isClosed (.fork 0) = false ∧
    ((ofData (.str [97, 98])).after overtaking).parentAt 0 = .root ∧
    ((ofData (.str [97, 98])).after overtaking).offset (.fork 0) = 2 ∧
    ((ofData (.str [97, 98])).after overtaking).buffer.available = 0 ∧
    ((ofData (.str [97, 98])).after overtaking).availableAt (.fork 0) = -2 ∧
    ((ofData (.str [97, 98])).after overtaking).positionOf (.fork 0) = 4 ∧
    ((ofData (.str [97, 98])).after overtaking).extent = 2 ∧
    ((join (.fork 0)).runOn ((ofData (.str [97, 98])).after overtaking)).1 =
      .error (.valueError "Can't consume 2 items, only 0 are available.") := by
  refine ⟨rfl, rfl, rfl, rfl, rfl, rfl, rfl, ?_⟩
  cbv

end Source
end Backtrack
