/-
Two runs beside each other. What is asked of a cursor in the first is asked as well of its twin in the
second, where other things are done in between. As long as both runs are granted the same, twins stand at
the same places, and the tape of the second run is at most longer than that of the first: `Lags` says so,
and every request at twins keeps it. Reads at twins show the same then, unless the one of the first run
fails at an element that the second has taken already.
-/
import Backtrack.Proofs.Requests
import Backtrack.Proofs.Tape
namespace Backtrack

/-- Which cursor of the second run is the twin of which cursor of the first. -/
def Twins := Cursor → Cursor → Prop

/-- The next forks of two sources are twins as well. -/
def Twins.add (T : Twins) (w u : Source) : Twins := fun d d' =>
  T d d' ∨ d = .fork w.forks.size ∧ d' = .fork u.forks.size

namespace Source

variable {T : Twins} {s w u w' u' : Source} {c d d' : Cursor} {g g' : Nat} {n : Nat} {path : Path}

/-! ## What requests give -/

theorem fst_runOn_bind_pure {α β : Type} (x : SourceM α) (f : α → β) (s : Source) :
    ((x >>= fun a => pure (f a)).runOn s).1 = (x.runOn s).1.map f := by
  rw [SourceM.runOn_bind]
  rcases x.runOn s with ⟨e | a, t⟩ <;> rfl

/-- The request is not refused. -/
def Grants (s : Source) (path : Path) (c : Cursor) (r : Request) : Prop :=
  ∃ answer, ((r.perform path c).runOn s).1 = .ok answer

theorem grants_bind_pure_iff {α β : Type} {x : SourceM α} {f : α → β} :
    (∃ b, ((x >>= fun a => pure (f a)).runOn s).1 = .ok b) ↔ ∃ a, (x.runOn s).1 = .ok a := by
  rw [fst_runOn_bind_pure]
  rcases x.runOn s with ⟨e | a, t⟩
  · exact ⟨nofun, nofun⟩
  · exact ⟨fun _ => ⟨a, rfl⟩, fun _ => ⟨f a, rfl⟩⟩

theorem grants_consume_iff : s.Grants path c (.consume n) ↔ ∃ a, ((consume c n).runOn s).1 = .ok a :=
  grants_bind_pure_iff

theorem grants_join_iff : s.Grants path c .join ↔ ∃ a, ((join c).runOn s).1 = .ok a :=
  grants_bind_pure_iff

theorem grants_fork_iff : s.Grants path c .fork ↔ s.isClosed c = false := by
  refine grants_bind_pure_iff.trans ?_
  cases hc : s.isClosed c with
  | true => simp [runOn_fork_of_closed hc]
  | false => simp [runOn_fork hc]

theorem grants_close_iff : s.Grants path c .close ↔ c ≠ .root := by
  cases c with
  | root => exact iff_of_false (fun ⟨_, h⟩ => nomatch h) (absurd rfl)
  | fork g => exact iff_of_true (grants_bind_pure_iff.2 ⟨(), by rw [runOn_close_fork]⟩) nofun

theorem consumeRoot_ok_iff {amount : Int} : (∃ a, ((consumeRoot amount).runOn s).1 = .ok a) ↔
    consumeFailure? s.buffer 0 amount = none := by
  rw [fst_runOn_consumeRoot]
  cases consumeFailure? s.buffer 0 amount <;> simp

theorem consume_ok_iff (hc : s.isClosed c = false) : (∃ a, ((consume c n).runOn s).1 = .ok a) ↔
    consumeFailure? s.buffer (s.offset c) n = none := by
  cases h : consumeFailure? s.buffer (s.offset c) n with
  | some e => simp [runOn_consume_of_some hc h]
  | none => simp [(runOn_consume_of_none hc h).1]

theorem parent_of_parentAt {p : Nat} (h : s.parentAt g = .fork p) : (s.forkAt g).parent = some p := by
  rw [parentAt] at h
  cases hp : (s.forkAt g).parent with
  | none => simp [hp] at h
  | some p' => simpa [hp] using h

theorem parent_of_parentAt_root (h : s.parentAt g = .root) : (s.forkAt g).parent = none := by
  rw [parentAt] at h
  cases hp : (s.forkAt g).parent with
  | none => rfl
  | some p' => simp [hp] at h

/-- Joining a fork into a closed one does no more than close it. -/
theorem runOn_join_of_closed {p : Nat} (hs : s.Proper) (hg : s.isClosed (.fork g) = false)
    (hp : (s.forkAt g).parent = some p) (hclosed : s.isClosed (.fork p) = true) :
    (join (.fork g)).runOn s =
      (.error forkClosed, s.setFork g fun f => { f with closed := true }) := by
  have hclosed' : (s.setFork g fun f => { f with closed := true }).isClosed (.fork p) = true := by
    simpa [isClosed, forkAt_setFork_ne s (hs.parent_lt g p hp).ne'] using hclosed
  simp [runOn_join_fork, hg, hp, hclosed']

/-- Joining a fork into a root that cannot be taken so far does no more than close it. -/
theorem runOn_join_of_refused {e : Failure} (hg : s.isClosed (.fork g) = false)
    (hp : s.parentAt g = .root) (h : consumeFailure? s.buffer 0 (s.offset (.fork g)) = some e) :
    (join (.fork g)).runOn s = (.error e, s.setFork g fun f => { f with closed := true }) := by
  rw [runOn_join_of_root hg (parent_of_parentAt_root hp)]
  exact runOn_consumeRoot_of_some h

/-- An open fork can be joined into an open one, and into the root if as much waits. -/
theorem join_ok_iff (hs : s.Proper) (hg : s.isClosed (.fork g) = false) :
    (∃ a, ((join (.fork g)).runOn s).1 = .ok a) ↔ s.isClosed (s.parentAt g) = false ∧
      (s.parentAt g = .root → consumeFailure? s.buffer 0 (s.offset (.fork g)) = none) := by
  cases hp : s.parentAt g with
  | root =>
    rw [runOn_join_of_root hg (parent_of_parentAt_root hp), consumeRoot_ok_iff]
    simp [isClosed, Source.offset]
  | fork p =>
    have hparent := parent_of_parentAt hp
    cases hclosed : s.isClosed (.fork p) with
    | true => simp [runOn_join_of_closed hs hg hparent hclosed]
    | false => simp [runOn_join_of_fork hg hparent (hs.parent_lt g p hparent).ne' hclosed]

/-! ## Cursors that stand alike -/

/-- The cursor has been given out. -/
def Given (s : Source) : Cursor → Prop
  | .root => True
  | .fork g => g < s.forks.size

theorem given_congr (h : u.forks.size = s.forks.size) (c : Cursor) : u.Given c ↔ s.Given c := by
  cases c with
  | root => exact Iff.rfl
  | fork g => rw [Given, Given, h]

theorem Given.addFork (h : s.Given c) (d : Cursor) : (s.addFork d).Given c := by
  cases c with
  | root => trivial
  | fork g => exact h.trans (by simp)

theorem Given.after (uses : List Use) : ∀ {s : Source}, s.Given c → (s.after uses).Given c := by
  cases c with
  | root => exact fun _ => trivial
  | fork g =>
    exact fun h => after_induction (P := fun u => g < u.forks.size) (fun h hu => h.size_forks.symm ▸ hu)
      (fun _ hu => hu.trans (by simp)) uses h

theorem offset_addFork (h : s.Given c) (d : Cursor) : (s.addFork d).offset c = s.offset c := by
  cases c with
  | root => rfl
  | fork g => exact congrArg Fork.offset (forkAt_addFork_old h d)

theorem isClosed_addFork (h : s.Given c) (d : Cursor) : (s.addFork d).isClosed c = s.isClosed c := by
  cases c with
  | root => rfl
  | fork g => exact congrArg Fork.closed (forkAt_addFork_old h d)

theorem offset_congr (h : u.forks = s.forks) (c : Cursor) : u.offset c = s.offset c := by
  cases c with
  | root => rfl
  | fork g => exact congrArg Fork.offset (forkAt_congr h g)

theorem isClosed_congr (h : u.forks = s.forks) (c : Cursor) : u.isClosed c = s.isClosed c := by
  cases c with
  | root => rfl
  | fork g => exact congrArg Fork.closed (forkAt_congr h g)

/-- Twins stand at the same places, and both roots are twins. -/
structure Aligned (T : Twins) (w u : Source) : Prop where
  position : u.position = w.position
  root : T .root .root
  paired : ∀ {d d' e e'}, T d d' → T e e' → (d = e ↔ d' = e')
  given : ∀ {d d'}, T d d' → w.Given d ∧ u.Given d'
  offset : ∀ {d d'}, T d d' → u.offset d' = w.offset d
  isClosed : ∀ {d d'}, T d d' → u.isClosed d' = w.isClosed d

namespace Aligned

/-- A root is the twin of a root only, a fork of a fork only. -/
theorem cases (h : Aligned T w u) (ht : T d d') :
    d = .root ∧ d' = .root ∨ ∃ g g', d = .fork g ∧ d' = .fork g' := by
  cases d with
  | root => exact .inl ⟨rfl, ((h.paired ht h.root).1 rfl)⟩
  | fork g =>
    cases d' with
    | root => exact absurd ((h.paired ht h.root).2 rfl) nofun
    | fork g' => exact .inr ⟨g, g', rfl, rfl⟩

theorem positionOf (h : Aligned T w u) (ht : T d d') : u.positionOf d' = w.positionOf d := by
  rw [Source.positionOf, Source.positionOf, h.position, h.offset ht]

/-- Cursors stay where they are when only roots move. -/
theorem of_forks (h : Aligned T w u) (hforks : w'.forks = w.forks) (hforks' : u'.forks = u.forks)
    (hposition : u'.position = w'.position) : Aligned T w' u' := by
  refine ⟨hposition, h.root, h.paired, fun ht => ?_, fun ht => ?_, fun ht => ?_⟩
  · rw [given_congr (congrArg Array.size hforks), given_congr (congrArg Array.size hforks')]
    exact h.given ht
  · rw [offset_congr hforks, offset_congr hforks', h.offset ht]
  · rw [isClosed_congr hforks, isClosed_congr hforks', h.isClosed ht]

/-- What is done to forks that are twins they do alike, if it goes by what twins have in common. -/
theorem setFork (h : Aligned T w u) (ht : T (.fork g) (.fork g')) {f : Fork → Fork}
    (hoffset : ∀ x y : Fork, x.offset = y.offset → (f x).offset = (f y).offset)
    (hclosed : ∀ x y : Fork, x.closed = y.closed → (f x).closed = (f y).closed) :
    Aligned T (w.setFork g f) (u.setFork g' f) := by
  have hlt : g < w.forks.size := (h.given ht).1
  have hlt' : g' < u.forks.size := (h.given ht).2
  have htwins : ∀ {k k'}, T (.fork k) (.fork k') →
      (w.setFork g f).forkAt k = w.forkAt k ∧ (u.setFork g' f).forkAt k' = u.forkAt k' ∨
      (w.setFork g f).forkAt k = f (w.forkAt k) ∧ (u.setFork g' f).forkAt k' = f (u.forkAt k') := by
    intro k k' hk
    by_cases heq : g = k
    · subst heq
      obtain rfl : g' = k' := Cursor.fork.inj ((h.paired ht hk).1 rfl)
      exact .inr ⟨forkAt_setFork_self hlt f, forkAt_setFork_self hlt' f⟩
    · have hne : g' ≠ k' := fun heq' =>
        heq (Cursor.fork.inj ((h.paired ht hk).2 (congrArg Cursor.fork heq')))
      exact .inl ⟨forkAt_setFork_ne w heq f, forkAt_setFork_ne u hne f⟩
  refine ⟨h.position, h.root, h.paired, fun hd => ?_, fun hd => ?_, fun hd => ?_⟩
  · rw [given_congr (size_forks_setFork w g f), given_congr (size_forks_setFork u g' f)]
    exact h.given hd
  · have hsame := h.offset hd
    obtain ⟨rfl, rfl⟩ | ⟨k, k', rfl, rfl⟩ := h.cases hd
    · rfl
    · simp only [Source.offset] at hsame ⊢
      rcases htwins hd with ⟨hk, hk'⟩ | ⟨hk, hk'⟩
      · rw [hk, hk', hsame]
      · rw [hk, hk']
        exact hoffset _ _ hsame
  · have hsame := h.isClosed hd
    obtain ⟨rfl, rfl⟩ | ⟨k, k', rfl, rfl⟩ := h.cases hd
    · rfl
    · simp only [Source.isClosed] at hsame ⊢
      rcases htwins hd with ⟨hk, hk'⟩ | ⟨hk, hk'⟩
      · rw [hk, hk', hsame]
      · rw [hk, hk']
        exact hclosed _ _ hsame

theorem close (h : Aligned T w u) (ht : T (.fork g) (.fork g')) :
    Aligned T (w.setFork g fun f => { f with closed := true })
      (u.setFork g' fun f => { f with closed := true }) :=
  h.setFork ht (fun _ _ => id) fun _ _ _ => rfl

theorem consumeRoot (h : Aligned T w u) {amount : Int}
    (hsame : consumeFailure? w.buffer 0 amount = none ↔ consumeFailure? u.buffer 0 amount = none) :
    Aligned T ((Source.consumeRoot amount).runOn w).2 ((Source.consumeRoot amount).runOn u).2 := by
  cases hw : consumeFailure? w.buffer 0 amount with
  | some e =>
    obtain ⟨e', hu⟩ := Option.ne_none_iff_exists'.1 (fun hu => by simp [hsame.2 hu] at hw)
    rw [runOn_consumeRoot_of_some hw, runOn_consumeRoot_of_some hu]
    exact h
  | none =>
    rw [runOn_consumeRoot hw, runOn_consumeRoot (hsame.1 hw)]
    exact h.of_forks rfl rfl (congrArg (· + amount) h.position)

theorem consume (h : Aligned T w u) (ht : T d d')
    (hsame : (∃ a, ((Source.consume d n).runOn w).1 = .ok a) ↔
      ∃ a, ((Source.consume d' n).runOn u).1 = .ok a) :
    Aligned T ((Source.consume d n).runOn w).2 ((Source.consume d' n).runOn u).2 := by
  have hclosed := h.isClosed ht
  obtain ⟨rfl, rfl⟩ | ⟨g, g', rfl, rfl⟩ := h.cases ht
  · rw [consume_ok_iff rfl, consume_ok_iff rfl] at hsame
    exact h.consumeRoot hsame
  · cases hc : w.isClosed (.fork g) with
    | true =>
      rw [runOn_consume_of_closed hc, runOn_consume_of_closed (hclosed.trans hc)]
      exact h
    | false =>
      rw [consume_ok_iff hc, consume_ok_iff (hclosed.trans hc)] at hsame
      cases hw : consumeFailure? w.buffer (w.offset (.fork g)) n with
      | some e =>
        obtain ⟨e', hu⟩ := Option.ne_none_iff_exists'.1 (fun hu => by simp [hsame.2 hu] at hw)
        rw [runOn_consume_fork_of_some hc hw, runOn_consume_fork_of_some (hclosed.trans hc) hu]
        exact h
      | none =>
        rw [runOn_consume_fork hc hw, runOn_consume_fork (hclosed.trans hc) (hsame.1 hw)]
        exact h.setFork ht (fun _ _ => congrArg (· + (n : Int))) fun _ _ => id

theorem join (hw : w.Proper) (hu : u.Proper) (h : Aligned T w u) (ht : T d d')
    (hparents : ∀ g g', d = .fork g → d' = .fork g' → T (w.parentAt g) (u.parentAt g'))
    (hsame : (∃ a, ((Source.join d).runOn w).1 = .ok a) ↔ ∃ a, ((Source.join d').runOn u).1 = .ok a) :
    Aligned T ((Source.join d).runOn w).2 ((Source.join d').runOn u).2 := by
  have hclosed := h.isClosed ht
  obtain ⟨rfl, rfl⟩ | ⟨g, g', rfl, rfl⟩ := h.cases ht
  · exact h
  · have htp := hparents g g' rfl rfl
    have hoffset : (u.forkAt g').offset = (w.forkAt g).offset := h.offset ht
    cases hc : w.isClosed (.fork g) with
    | true =>
      rw [runOn_join_fork, runOn_join_fork, if_pos hc, if_pos (hclosed.trans hc)]
      exact h
    | false =>
      have hc' := hclosed.trans hc
      obtain ⟨hp, hp'⟩ | ⟨p, p', hp, hp'⟩ := h.cases htp
      · rw [runOn_join_of_root hc (parent_of_parentAt_root hp),
          runOn_join_of_root hc' (parent_of_parentAt_root hp'), hoffset] at hsame ⊢
        exact (h.close ht).consumeRoot (by rwa [consumeRoot_ok_iff, consumeRoot_ok_iff] at hsame)
      · have hparent := parent_of_parentAt hp
        have hparent' := parent_of_parentAt hp'
        rw [hp, hp'] at htp
        have hpclosed := h.isClosed htp
        cases hpc : w.isClosed (.fork p) with
        | true =>
          rw [runOn_join_of_closed hw hc hparent hpc,
            runOn_join_of_closed hu hc' hparent' (hpclosed.trans hpc)]
          exact h.close ht
        | false =>
          rw [runOn_join_of_fork hc hparent (hw.parent_lt g p hparent).ne' hpc,
            runOn_join_of_fork hc' hparent' (hu.parent_lt g' p' hparent').ne' (hpclosed.trans hpc),
            hoffset]
          exact (h.close ht).setFork htp (fun _ _ _ => rfl) fun _ _ => id

theorem addFork (h : Aligned T w u) (ht : T d d') :
    Aligned (T.add w u) (w.addFork d) (u.addFork d') := by
  have hnew : ∀ {e e'}, T e e' → e ≠ .fork w.forks.size ∧ e' ≠ .fork u.forks.size := fun he =>
    ⟨fun heq => lt_irrefl _ (heq ▸ (h.given he).1 : w.Given (.fork _)),
      fun heq => lt_irrefl _ (heq ▸ (h.given he).2 : u.Given (.fork _))⟩
  refine ⟨h.position, .inl h.root, ?_, ?_, ?_, ?_⟩
  · rintro e e' k k' (he | ⟨rfl, rfl⟩) (hk | ⟨rfl, rfl⟩)
    · exact h.paired he hk
    · exact iff_of_false (hnew he).1 (hnew he).2
    · exact iff_of_false (hnew hk).1.symm (hnew hk).2.symm
    · exact iff_of_true rfl rfl
  · rintro e e' (he | ⟨rfl, rfl⟩)
    · exact ⟨(h.given he).1.addFork d, (h.given he).2.addFork d'⟩
    · simp [Given]
  · rintro e e' (he | ⟨rfl, rfl⟩)
    · rw [offset_addFork (h.given he).1, offset_addFork (h.given he).2, h.offset he]
    · rw [offset_addFork_new, offset_addFork_new, h.offset ht]
  · rintro e e' (he | ⟨rfl, rfl⟩)
    · rw [isClosed_addFork (h.given he).1, isClosed_addFork (h.given he).2, h.isClosed he]
    · simp [Source.isClosed, forkAt_addFork_new]

end Aligned

/-! ## Sources in use -/

/-- The source came of a new one by requests and evaluations, however these ended. -/
def InUse (s : Source) : Prop := ∃ (made : Source) (acts : List Action), made.New ∧ s = made.acted acts

theorem InUse.proper (h : s.InUse) : s.Proper := by
  obtain ⟨made, acts, hnew, rfl⟩ := h
  exact hnew.proper.acted acts

theorem InUse.exists_onTape (h : s.InUse) : ∃ b, s.OnTape b := by
  obtain ⟨made, acts, hnew, rfl⟩ := h
  obtain ⟨uses, huses⟩ := exists_makes acts hnew.proper
  obtain ⟨b, -, hb⟩ := OnTape.after uses hnew.proper hnew.onTape
  obtain ⟨events, heq⟩ := huses.matches
  exact ⟨b, heq ▸ ⟨hb.position_nonneg, hb.leads, hb.starts⟩⟩

/-! ## Lagging behind -/

/-- Twins stand at the same places, and the tape of the second source is that of the first one or one
that is further on. -/
structure Lags (T : Twins) (w u : Source) : Prop extends Aligned T w u where
  proper : w.Proper
  proper' : u.Proper
  tapes : ∃ b b', w.OnTape b ∧ u.OnTape b' ∧ b.Reaches b'

theorem forks_read (path : Path) (c : Cursor) (amount : Int) (s : Source) :
    ((read path c amount).runOn s).2.forks = s.forks := by
  cases hc : s.isClosed c with
  | true => rw [runOn_read_of_closed hc]
  | false => rw [runOn_read hc]

namespace Lags

theorem available_le (h : Lags T w u) : w.buffer.available ≤ u.buffer.available := by
  obtain ⟨b, b', hb, hb', hreaches⟩ := h.tapes
  have hle := hreaches.available_le
  rw [hb.available, hb'.available, h.position] at hle
  omega

theorem countFailure? (h : Lags T w u) : u.buffer.countFailure? = w.buffer.countFailure? := by
  obtain ⟨b, b', hb, hb', hreaches⟩ := h.tapes
  rw [← hb.leads.countFailure?, ← hb'.leads.countFailure?, hreaches.countFailure?]

/-- What the second source is ahead by are elements of the feed. -/
theorem feed_eq (h : Lags T w u) : w.buffer.feed = w.buffer.between u.buffer ++ u.buffer.feed := by
  obtain ⟨b, b', hb, hb', hreaches⟩ := h.tapes
  obtain ⟨ahead, hahead⟩ := hreaches.later.feed
  rw [hb.leads.feed, hb'.leads.feed] at hahead
  rw [Buffer.between_eq hahead.symm, hahead]

theorem read_eq_or (h : Lags T w u) (ht : T d d') (path : Path) (n : Nat) :
    ((Source.read path d' n).runOn u).1 = ((Source.read path d n).runOn w).1 ∨
      ∃ e, ((Source.read path d n).runOn w).1 = .error e ∧ w.buffer.Misses u.buffer e := by
  have hclosed := h.isClosed ht
  cases hc : w.isClosed d with
  | true => exact .inl (by rw [runOn_read_of_closed hc, runOn_read_of_closed (hclosed.trans hc)])
  | false =>
    obtain ⟨b, b', hb, hb', hreaches⟩ := h.tapes
    obtain ⟨hlook, -⟩ :=
      hreaches.look (hb.starts _ (hb.positionOf_nonneg h.proper d)) (Int.natCast_nonneg n) path
    rw [(hb.read h.proper hc path n).1, (hb'.read h.proper' (hclosed.trans hc) path n).1, h.positionOf ht]
    exact hlook.imp_right fun ⟨e, he, hmisses⟩ => ⟨e, he, (hb.leads.misses_iff hb'.leads).1 hmisses⟩

theorem read (h : Lags T w u) (ht : T d d') (path : Path) (n : Nat) :
    Lags T (w.after [⟨path, d, .read n⟩]) (u.after [⟨path, d', .read n⟩]) := by
  refine ⟨?_, h.proper.after _, h.proper'.after _, ?_⟩
  · rw [after_single, after_single]
    refine h.toAligned.of_forks (forks_read ..) (forks_read ..) ?_
    rw [position_read, position_read, h.position]
  · rw [after_single, after_single]
    dsimp only
    have hclosed := h.isClosed ht
    obtain ⟨b, b', hb, hb', hreaches⟩ := h.tapes
    cases hc : w.isClosed d with
    | true =>
      rw [runOn_read_of_closed hc, runOn_read_of_closed (hclosed.trans hc)]
      exact ⟨b, b', hb, hb', hreaches⟩
    | false =>
      obtain ⟨-, hfar⟩ :=
        hreaches.look (hb.starts _ (hb.positionOf_nonneg h.proper d)) (Int.natCast_nonneg n) path
      refine ⟨_, _, (hb.read h.proper hc path n).2, (hb'.read h.proper' (hclosed.trans hc) path n).2, ?_⟩
      rwa [h.positionOf ht]

/-- Forks that are made of twins are twins. -/
theorem fork (h : Lags T w u) (ht : T d d') (hopen : w.isClosed d = false) (path : Path) :
    Lags (T.add w u) (w.after [⟨path, d, .fork⟩]) (u.after [⟨path, d', .fork⟩]) := by
  obtain ⟨b, b', hb, hb', hreaches⟩ := h.tapes
  have hpassage := passage_perform h.proper (r := .fork) nofun path d
  have hpassage' := passage_perform h.proper' (r := .fork) nofun path d'
  refine ⟨?_, h.proper.after _, h.proper'.after _, b, b', hb.passed hpassage, hb'.passed hpassage', hreaches⟩
  rw [after_single, after_single, runOn_fork hopen, runOn_fork ((h.isClosed ht).trans hopen)]
  exact h.toAligned.addFork ht

/-- What twins are asked for keeps them alike, if it is granted to both or refused to both. -/
theorem request (h : Lags T w u) (ht : T d d') {r : Request} (hread : ∀ n, r ≠ .read n)
    (hfork : r ≠ .fork)
    (hparents : r = .join → ∀ g g', d = .fork g → d' = .fork g' → T (w.parentAt g) (u.parentAt g'))
    (hsame : w.Grants path d r ↔ u.Grants path d' r) :
    Lags T (w.after [⟨path, d, r⟩]) (u.after [⟨path, d', r⟩]) := by
  obtain ⟨b, b', hb, hb', hreaches⟩ := h.tapes
  refine ⟨?_, h.proper.after _, h.proper'.after _, b, b', hb.passed (passage_perform h.proper hread path d),
    hb'.passed (passage_perform h.proper' hread path d'), hreaches⟩
  rw [after_single, after_single]
  cases r with
  | read n => exact absurd rfl (hread n)
  | consume n => exact h.toAligned.consume ht (by rwa [grants_consume_iff, grants_consume_iff] at hsame)
  | fork => exact absurd rfl hfork
  | join =>
    exact h.toAligned.join h.proper h.proper' ht (hparents rfl)
      (by rwa [grants_join_iff, grants_join_iff] at hsame)
  | close =>
    obtain ⟨rfl, rfl⟩ | ⟨g, g', rfl, rfl⟩ := h.toAligned.cases ht
    · exact h.toAligned
    · dsimp only
      rw [runOn_close_fork, runOn_close_fork]
      exact h.toAligned.close ht

theorem consumeFailure?_eq_none (h : Lags T w u) {offset amount : Int}
    (hnone : consumeFailure? w.buffer offset amount = none) :
    consumeFailure? u.buffer offset amount = none := by
  have hle := le_available_of_consumeFailure? hnone
  have hmore := h.available_le
  rw [consumeFailure?] at hnone ⊢
  rw [h.countFailure?]
  split at hnone
  · cases hnone
  · rw [if_neg (by omega)]

/-- Nothing that is granted to the first of two twins is refused to the second. -/
theorem grants (h : Lags T w u) (ht : T d d') {r : Request} (hread : ∀ n, r ≠ .read n)
    (hparents : r = .join → ∀ g g', d = .fork g → d' = .fork g' → T (w.parentAt g) (u.parentAt g'))
    (hw : w.Grants path d r) : u.Grants path d' r := by
  have hclosed := h.isClosed ht
  have hoffset := h.offset ht
  cases r with
  | read n => exact absurd rfl (hread n)
  | consume n =>
    rw [grants_consume_iff] at hw ⊢
    cases hc : w.isClosed d with
    | true =>
      obtain ⟨rfl, rfl⟩ | ⟨g, g', rfl, rfl⟩ := h.toAligned.cases ht
      · cases hc
      · simp [runOn_consume_of_closed hc] at hw
    | false =>
      rw [consume_ok_iff hc] at hw
      rw [consume_ok_iff (hclosed.trans hc), hoffset]
      exact h.consumeFailure?_eq_none hw
  | fork =>
    rw [grants_fork_iff] at hw ⊢
    exact hclosed.trans hw
  | join =>
    rw [grants_join_iff] at hw ⊢
    obtain ⟨rfl, rfl⟩ | ⟨g, g', rfl, rfl⟩ := h.toAligned.cases ht
    · exact hw
    · have htp := hparents rfl g g' rfl rfl
      cases hc : w.isClosed (.fork g) with
      | true => simp [runOn_join_fork, hc] at hw
      | false =>
        rw [join_ok_iff h.proper hc] at hw
        rw [join_ok_iff h.proper' (hclosed.trans hc), h.isClosed htp, hoffset]
        exact ⟨hw.1, fun hroot => h.consumeFailure?_eq_none (hw.2 ((h.paired htp h.root).2 hroot))⟩
  | close =>
    rw [grants_close_iff] at hw ⊢
    exact fun hroot => hw ((h.paired ht h.root).2 hroot)

end Lags

/-! ## Runs -/

/-- Two runs, from the sources `s` and `t` with the twins `T₀` on. Now and then something is done in the
second run alone, as `own` tells. All else is asked of twins. What they read need not be the same; what
else they are asked for is granted to both or refused to both. Forks that are made of twins are twins. -/
inductive Beside (own : Source → Action → Prop) (T₀ : Twins) (s t : Source) :
    Twins → Source → Source → Prop where
  | start : Beside own T₀ s t T₀ s t
  | alone {T : Twins} {w u : Source} {a : Action} (h : Beside own T₀ s t T w u) (hown : own u a) :
    Beside own T₀ s t T w (u.act a)
  | read {T : Twins} {w u : Source} {d d' : Cursor} (h : Beside own T₀ s t T w u) (htwins : T d d')
    (path : Path) (n : Nat) :
    Beside own T₀ s t T (w.after [⟨path, d, .read n⟩]) (u.after [⟨path, d', .read n⟩])
  | fork {T : Twins} {w u : Source} {d d' : Cursor} (h : Beside own T₀ s t T w u) (htwins : T d d')
    (hopen : w.isClosed d = false) (path : Path) :
    Beside own T₀ s t (T.add w u) (w.after [⟨path, d, .fork⟩]) (u.after [⟨path, d', .fork⟩])
  | request {T : Twins} {w u : Source} {d d' : Cursor} {r : Request} (h : Beside own T₀ s t T w u)
    (htwins : T d d') (path : Path) (hread : ∀ n, r ≠ .read n) (hfork : r ≠ .fork)
    (hparents : r = .join → ∀ g g', d = .fork g → d' = .fork g' → T (w.parentAt g) (u.parentAt g'))
    (hsame : w.Grants path d r ↔ u.Grants path d' r) :
    Beside own T₀ s t T (w.after [⟨path, d, r⟩]) (u.after [⟨path, d', r⟩])

/-- If the first source lags behind the second at the start, and what the second does alone keeps that, it
always does. -/
theorem Beside.lags {own : Source → Action → Prop} {T₀ : Twins} {t : Source} (hstart : Lags T₀ s t)
    (halone : ∀ {T w u a}, Beside own T₀ s t T w u → own u a → Lags T w u → Lags T w (u.act a))
    (h : Beside own T₀ s t T w u) : Lags T w u := by
  induction h with
  | start => exact hstart
  | alone h hown ih => exact halone h hown ih
  | read _ htwins path n ih => exact ih.read htwins path n
  | fork _ htwins hopen path ih => exact ih.fork htwins hopen path
  | request _ htwins path hread hfork hparents hsame ih =>
    exact ih.request htwins hread hfork hparents hsame

/-- Twins remain twins. -/
theorem Beside.twins {own : Source → Action → Prop} {T₀ : Twins} {t : Source}
    (h : Beside own T₀ s t T w u) (ht : T₀ d d') : T d d' := by
  induction h with
  | start => exact ht
  | alone _ _ ih | read _ _ _ _ ih | request _ _ _ _ _ _ _ ih => exact ih
  | fork _ _ _ _ ih => exact .inl ih

/-- The cursors of the second source are where their twins are in the first, and open if these are. They
read the same, unless the read of the first fails at an element that the second has taken already. More
may have been taken and may wait in the second, which is refused nothing that is granted to the first. -/
structure Unaffected (T : Twins) (w u : Source) : Prop where
  position : u.position = w.position
  offset : ∀ {d d'}, T d d' → u.offset d' = w.offset d
  isClosed : ∀ {d d'}, T d d' → u.isClosed d' = w.isClosed d
  reads : ∀ {d d'}, T d d' → ∀ (path : Path) (n : Nat),
    ((Source.read path d' n).runOn u).1 = ((Source.read path d n).runOn w).1 ∨
      ∃ e, ((Source.read path d n).runOn w).1 = .error e ∧ w.buffer.Misses u.buffer e
  feed_eq : w.buffer.feed = w.buffer.between u.buffer ++ u.buffer.feed
  available_le : w.buffer.available ≤ u.buffer.available
  consumes : ∀ {d d'}, T d d' → ∀ (path : Path) (n : Nat),
    w.Grants path d (.consume n) → u.Grants path d' (.consume n)
  joins : ∀ {g g'}, T (.fork g) (.fork g') → T (w.parentAt g) (u.parentAt g') → ∀ path : Path,
    w.Grants path (.fork g) .join → u.Grants path (.fork g') .join

theorem Lags.unaffected (h : Lags T w u) : Unaffected T w u where
  position := h.position
  offset := h.offset
  isClosed := h.isClosed
  reads := h.read_eq_or
  feed_eq := h.feed_eq
  available_le := h.available_le
  consumes ht _ _ := h.grants ht nofun nofun
  joins ht hparents _ := h.grants ht nofun fun _ _ _ hg hg' => by
    cases hg
    cases hg'
    exact hparents

end Source
end Backtrack
