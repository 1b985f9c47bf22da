/-
Forks that are not joined. Whatever is done at a fork and at the forks that come from it, by requests or
by evaluating rules, and however it ends: as long as the fork itself is not joined, all that it does to
the others is to make the buffer longer. `Spared` says so of one step and of many. The cursor of which the
fork was made, and all others that do not come from the fork, are where they were. Beside a run in which
the fork was never made, what they read from then on is the same, but that elements which raise are met
once only.
-/
import Backtrack.Proofs.Beside
namespace Backtrack

namespace Source

variable {s t u : Source} {c d : Cursor} {f g : Nat} {uses : List Use}

/-! ## Families of forks in runs -/

theorem Proper.given_parentAt (hs : s.Proper) (h : s.Given (.fork g)) : s.Given (s.parentAt g) := by
  cases hp : s.parentAt g with
  | root => trivial
  | fork p => exact (hs.parent_lt g p (parent_of_parentAt hp)).trans h

/-- No fork that is there already comes to have another origin. -/
theorem comesFrom_of_after (hs : s.Proper) (uses : List Use) (hg : g < s.forks.size)
    (h : (s.after uses).ComesFrom f g) : s.ComesFrom f g := by
  induction h with
  | self => exact .self
  | fork hparent _ ih =>
    rw [parent_after uses hg] at hparent
    exact .fork hparent (ih ((hs.parent_lt _ _ hparent).trans hg))

theorem stemsFrom_of_after (hs : s.Proper) (uses : List Use) (hd : s.Given d)
    (h : (s.after uses).StemsFrom c d) : s.StemsFrom c d := by
  cases c with
  | root => trivial
  | fork f =>
    cases d with
    | root => exact h.elim
    | fork g => exact comesFrom_of_after hs uses hd h

/-- The cursor of which a fork was made does not come from the fork, nor do those that it comes from
itself. -/
theorem not_stemsFrom_of_parentAt (hs : s.Proper) (h : s.StemsFrom d (s.parentAt f)) :
    ¬ s.StemsFrom (.fork f) d := by
  intro hd
  have hloop : s.StemsFrom (.fork f) (s.parentAt f) := hd.trans h
  cases hp : s.parentAt f with
  | root =>
    rw [hp] at hloop
    exact hloop
  | fork p =>
    rw [hp] at hloop
    have hle := ComesFrom.le hs hloop
    have hlt := hs.parent_lt f p (parent_of_parentAt hp)
    omega

/-! ## What a family of forks leaves alone -/

/-- From `s` to `u` the root has not moved, the buffer has got further along at most, and of the forks
only such have changed as come from `f`. -/
structure Spared (f : Nat) (s u : Source) : Prop where
  position : u.position = s.position
  reaches : s.buffer.Reaches u.buffer
  forkAt : ∀ g, g < s.forks.size → ¬ s.ComesFrom f g → u.forkAt g = s.forkAt g

namespace Spared

theorem refl (f : Nat) (s : Source) : Spared f s s := ⟨rfl, .refl _, fun _ _ _ => rfl⟩

/-- Only forks of the family are changed. -/
theorem setFork (h : Spared f s u) (hg : s.ComesFrom f g) (change : Fork → Fork) :
    Spared f s (u.setFork g change) := by
  refine ⟨h.position, h.reaches, fun k hk hother => ?_⟩
  have hne : g ≠ k := by
    rintro rfl
    exact hother hg
  rw [forkAt_setFork_ne u hne, h.forkAt k hk hother]

theorem offset (h : Spared f s u) (hd : s.Given d) (hother : ¬ s.StemsFrom (.fork f) d) :
    u.offset d = s.offset d := by
  cases d with
  | root => rfl
  | fork g => exact congrArg Fork.offset (h.forkAt g hd hother)

theorem isClosed (h : Spared f s u) (hd : s.Given d) (hother : ¬ s.StemsFrom (.fork f) d) :
    u.isClosed d = s.isClosed d := by
  cases d with
  | root => rfl
  | fork g => exact congrArg Fork.closed (h.forkAt g hd hother)

theorem withEvents (h : Spared f s u) (events : List Event) :
    Spared f s { u with events := events } := ⟨h.position, h.reaches, h.forkAt⟩

/-- A fork that is not `f` itself hands what it has consumed to one that comes from `f` as well. -/
theorem join (hs : s.Proper) (hg : s.ComesFrom f g) (hne : g ≠ f) :
    Spared f s ((Source.join (.fork g)).runOn s).2 := by
  obtain ⟨p, hparent, hp⟩ : ∃ p, (s.forkAt g).parent = some p ∧ s.ComesFrom f p := by
    cases hg with
    | self => exact absurd rfl hne
    | fork hparent hp => exact ⟨_, hparent, hp⟩
  cases hc : s.isClosed (.fork g) with
  | true =>
    rw [runOn_join_fork, if_pos hc]
    exact .refl f s
  | false =>
    have hclose := (Spared.refl f s).setFork hg fun x => { x with closed := true }
    cases hpc : s.isClosed (.fork p) with
    | true =>
      rw [runOn_join_of_closed hs hc hparent hpc]
      exact hclose
    | false =>
      rw [runOn_join_of_fork hc hparent (hs.parent_lt g p hparent).ne' hpc]
      exact hclose.setFork hp _

/-- A request at a fork of the family spares the others, unless it joins `f`. -/
theorem request (hs : s.Proper) (hg : s.ComesFrom f g) {r : Request} (hjoin : g = f → r ≠ .join)
    (path : Path) : Spared f s (s.after [⟨path, .fork g, r⟩]) := by
  rw [after_single]
  cases r with
  | read n =>
    exact ⟨position_read .., reaches_read .., fun k _ _ => forkAt_congr (forks_read ..) k⟩
  | consume n =>
    dsimp only
    cases hc : s.isClosed (.fork g) with
    | true =>
      rw [runOn_consume_of_closed hc]
      exact .refl f s
    | false =>
      cases hfailure : consumeFailure? s.buffer (s.offset (.fork g)) n with
      | some e =>
        rw [runOn_consume_fork_of_some hc hfailure]
        exact .refl f s
      | none =>
        rw [runOn_consume_fork hc hfailure]
        exact (Spared.refl f s).setFork hg _
  | fork =>
    dsimp only
    cases hc : s.isClosed (.fork g) with
    | true =>
      rw [runOn_fork_of_closed hc]
      exact .refl f s
    | false =>
      rw [runOn_fork hc]
      exact ⟨rfl, .refl _, fun k hk _ => forkAt_addFork_old hk _⟩
  | join => exact join hs hg fun heq => hjoin heq rfl
  | close =>
    dsimp only
    rw [runOn_close_fork]
    exact (Spared.refl f s).setFork hg _

end Spared

/-- So do any number of requests around `f`. -/
theorem Within.spared (hs : s.Proper) (h : Within (.fork f) s uses) : Spared f s (s.after uses) := by
  induction h with
  | nil s => exact .refl f s
  | @cons s use uses hfrom hjoin _ ih =>
    obtain ⟨path, c, r⟩ := use
    cases c with
    | root => exact hfrom.elim
    | fork g =>
      have hfirst : Spared f s (s.after [⟨path, .fork g, r⟩]) :=
        .request hs hfrom (fun heq => hjoin (congrArg Cursor.fork heq)) path
      have hrest := ih (hs.after _)
      refine ⟨hrest.position.trans hfirst.position, hfirst.reaches.trans hrest.reaches,
        fun k hk hother => ?_⟩
      have hsize : k < (s.after [⟨path, .fork g, r⟩]).forks.size :=
        Given.after (c := .fork k) _ hk
      exact (hrest.forkAt k hsize fun hk' => hother (comesFrom_of_after hs _ hk hk')).trans
        (hfirst.forkAt k hk hother)

/-- And whatever else is done around `f`. -/
theorem Requested.spared (hs : s.Proper) (h : Requested (.fork f) s u) : Spared f s u := by
  obtain ⟨uses, hwithin, events, rfl⟩ := h hs
  exact (hwithin.spared hs).withEvents events

/-! ## Beside a run without the fork -/

/-- A cursor is new only if it is the fork that is made. -/
theorem given_of_addFork (h : (s.addFork c).Given d) : s.Given d ∨ d = .fork s.forks.size := by
  cases d with
  | root => exact .inl trivial
  | fork g =>
    simp only [Given, size_forks_addFork] at h
    exact (Nat.lt_succ_iff_lt_or_eq.1 h).imp_right (congrArg Cursor.fork)

/-- A request makes one fork at most, of its cursor. -/
theorem given_of_after_single {r : Request} {path : Path}
    (h : (s.after [⟨path, c, r⟩]).Given (.fork g)) :
    s.Given (.fork g) ∨
      r = .fork ∧ g = s.forks.size ∧ (s.after [⟨path, c, r⟩]).StemsFrom c (.fork g) := by
  have hafter : s.after [⟨path, c, r⟩] = ((r.perform path c).runOn s).2 := rfl
  rcases perform_cases r path c s with ⟨rfl, -, hmade⟩ | hchanges
  · rw [hafter, hmade] at h ⊢
    refine (given_of_addFork h).imp_right fun hnew => ?_
    obtain rfl := Cursor.fork.inj hnew
    exact ⟨rfl, rfl, stemsFrom_addFork s c⟩
  · rw [hafter] at h
    exact .inl ((given_congr hchanges.size_forks _).1 h)

theorem size_forks_after_of_ne_fork {r : Request} (hr : r ≠ .fork) (path : Path) (c : Cursor)
    (s : Source) : (s.after [⟨path, c, r⟩]).forks.size = s.forks.size := by
  rcases perform_cases r path c s with ⟨rfl, -, -⟩ | hchanges
  · exact absurd rfl hr
  · exact hchanges.size_forks

/-- Around `f` only forks that come from it are made. -/
theorem Within.born (hs : s.Proper) (h : Within (.fork f) s uses) :
    ∀ g, (s.after uses).Given (.fork g) →
      s.Given (.fork g) ∨ (s.after uses).StemsFrom (.fork f) (.fork g) := by
  induction h with
  | nil s => exact fun g hg => .inl hg
  | @cons s use uses hfrom _ _ ih =>
    obtain ⟨path, d, r⟩ := use
    intro g hg
    rcases ih (hs.after _) g hg with hmid | hborn
    · rcases given_of_after_single hmid with hold | ⟨-, -, hmade⟩
      · exact .inl hold
      · exact .inr (((hfrom.after _).trans hmade).after uses)
    · exact .inr hborn

theorem parentAt_after (uses : List Use) (hg : s.Given (.fork g)) :
    (s.after uses).parentAt g = s.parentAt g := by
  rw [parentAt, parentAt, parent_after uses hg]

theorem parentAt_addFork_new (s : Source) (c : Cursor) : (s.addFork c).parentAt s.forks.size = c := by
  rw [parentAt, forkAt_addFork_new]
  cases c <;> rfl

theorem parentAt_addFork (hg : s.Given (.fork g)) (c : Cursor) :
    (s.addFork c).parentAt g = s.parentAt g := by
  rw [parentAt, parentAt, forkAt_addFork_old hg]

/-- No twin of a cursor comes from the fork `f`, and all others have twins. What twins were made of are
twins. -/
structure Separate (f : Nat) (T : Twins) (w u : Source) : Prop where
  given : u.Given (.fork f)
  apart : ∀ {d d'}, T d d' → ¬ u.StemsFrom (.fork f) d'
  parents : ∀ {g g'}, T (.fork g) (.fork g') → T (w.parentAt g) (u.parentAt g')
  covers : ∀ {d}, w.Given d → ∃ d', T d d'
  covers' : ∀ {d'}, u.Given d' → u.StemsFrom (.fork f) d' ∨ ∃ d, T d d'

namespace Separate

variable {T : Twins} {w : Source} {uses' : List Use}

/-- Runs keep it in which no forks are made but such as come from `f`. -/
theorem after (hlags : Lags T w u) (h : Separate f T w u)
    (hborn : ∀ g, (w.after uses).Given (.fork g) → w.Given (.fork g))
    (hborn' : ∀ g, (u.after uses').Given (.fork g) →
      u.Given (.fork g) ∨ (u.after uses').StemsFrom (.fork f) (.fork g)) :
    Separate f T (w.after uses) (u.after uses') := by
  refine ⟨h.given.after uses', fun ht hfrom => ?_, fun {g g'} ht => ?_, fun {d} hd => ?_,
    fun {d'} hd' => ?_⟩
  · exact h.apart ht (stemsFrom_of_after hlags.proper' uses' (hlags.given ht).2 hfrom)
  · rw [parentAt_after uses (hlags.given ht).1, parentAt_after uses' (hlags.given ht).2]
    exact h.parents ht
  · cases d with
    | root => exact ⟨.root, hlags.root⟩
    | fork g => exact h.covers (hborn g hd)
  · cases d' with
    | root => exact .inr ⟨.root, hlags.root⟩
    | fork g =>
      rcases hborn' g hd' with hold | hfrom
      · exact (h.covers' hold).imp_left fun hfrom => hfrom.after uses'
      · exact .inl hfrom

theorem of_matches (h : Separate f T w u) (hmatches : u.Matches t) : Separate f T w t := by
  obtain ⟨events, rfl⟩ := hmatches
  have hback : Matches { u with events := events } u := ⟨u.events, rfl⟩
  refine ⟨(given_congr rfl _).1 h.given, fun ht hfrom => h.apart ht (hback.stemsFrom hfrom), h.parents,
    h.covers, fun hd' => ?_⟩
  have hd : u.Given _ := (given_congr rfl _).1 hd'
  exact (h.covers' hd).imp_left fun hfrom => Matches.stemsFrom ⟨events, rfl⟩ hfrom

/-- Requests that make no forks keep it. -/
theorem request (hlags : Lags T w u) (h : Separate f T w u) {r : Request} {path : Path} {d d' : Cursor}
    (hr : r ≠ .fork) : Separate f T (w.after [⟨path, d, r⟩]) (u.after [⟨path, d', r⟩]) :=
  h.after hlags (fun _ => (given_congr (size_forks_after_of_ne_fork hr path d w) _).1)
    fun _ hg => .inl ((given_congr (size_forks_after_of_ne_fork hr path d' u) _).1 hg)

/-- New forks of twins are apart from `f` as their cursors are. -/
theorem addFork (hlags : Lags T w u) (h : Separate f T w u) {d d' : Cursor} (ht : T d d')
    (hopen : w.isClosed d = false) : Separate f (T.add w u) (w.addFork d) (u.addFork d') := by
  have hopen' : u.isClosed d' = false := (hlags.isClosed ht).trans hopen
  refine ⟨h.given.addFork d', ?_, ?_, fun hd => ?_, fun hd' => ?_⟩
  · rintro e e' (he | ⟨rfl, rfl⟩) hfrom
    · cases e' with
      | root => exact hfrom
      | fork g =>
        rcases ComesFrom.of_addFork hlags.proper' hopen' hfrom with hold | ⟨rfl, -⟩
        · exact h.apart he hold
        · exact lt_irrefl _ (hlags.given he).2
    · rcases ComesFrom.of_addFork hlags.proper' hopen' hfrom with hold | ⟨-, g, rfl, hg⟩
      · exact lt_irrefl _ (hold.lt_size h.given)
      · exact h.apart ht hg
  · rintro g g' (hg | ⟨hg, hg'⟩)
    · rw [parentAt_addFork (hlags.given hg).1, parentAt_addFork (hlags.given hg).2]
      exact .inl (h.parents hg)
    · cases hg
      cases hg'
      rw [parentAt_addFork_new, parentAt_addFork_new]
      exact .inl ht
  · rcases given_of_addFork hd with hold | rfl
    · obtain ⟨e', he⟩ := h.covers hold
      exact ⟨e', .inl he⟩
    · exact ⟨_, .inr ⟨rfl, rfl⟩⟩
  · rcases given_of_addFork hd' with hold | rfl
    · rcases h.covers' hold with hfrom | ⟨e, he⟩
      · exact .inl (after_fork hopen' .blocking ▸ hfrom.after _)
      · exact .inr ⟨e, .inl he⟩
    · exact .inr ⟨_, .inr ⟨rfl, rfl⟩⟩

end Separate

/-! ## Rolling back -/

/-- The twins of a run in which one more fork is made: each cursor that is there is its own. -/
def sameCursors (s : Source) : Twins := fun d d' => d' = d ∧ s.Given d

/-- At first nothing differs but the fork. -/
theorem lags_addFork {b : Buffer} (hs : s.Proper) (hb : s.OnTape b) (hc : s.isClosed c = false) :
    Lags s.sameCursors s (s.addFork c) := by
  refine ⟨⟨rfl, ⟨rfl, trivial⟩, ?_, ?_, ?_, ?_⟩, hs, hs.addFork hc, b, b, hb, hb.passed (.kept rfl rfl),
    .refl b⟩
  · rintro d _ e _ ⟨rfl, -⟩ ⟨rfl, -⟩
    exact Iff.rfl
  · rintro d _ ⟨rfl, hd⟩
    exact ⟨hd, hd.addFork c⟩
  · rintro d _ ⟨rfl, hd⟩
    exact offset_addFork hd c
  · rintro d _ ⟨rfl, hd⟩
    exact isClosed_addFork hd c

theorem separate_addFork (hs : s.Proper) (hc : s.isClosed c = false) :
    Separate s.forks.size s.sameCursors s (s.addFork c) := by
  refine ⟨?_, ?_, ?_, fun {d} hd => ⟨d, rfl, hd⟩, fun {d} hd => ?_⟩
  · simp [Given]
  · rintro _ d ⟨rfl, hd⟩ hfrom
    cases d with
    | root => exact hfrom
    | fork g => exact absurd (ComesFrom.le (hs.addFork hc) hfrom) (not_le.2 hd)
  · rintro g _ ⟨heq, hg⟩
    cases heq
    exact ⟨parentAt_addFork hg c, hs.given_parentAt hg⟩
  · rcases given_of_addFork hd with hold | rfl
    · exact .inr ⟨d, rfl, hold⟩
    · exact .inl (.refl _ _)

/-- What is done about the fork alone keeps the runs alike. -/
theorem lags_and_separate_act {T : Twins} {w : Source} {a : Action} (h : Lags T w u)
    (hseparate : Separate f T w u) (habout : About (.fork f) u a) :
    Lags T w (u.act a) ∧ Separate f T w (u.act a) := by
  obtain ⟨uses, hwithin, hmatches⟩ := habout.requested h.proper'
  have hspared := habout.requested.spared h.proper'
  have hmade : Separate f T (w.after []) (u.after uses) :=
    hseparate.after h (fun _ => id) (hwithin.born h.proper')
  obtain ⟨b, b', hb, hb', hreaches⟩ := h.tapes
  obtain ⟨b'', hb'', hfar⟩ := hb'.effect (.filled hspared.reaches hspared.position)
  refine ⟨⟨⟨hspared.position.trans h.position, h.root, h.paired, fun ht => ⟨(h.given ht).1, ?_⟩,
    fun ht => ?_, fun ht => ?_⟩, h.proper, hmatches.proper (h.proper'.after uses), b, b'', hb, hfar,
    hreaches.trans hb''⟩, hmade.of_matches hmatches⟩
  · obtain ⟨events, hu⟩ := hmatches
    rw [hu]
    exact (given_congr rfl _).1 ((h.given ht).2.after uses)
  · exact (hspared.offset (h.given ht).2 (hseparate.apart ht)).trans (h.offset ht)
  · exact (hspared.isClosed (h.given ht).2 (hseparate.apart ht)).trans (h.isClosed ht)

/-- Whatever the second run does at the fork and below it, the runs stay alike. -/
theorem lags_and_separate_of_beside {T : Twins} {w : Source} {b : Buffer} (hs : s.Proper) (hb : s.OnTape b)
    (hc : s.isClosed c = false)
    (h : Beside (About (.fork s.forks.size)) s.sameCursors s (s.addFork c) T w u) :
    Lags T w u ∧ Separate s.forks.size T w u := by
  induction h with
  | start => exact ⟨lags_addFork hs hb hc, separate_addFork hs hc⟩
  | alone _ habout ih => exact lags_and_separate_act ih.1 ih.2 habout
  | read _ ht path n ih => exact ⟨ih.1.read ht path n, ih.2.request ih.1 nofun⟩
  | fork _ ht hopen path ih =>
    refine ⟨ih.1.fork ht hopen path, ?_⟩
    rw [after_fork hopen, after_fork ((ih.1.isClosed ht).trans hopen)]
    exact ih.2.addFork ih.1 ht hopen
  | request _ ht path hread hfork hparents hsame ih =>
    exact ⟨ih.1.request ht hread hfork hparents hsame, ih.2.request ih.1 hfork⟩

/-- What was done around the fork `f` is undone by dropping it. The root has not moved; all cursors that do
not come from the fork are where they were, and open if they were; these are the cursor of which the fork
was made, those that this one comes from, and others. The buffer is at most longer. -/
structure RolledBack (f : Nat) (s u : Source) : Prop where
  position : u.position = s.position
  offset : ∀ d, s.Given d → ¬ s.StemsFrom (.fork f) d → u.offset d = s.offset d
  isClosed : ∀ d, s.Given d → ¬ s.StemsFrom (.fork f) d → u.isClosed d = s.isClosed d
  above : ∀ d, s.StemsFrom d (s.parentAt f) → s.Given d ∧ ¬ s.StemsFrom (.fork f) d
  reaches : s.buffer.Reaches u.buffer

theorem Spared.rolledBack (hs : s.Proper) (hf : s.Given (.fork f)) (h : Spared f s u) :
    RolledBack f s u where
  position := h.position
  offset _ hd hother := h.offset hd hother
  isClosed _ hd hother := h.isClosed hd hother
  above d hd := by
    refine ⟨?_, not_stemsFrom_of_parentAt hs hd⟩
    have hparent := hs.given_parentAt hf
    cases d with
    | root => trivial
    | fork k =>
      cases hp : s.parentAt f with
      | root =>
        rw [hp] at hd
        exact hd.elim
      | fork p =>
        rw [hp] at hd hparent
        exact (ComesFrom.le hs hd).trans_lt hparent
  reaches := h.reaches

/-- A fork that is not joined leaves no trace but what it has made wait. Whatever is done around it, in any
order and however it ends, leaves all other cursors where they were. And in a run in which a fork is made
and used now and then, everything that does not come from the fork reads what it reads in the same run
without the fork, except that an element which raises is met once only, be it in the fork. -/
theorem rolledBack_of_around (hs : s.InUse) :
    (∀ (f : Nat) (acts : List Action), s.Given (.fork f) → Around (.fork f) s acts →
      RolledBack f s (s.acted acts)) ∧
    ∀ c : Cursor, s.isClosed c = false → ∀ (T : Twins) (w u : Source),
      Beside (About (.fork s.forks.size)) s.sameCursors s (s.addFork c) T w u →
        Unaffected T w u ∧ (∀ d, s.Given d → T d d) ∧ (∀ d, w.Given d → ∃ d', T d d') ∧
          ∀ d', u.Given d' → u.StemsFrom (.fork s.forks.size) d' ∨ ∃ d, T d d' := by
  refine ⟨fun f acts hf haround => (haround.requested.spared hs.proper).rolledBack hs.proper hf,
    fun c hc T w u hbeside => ?_⟩
  obtain ⟨b, hb⟩ := hs.exists_onTape
  obtain ⟨hlags, hseparate⟩ := lags_and_separate_of_beside hs.proper hb hc hbeside
  exact ⟨hlags.unaffected, fun d hd => hbeside.twins ⟨rfl, hd⟩, fun _ => hseparate.covers,
    fun _ => hseparate.covers'⟩

/-- An element between two items raises. -/
def interrupted : Source :=
  .ofFeed [.value (.int 1), .failing ⟨.valueError "broken", rfl⟩, .value (.int 2)] false .blocking

/-- A fork of the root reads two items, which fails. -/
def failingRead : Action := .request ⟨.blocking, .fork 0, .read 2⟩

theorem rolledBack_of_around_interrupted :
    (interrupted.addFork .root).InUse ∧ Around (.fork 0) (interrupted.addFork .root) [failingRead] ∧
    RolledBack 0 (interrupted.addFork .root) ((interrupted.addFork .root).act failingRead) ∧
    Unaffected interrupted.sameCursors interrupted ((interrupted.addFork .root).act failingRead) ∧
    interrupted.sameCursors .root .root ∧
    ((read .blocking .root 2).runOn interrupted).1 =
      .error (.other (.failure (.valueError "broken"))) ∧
    ((read .blocking .root 2).runOn ((interrupted.addFork .root).act failingRead)).1 =
      .ok (.items .list #[.int 1, .int 2]) := by
  have hnew : interrupted.New := .ofFeed ..
  have hforked : (interrupted.addFork .root).InUse :=
    ⟨interrupted, [.request ⟨.blocking, .root, .fork⟩], hnew, rfl⟩
  have habout : About (.fork 0) (interrupted.addFork .root) failingRead :=
    ⟨.refl _ _, fun use huse _ => by cases huse; nofun⟩
  have haround : Around (.fork 0) (interrupted.addFork .root) [failingRead] := .cons habout (.nil _)
  obtain ⟨hback, -⟩ := rolledBack_of_around hforked
  obtain ⟨-, hbeside⟩ := rolledBack_of_around (s := interrupted) ⟨interrupted, [], hnew, rfl⟩
  obtain ⟨hsame, htwins, -⟩ := hbeside .root rfl _ _ _ (.alone .start habout)
  exact ⟨hforked, haround, hback 0 [failingRead] Nat.zero_lt_one haround, hsame, htwins .root trivial,
    rfl, rfl⟩

end Source
end Backtrack
