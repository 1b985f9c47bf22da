/-
What an evaluation asks of a source. Whatever rule is evaluated at a cursor, it leaves the source as a
run of requests leaves it, made of the cursor and of forks that come from it, and none of them joins the
cursor: `Requested` says so, and it is a `Motion`. What every run of requests keeps is therefore kept
where rules are evaluated in between.
-/
import Backtrack.Proofs.Overtaking
namespace Backtrack

/-! ## Operations that do not heed what was reported -/

namespace SourceM

variable {α β : Type}

/-- What the operation gives and does has nothing to do with what was reported before. -/
def Blind (op : SourceM α) : Prop :=
  ∀ (s : Source) (events : List Event), ∃ events',
    op.runOn { s with events := events } =
      ((op.runOn s).1, { (op.runOn s).2 with events := events' })

namespace Blind

protected theorem pure (a : α) : Blind (pure a) := fun _ events => ⟨events, rfl⟩

protected theorem throw (f : Failure) : Blind (throw f : SourceM α) := fun _ events => ⟨events, rfl⟩

protected theorem bind {x : SourceM α} {f : α → SourceM β} (hx : Blind x) (hf : ∀ a, Blind (f a)) :
    Blind (x >>= f) := by
  intro s events
  obtain ⟨events', hrun⟩ := hx s events
  rw [runOn_bind, runOn_bind, hrun]
  rcases x.runOn s with ⟨e | a, t⟩
  · exact ⟨events', rfl⟩
  · exact hf a t events'

/-- A part of the source that is no report may be looked at. -/
theorem get_bind {f : Source → SourceM β} (hf : ∀ s, Blind (f s))
    (hsame : ∀ (s : Source) (events : List Event), f { s with events := events } = f s) :
    Blind (get >>= f) := by
  intro s events
  rw [runOn_bind, runOn_bind, runOn_get, runOn_get]
  dsimp only
  rw [hsame]
  exact hf s s events

theorem modify {f : Source → Source}
    (hf : ∀ (s : Source) (events : List Event),
      f { s with events := events } = { f s with events := events }) :
    Blind (modify f : SourceM Unit) := by
  intro s events
  rw [runOn_modify, runOn_modify, hf]
  exact ⟨events, rfl⟩

theorem ofExcept (r : Except Failure α) : Blind (MonadExcept.ofExcept r : SourceM α) := by
  cases r with
  | ok a => exact .pure a
  | error f => exact .throw f

protected theorem ite {p : Prop} [Decidable p] {x y : SourceM α} (hx : Blind x) (hy : Blind y) :
    Blind (if p then x else y) := by
  split
  · exact hx
  · exact hy

end Blind

end SourceM

namespace Source

open SourceM (Blind)

theorem blind_checkOpen (c : Cursor) : Blind (checkOpen c) :=
  .get_bind (fun _ => .ite (.throw _) (.pure _)) fun _ _ => rfl

theorem blind_fill (path : Path) (amount : Int) : Blind (fill path amount) :=
  fun s events => ⟨events ++ (s.buffer.fill path amount).2.1, rfl⟩

theorem blind_read (path : Path) (c : Cursor) (amount : Int) : Blind (read path c amount) :=
  (blind_checkOpen c).bind fun _ =>
    .get_bind (fun _ => (blind_fill path _).bind fun _ =>
      .get_bind (fun _ => .ofExcept _) fun _ _ => rfl) fun _ _ => rfl

theorem blind_consumeRoot (amount : Int) : Blind (consumeRoot amount) := by
  intro s events
  cases h : consumeFailure? s.buffer 0 amount with
  | some f =>
    rw [runOn_consumeRoot_of_some h,
      runOn_consumeRoot_of_some (s := { s with events := events }) h]
    exact ⟨events, rfl⟩
  | none =>
    rw [runOn_consumeRoot h, runOn_consumeRoot (s := { s with events := events }) h]
    exact ⟨_, rfl⟩

theorem blind_consume (c : Cursor) (amount : Int) : Blind (consume c amount) := by
  cases c with
  | root => exact blind_consumeRoot amount
  | fork id =>
    refine (blind_checkOpen _).bind fun _ => .get_bind (fun s => ?_) fun _ _ => rfl
    split
    · exact .throw _
    · exact .modify fun _ _ => rfl

theorem blind_fork (c : Cursor) : Blind (fork c) :=
  (blind_checkOpen c).bind fun _ => fun _ events => ⟨events, rfl⟩

theorem blind_close (c : Cursor) : Blind (close c) := by
  cases c with
  | root => exact .pure ()
  | fork id => exact .modify fun _ _ => rfl

theorem blind_join (c : Cursor) : Blind (join c) := by
  cases c with
  | root => exact .pure ()
  | fork id =>
    refine (blind_checkOpen _).bind fun _ => (blind_close _).bind fun _ =>
      .get_bind (fun s => ?_) fun _ _ => rfl
    dsimp only
    split
    · exact blind_consumeRoot _
    · exact (blind_checkOpen _).bind fun _ => .modify fun _ _ => rfl

theorem blind_perform (r : Request) (path : Path) (c : Cursor) : Blind (r.perform path c) := by
  cases r with
  | read n => exact (blind_read path c n).bind fun _ => .pure _
  | consume n => exact (blind_consume c n).bind fun _ => .pure _
  | fork => exact (blind_fork c).bind fun _ => .pure _
  | join => exact (blind_join c).bind fun _ => .pure _
  | close =>
    cases c with
    | root => exact .throw _
    | fork id => exact (blind_close _).bind fun _ => .pure _

variable {s t u : Source} {c d e : Cursor} {uses more : List Use}

/-- The sources differ at most in what they report. -/
def Matches (s u : Source) : Prop := ∃ events, u = { s with events := events }

theorem Matches.refl (s : Source) : s.Matches s := ⟨s.events, rfl⟩

theorem Matches.trans (h : s.Matches t) (h' : t.Matches u) : s.Matches u := by
  obtain ⟨events, rfl⟩ := h
  obtain ⟨events', rfl⟩ := h'
  exact ⟨events', rfl⟩

theorem Matches.withEvents (h : s.Matches u) (events : List Event) :
    s.Matches { u with events := events } := h.trans ⟨events, rfl⟩

/-- Requests give and do the same to both. -/
theorem Matches.perform (h : s.Matches u) (r : Request) (path : Path) (c : Cursor) :
    ((r.perform path c).runOn u).1 = ((r.perform path c).runOn s).1 ∧
      ((r.perform path c).runOn s).2.Matches ((r.perform path c).runOn u).2 := by
  obtain ⟨events, rfl⟩ := h
  obtain ⟨events', hrun⟩ := blind_perform r path c s events
  rw [hrun]
  exact ⟨rfl, events', rfl⟩

theorem Matches.after (uses : List Use) : ∀ {s u : Source}, s.Matches u →
    (s.after uses).Matches (u.after uses) := by
  induction uses with
  | nil => exact fun h => h
  | cons use uses ih => exact fun h => ih (h.perform use.request use.path use.cursor).2

theorem Matches.proper (h : s.Matches u) (hs : s.Proper) : u.Proper := by
  obtain ⟨events, rfl⟩ := h
  exact ⟨hs.available_nonneg, hs.offset_nonneg, hs.parent_lt⟩

/-! ## Cursors that come from others -/

/-- The cursor `d` is the cursor `c` or a fork that comes from it, as all do from the root. -/
def StemsFrom (s : Source) : Cursor → Cursor → Prop
  | .root, _ => True
  | .fork f, .fork g => s.ComesFrom f g
  | .fork _, .root => False

theorem StemsFrom.refl (s : Source) (c : Cursor) : s.StemsFrom c c := by
  cases c with
  | root => trivial
  | fork f => exact .self

theorem ComesFrom.trans {f g h : Nat} (hg : s.ComesFrom f g) (hh : s.ComesFrom g h) :
    s.ComesFrom f h := by
  induction hh with
  | self => exact hg
  | fork hparent _ ih => exact .fork hparent ih

theorem StemsFrom.trans (hd : s.StemsFrom c d) (he : s.StemsFrom d e) : s.StemsFrom c e := by
  cases c with
  | root => trivial
  | fork f =>
    cases d with
    | root => exact hd.elim
    | fork g =>
      cases e with
      | root => exact he.elim
      | fork h => exact ComesFrom.trans hd he

/-- Of two cursors only one comes from the other. -/
theorem StemsFrom.antisymm (hs : s.Proper) (hd : s.StemsFrom c d) (hc : s.StemsFrom d c) : c = d := by
  cases c with
  | root =>
    cases d with
    | root => rfl
    | fork g => exact hc.elim
  | fork f =>
    cases d with
    | root => exact hd.elim
    | fork g => exact congrArg Cursor.fork (le_antisymm (ComesFrom.le hs hd) (ComesFrom.le hs hc))

theorem parent_after_of_eq_some {g parent : Nat} (uses : List Use)
    (h : (s.forkAt g).parent = some parent) : ((s.after uses).forkAt g).parent = some parent := by
  have hlt : g < s.forks.size := by
    by_contra hge
    rw [forkAt_of_size_le (Nat.le_of_not_lt hge)] at h
    cases h
  rwa [parent_after uses hlt]

theorem ComesFrom.after {f g : Nat} (uses : List Use) (h : s.ComesFrom f g) :
    (s.after uses).ComesFrom f g := by
  induction h with
  | self => exact .self
  | fork hparent _ ih => exact .fork (parent_after_of_eq_some uses hparent) ih

theorem StemsFrom.after (uses : List Use) (h : s.StemsFrom c d) : (s.after uses).StemsFrom c d := by
  cases c with
  | root => trivial
  | fork f =>
    cases d with
    | root => exact h.elim
    | fork g => exact ComesFrom.after uses h

theorem Matches.stemsFrom (h : s.Matches u) (hd : s.StemsFrom c d) : u.StemsFrom c d := by
  obtain ⟨events, rfl⟩ := h
  cases c with
  | root => trivial
  | fork f =>
    cases d with
    | root => exact hd.elim
    | fork g => exact ComesFrom.of_parent_eq (u := s) (fun _ => rfl) hd

/-- A new fork comes from its cursor. -/
theorem stemsFrom_addFork (s : Source) (c : Cursor) :
    (s.addFork c).StemsFrom c (.fork s.forks.size) := by
  cases c with
  | root => trivial
  | fork f =>
    have hparent : ((s.addFork (.fork f)).forkAt s.forks.size).parent = some f := by
      rw [forkAt_addFork_new, parentOf]
    exact .fork hparent .self

/-! ## Requests around a cursor -/

/-- All uses are of the cursor `c` or of forks that come from it, and none of them joins the cursor. -/
inductive Within (c : Cursor) : Source → List Use → Prop where
  | nil (s : Source) : Within c s []
  | cons {s : Source} {use : Use} {uses : List Use} (hfrom : s.StemsFrom c use.cursor)
    (hjoin : use.cursor = c → use.request ≠ .join) (hrest : Within c (s.after [use]) uses) :
    Within c s (use :: uses)

namespace Within

theorem append (h : Within c s uses) (h' : Within c (s.after uses) more) :
    Within c s (uses ++ more) := by
  induction h with
  | nil s => exact h'
  | cons hfrom hjoin _ ih => exact .cons hfrom hjoin (ih h')

theorem single {use : Use} (hfrom : s.StemsFrom c use.cursor)
    (hjoin : use.cursor = c → use.request ≠ .join) : Within c s [use] :=
  .cons hfrom hjoin (.nil _)

/-- What happens around a cursor happens around those that it comes from. -/
theorem widen (hs : s.Proper) (hd : s.StemsFrom c d) (h : Within d s uses) : Within c s uses := by
  induction h with
  | nil s => exact .nil s
  | @cons s use uses hfrom hjoin _ ih =>
    refine .cons (hd.trans hfrom) (fun hc => ?_) (ih (hs.after _) (hd.after _))
    subst hc
    exact hjoin (hd.antisymm hs hfrom)

theorem of_matches (h : s.Matches u) (huses : Within c s uses) : Within c u uses := by
  induction huses generalizing u with
  | nil s => exact .nil u
  | cons hfrom hjoin _ ih => exact .cons (h.stemsFrom hfrom) hjoin (ih (h.after _))

end Within

/-! ## Evaluations as runs of requests -/

/-- What has become of the source is what requests around the cursor make of it. -/
def Requested (c : Cursor) (s u : Source) : Prop :=
  s.Proper → ∃ uses, Within c s uses ∧ (s.after uses).Matches u

theorem Requested.of_use {use : Use} (hfrom : s.StemsFrom c use.cursor)
    (hjoin : use.cursor = c → use.request ≠ .join) : Requested c s (s.after [use]) :=
  fun _ => ⟨[use], .single hfrom hjoin, .refl _⟩

theorem Requested.trans (h : Requested c s t) (h' : Requested c t u) : Requested c s u := by
  intro hs
  obtain ⟨uses, hwithin, hmatches⟩ := h hs
  obtain ⟨more, hwithin', hmatches'⟩ := h' (hmatches.proper (hs.after uses))
  obtain ⟨events, rfl⟩ := hmatches
  have hback : Matches { s.after uses with events := events } (s.after uses) := ⟨_, rfl⟩
  refine ⟨uses ++ more, hwithin.append (hwithin'.of_matches hback), ?_⟩
  rw [after_append]
  exact (Matches.after more ⟨events, rfl⟩).trans hmatches'

theorem after_single (s : Source) (path : Path) (c : Cursor) (r : Request) :
    s.after [⟨path, c, r⟩] = match r with
      | .read n => ((read path c n).runOn s).2
      | .consume n => ((consume c n).runOn s).2
      | .fork => ((fork c).runOn s).2
      | .join => ((join c).runOn s).2
      | .close => ((close c).runOn s).2 := snd_runOn_perform r path c s

theorem after_fork (hc : s.isClosed c = false) (path : Path) :
    s.after [⟨path, c, .fork⟩] = s.addFork c := by
  rw [after_single, runOn_fork hc]

/-- What requests around a new fork make of the source, requests around its cursor make of it. -/
theorem Forked.requested (h : Forked Requested c s u) : Requested c s u := by
  intro hs
  obtain ⟨uses, hwithin, hmatches⟩ := h.moved (hs.addFork h.isOpen)
  have hfork := after_fork h.isOpen .blocking
  refine ⟨⟨.blocking, c, .fork⟩ :: uses, .cons (.refl s c) (fun _ => nofun) ?_, ?_⟩
  · rw [hfork]
    exact hwithin.widen (hs.addFork h.isOpen) (stemsFrom_addFork s c)
  · rw [← List.singleton_append, after_append, hfork]
    exact hmatches

/-- A new fork is not the cursor that it was made of, which it still comes from after whatever was done
in it. -/
theorem Forked.stems (hs : s.Proper) (h : Forked Requested c s u) :
    u.StemsFrom c (.fork s.forks.size) ∧ .fork s.forks.size ≠ c := by
  obtain ⟨uses, -, hmatches⟩ := h.moved (hs.addFork h.isOpen)
  refine ⟨hmatches.stemsFrom ((stemsFrom_addFork s c).after uses), ?_⟩
  rintro rfl
  exact absurd (lt_size_of_open h.isOpen) (lt_irrefl _)

theorem Forked.requested_use (h : Forked Requested c s u) (r : Request) :
    Requested c s (u.after [⟨.blocking, .fork s.forks.size, r⟩]) := by
  intro hs
  obtain ⟨hstems, hne⟩ := h.stems hs
  exact h.requested.trans (.of_use hstems fun hc => absurd hc hne) hs

instance : Motion Requested where
  refl c s _ := ⟨[], .nil s, .refl s⟩
  trans := .trans
  withEvents h events hs := by
    obtain ⟨uses, hwithin, hmatches⟩ := h hs
    exact ⟨uses, hwithin, hmatches.withEvents events⟩
  read path c amount hamount s := by
    obtain ⟨n, rfl⟩ := Int.eq_ofNat_of_zero_le hamount
    exact (after_single s path c (.read n)).subst (motive := Requested c s)
      (.of_use (.refl s c) fun _ => nofun)
  consume c n s :=
    (after_single s .blocking c (.consume n)).subst (motive := Requested c s)
      (.of_use (.refl s c) fun _ => nofun)
  left h := h.requested
  closed {c s u} h :=
    (after_single u .blocking (.fork s.forks.size) .close).subst (motive := Requested c s)
      (h.requested_use .close)
  joined {c s u} h :=
    (after_single u .blocking (.fork s.forks.size) .join).subst (motive := Requested c s)
      (h.requested_use .join)

end Source

/-! ## Requests and evaluations -/

/-- What is done at a cursor: it is asked for something, or a rule is evaluated at it. -/
inductive Action where
  | request (use : Use)
  | evaluation (g : Grammar) (path : Path) (fuel : Nat) (rule : Rule) (cursor : Cursor) (arg : Value)
    (journal : Journal)

/-- The cursor that something is done at. -/
def Action.cursor : Action → Cursor
  | request use => use.cursor
  | evaluation _ _ _ _ cursor _ _ => cursor

namespace Source

variable {s u : Source} {c : Cursor} {acts : List Action} {uses : List Use}

/-- The source after something was done, however that ended. -/
def act (s : Source) : Action → Source
  | .request use => s.after [use]
  | .evaluation g path fuel rule c arg journal =>
    ((Evaluation.eval g path fuel rule c arg).runFrom ⟨s, journal⟩).2.source

/-- The source after a run of requests and evaluations, however they ended. -/
def acted (s : Source) (acts : List Action) : Source := acts.foldl act s

/-- Evaluating a rule does to the source what requests around its cursor do. -/
theorem exists_made (hs : s.Proper) (g : Grammar) (path : Path) (fuel : Nat) (rule : Rule) (c : Cursor)
    (arg : Value) (journal : Journal) : ∃ made, Within c s made ∧
      (s.after made).Matches (s.act (.evaluation g path fuel rule c arg journal)) :=
  Evaluation.eval_keeps Requested g path fuel rule c arg ⟨s, journal⟩ hs

/-- The requests `uses` are those of a run in which rules are evaluated as well. An evaluation does not
record what it asks of the source: whatever requests around its cursor do to the source what it does
stand for it. -/
inductive Makes : Source → List Action → List Use → Prop where
  | nil (s : Source) : Makes s [] []
  | request {s : Source} {use : Use} {acts : List Action} {uses : List Use}
    (hrest : Makes (s.act (.request use)) acts uses) : Makes s (.request use :: acts) (use :: uses)
  | evaluation {s : Source} {g : Grammar} {path : Path} {fuel : Nat} {rule : Rule} {c : Cursor}
    {arg : Value} {journal : Journal} {acts : List Action} {made uses : List Use}
    (hwithin : Within c s made)
    (hmade : (s.after made).Matches (s.act (.evaluation g path fuel rule c arg journal)))
    (hrest : Makes (s.act (.evaluation g path fuel rule c arg journal)) acts uses) :
    Makes s (.evaluation g path fuel rule c arg journal :: acts) (made ++ uses)

/-- The source after the run is the one after its requests. -/
theorem Makes.matches (h : Makes s acts uses) : (s.after uses).Matches (s.acted acts) := by
  induction h with
  | nil s => exact .refl s
  | request _ ih => exact ih
  | evaluation _ hmade _ ih =>
    rw [after_append]
    exact (hmade.after _).trans ih

theorem exists_makes (acts : List Action) : ∀ {s : Source}, s.Proper → ∃ uses, Makes s acts uses := by
  induction acts with
  | nil => exact fun {s} _ => ⟨[], .nil s⟩
  | cons a acts ih =>
    intro s hs
    cases a with
    | request use =>
      obtain ⟨uses, huses⟩ := ih (s := s.act (.request use)) (hs.after [use])
      exact ⟨use :: uses, .request huses⟩
    | evaluation g path fuel rule c arg journal =>
      obtain ⟨made, hwithin, hmade⟩ := exists_made hs g path fuel rule c arg journal
      obtain ⟨uses, huses⟩ := ih (hmade.proper (hs.after made))
      exact ⟨made ++ uses, .evaluation hwithin hmade huses⟩

theorem Proper.acted (hs : s.Proper) (acts : List Action) : (s.acted acts).Proper := by
  obtain ⟨uses, huses⟩ := exists_makes acts hs
  exact huses.matches.proper (hs.after uses)

/-- It is done at the cursor `c` or at a fork that comes from it, and is no join of the cursor. -/
structure About (c : Cursor) (s : Source) (a : Action) : Prop where
  stems : s.StemsFrom c a.cursor
  not_join : ∀ use, a = .request use → use.cursor = c → use.request ≠ .join

/-- What is done about a cursor, requests around it do. -/
theorem About.requested {a : Action} (h : About c s a) : Requested c s (s.act a) := by
  cases a with
  | request use => exact .of_use h.stems (h.not_join use rfl)
  | evaluation g path fuel rule d arg journal =>
    intro hs
    obtain ⟨made, hwithin, hmade⟩ := exists_made hs g path fuel rule d arg journal
    exact ⟨made, hwithin.widen hs h.stems, hmade⟩

/-- All that is done is done about the cursor `c`. -/
inductive Around (c : Cursor) : Source → List Action → Prop where
  | nil (s : Source) : Around c s []
  | cons {s : Source} {a : Action} {acts : List Action} (habout : About c s a)
    (hrest : Around c (s.act a) acts) : Around c s (a :: acts)

theorem Around.requested (h : Around c s acts) : Requested c s (s.acted acts) := by
  induction h with
  | nil s => exact fun _ => ⟨[], .nil s, .refl s⟩
  | cons habout _ ih => exact habout.requested.trans ih

end Source
end Backtrack
