/-
A choice between two rules that begin with the same part may make the choice behind that part. The
one choice gives up the first fork and evaluates the part again in a second one; the other makes its
forks behind the part. The part is replayed (`eval_again`), so the two cannot be told apart: `fan`
comes to what the first `pair` comes to, or the second one if the first mismatches.
-/
import Backtrack.Proofs.Evaluates
import Backtrack.Proofs.Replay
namespace Backtrack

open Source (Moved Inside Pulled consumeFailure?)

/-! ## Forks that are joined or closed -/

namespace Source

/-- An open cursor stands where it stood. -/
structure Stands (c : Cursor) (s v : Source) : Prop where
  position : v.position = s.position
  offset : v.offset c = s.offset c
  isOpen : v.isClosed c = false

theorem Stands.positionOf {c : Cursor} {s v : Source} (h : Stands c s v) :
    v.positionOf c = s.positionOf c := by
  rw [Source.positionOf, Source.positionOf, h.position, h.offset]

theorem Stands.refl {c : Cursor} {s : Source} (h : s.isClosed c = false) : Stands c s s := ⟨rfl, rfl, h⟩

theorem Stands.symm {c : Cursor} {s v : Source} (h : Stands c s v) (hs : s.isClosed c = false) :
    Stands c v s := ⟨h.position.symm, h.offset.symm, hs⟩

theorem Stands.trans {c : Cursor} {s v w : Source} (h : Stands c s v) (h' : Stands c v w) :
    Stands c s w := ⟨h'.position.trans h.position, h'.offset.trans h.offset, h'.isOpen⟩

/-- Open cursors of two sources stand at the same place over the same buffer. -/
structure Level (c d : Cursor) (s s' : Source) : Prop where
  buffer : s'.buffer = s.buffer
  position : s'.position = s.position
  offset : s'.offset d = s.offset c
  isOpen : s.isClosed c = false
  isOpen' : s'.isClosed d = false

theorem Level.refl {c : Cursor} {s : Source} (h : s.isClosed c = false) : Level c c s s :=
  ⟨rfl, rfl, rfl, h, h⟩

theorem Level.stands {c : Cursor} {s s' : Source} (h : Level c c s s') : Stands c s s' :=
  ⟨h.position, h.offset, h.isOpen'⟩

/-- Cursors that stand where they stood are level again if the buffers are the same again. -/
theorem Stands.level {c d : Cursor} {s s' v v' : Source} (h : Stands c s v) (h' : Stands d s' v')
    (hposition : s'.position = s.position) (hoffset : s'.offset d = s.offset c)
    (hbuffer : v'.buffer = v.buffer) : Level c d v v' :=
  ⟨hbuffer, (h'.position.trans hposition).trans h.position.symm,
    (h'.offset.trans hoffset).trans h.offset.symm, h.isOpen, h'.isOpen⟩

/-- What consuming at the root does depends on the buffer and the position alone. -/
theorem runOn_consumeRoot_of_same (s s' : Source) (hbuffer : s'.buffer = s.buffer)
    (hposition : s'.position = s.position) (n : Int) :
    ((consumeRoot n).runOn s').1 = ((consumeRoot n).runOn s).1 ∧
      ((consumeRoot n).runOn s').2.buffer = ((consumeRoot n).runOn s).2.buffer ∧
      ((consumeRoot n).runOn s').2.position = ((consumeRoot n).runOn s).2.position := by
  cases hfailure : consumeFailure? s.buffer 0 n with
  | some f =>
    rw [runOn_consumeRoot_of_some hfailure, runOn_consumeRoot_of_some (hbuffer ▸ hfailure)]
    exact ⟨rfl, hbuffer, hposition⟩
  | none =>
    rw [runOn_consumeRoot hfailure, runOn_consumeRoot (hbuffer ▸ hfailure)]
    exact ⟨rfl, by simp only [hbuffer], by simp only [hposition]⟩

/-- Forks that stand at the same place over the same buffer hand over the same to their parent. -/
theorem Inside.runOn_join_of_same {d : Cursor} {s s' u u' : Source} (h : Inside d s u)
    (h' : Inside d s' u') (hbuffer : u'.buffer = u.buffer) (hposition : u'.position = u.position)
    (hoffset : u'.offset (.fork s'.forks.size) = u.offset (.fork s.forks.size)) :
    ((Source.join (.fork s'.forks.size)).runOn u').1 = ((Source.join (.fork s.forks.size)).runOn u).1 ∧
      ((Source.join (.fork s'.forks.size)).runOn u').2.buffer =
        ((Source.join (.fork s.forks.size)).runOn u).2.buffer ∧
      ((Source.join (.fork s'.forks.size)).runOn u').2.positionOf d =
        ((Source.join (.fork s.forks.size)).runOn u).2.positionOf d := by
  cases d with
  | fork id =>
    obtain ⟨hj, hb, hp, ho⟩ := h.runOn_join
    obtain ⟨hj', hb', hp', ho'⟩ := h'.runOn_join
    refine ⟨hj'.trans hj.symm, by rw [hb, hb', hbuffer], ?_⟩
    rw [positionOf, positionOf, hp, hp', ho, ho', hposition, hoffset]
  | root =>
    rw [offset, offset] at hoffset
    rw [runOn_join_of_root h.isClosed_fork h.parent_fork,
      runOn_join_of_root h'.isClosed_fork h'.parent_fork, hoffset]
    obtain ⟨hj, hb, hp⟩ := runOn_consumeRoot_of_same
      (u.setFork s.forks.size fun f => { f with closed := true })
      (u'.setFork s'.forks.size fun f => { f with closed := true }) hbuffer hposition
      (u.forkAt s.forks.size).offset
    exact ⟨hj, hb, by rw [positionOf, positionOf, hp]; rfl⟩

end Source

namespace Evaluation

open Source (Stands)

variable {rule : Rule} {s : State} {r : Except Halt Outcome}

/-! ## Alternatives -/

/-- What the first of several alternatives comes to, `rest` being what is done if it mismatches. -/
def alternative (rule : Rule) (x : Cursor → Evaluation Outcome) (c : Cursor)
    (rest : Evaluation Outcome) : Evaluation Outcome := do
  let fork ← onSource (Source.fork c)
  let outcome ← onFailure (x fork) fun f => do
    if f.isHard then
      onSource (Source.join fork)
      note (.alternativeFailed rule f)
  match outcome with
  | .success vs => do
    onSource (Source.join fork)
    return .success vs
  | .mismatch _ => do
    onSource (Source.close fork)
    rest

theorem choice_cons (run : Cursor → Rule → Evaluation Outcome) (c : Cursor) (rule : Rule)
    (rules : List Rule) :
    choice run c (rule :: rules) = alternative rule (fun c => run c rule) c (choice run c rules) := rfl

/-- What ends so takes the cursor along: a success, or a hard failure. -/
def Taken : Except Halt Outcome → Prop
  | .ok (.success _) => True
  | .ok (.mismatch _) => False
  | .error (.failed f) => f.isHard = true
  | .error .outOfFuel => False

/-- What ends so leads to the next alternative. -/
def Missed (r : Except Halt Outcome) : Prop := ∃ m, r = .ok (.mismatch m)

/-- The state in which an open cursor has got a new fork. -/
def State.addFork (s : State) (c : Cursor) : State :=
  ⟨{ s.source.addFork c with events := [] }, s.journal.addEvents s.source.events⟩

theorem runFrom_fork {c : Cursor} {s : State} (h : s.source.isClosed c = false) :
    (onSource (Source.fork c)).runFrom s = (.ok (.fork s.source.forks.size), s.addFork c) := by
  rw [runFrom_onSource, Source.runOn_fork h]
  rfl

/-- In a new fork of the open cursor, `x` ends so. -/
structure Tries (x : Cursor → Evaluation Outcome) (c : Cursor) (s : State) (r : Except Halt Outcome)
    (u : State) : Prop where
  run : (x (.fork s.source.forks.size)).runFrom (s.addFork c) = (r, u)
  inside : Inside c s.source u.source

section

variable {c : Cursor} {x : Cursor → Evaluation Outcome} {rest : Evaluation Outcome} {u v : State}

/-- Whatever moves its fork only is tried in a new one. -/
theorem Tries.of_run (hmoves : ∀ c, Moves c (x c)) (hc : s.source.isClosed c = false)
    (hrun : (x (.fork s.source.forks.size)).runFrom (s.addFork c) = (r, u)) : Tries x c s r u := by
  have hmoved := hmoves (.fork s.source.forks.size) (s.addFork c)
  rw [hrun] at hmoved
  exact ⟨hrun, hc, (Moved.withEvents (.refl _ _) []).trans hmoved⟩

theorem alternative_of_closed (hc : s.source.isClosed c = true) :
    (alternative rule x c rest).runFrom s =
      (.error (.failed Source.forkClosed),
        ⟨{ s.source with events := [] }, s.journal.addEvents s.source.events⟩) :=
  runFrom_bind_of_error (runFrom_fork_of_closed hc)

/-- An alternative that takes the cursor along ends as it did, unless its fork cannot be joined. -/
theorem alternative_of_taken (rule : Rule) (rest : Evaluation Outcome) (h : Tries x c s r u)
    (hr : Taken r) :
    ((alternative rule x c rest).runFrom s).1 =
        (((Source.join (.fork s.source.forks.size)).runOn u.source).1.mapError .failed >>= fun _ => r) ∧
      ((alternative rule x c rest).runFrom s).2.source =
        { ((Source.join (.fork s.source.forks.size)).runOn u.source).2 with events := [] } := by
  rw [alternative, runFrom_bind_of_ok (runFrom_fork h.inside.isOpen), runFrom_bind, runFrom_onFailure,
    h.run]
  rcases r with (f | _) | (vs | m)
  · have hard : f.isHard = true := hr
    simp only [afterFailure, hard, if_true, runFrom_bind, runFrom_onSource]
    rcases ((Source.join (.fork s.source.forks.size)).runOn u.source).1 with e | _
    · exact ⟨rfl, rfl⟩
    · exact ⟨rfl, rfl⟩
  · cases hr
  · simp only [afterFailure, runFrom_bind, runFrom_onSource]
    rcases ((Source.join (.fork s.source.forks.size)).runOn u.source).1 with e | _
    · exact ⟨rfl, rfl⟩
    · exact ⟨rfl, rfl⟩
  · cases hr

/-- An alternative that fails and takes nothing along leaves its fork behind. -/
theorem alternative_of_error {e : Halt} (h : Tries x c s (.error e) u) (hr : ¬ Taken (.error e)) :
    (alternative rule x c rest).runFrom s = (.error e, u) := by
  rw [alternative, runFrom_bind_of_ok (runFrom_fork h.inside.isOpen), runFrom_bind, runFrom_onFailure,
    h.run]
  rcases e with f | _
  · have hard : ¬ f.isHard = true := hr
    simp only [afterFailure, if_neg hard, runFrom_pure]
  · rfl

/-- Whatever became of the fork, its parent stands where it stood. -/
theorem Tries.stands (h : Tries x c s r u) : Stands c s.source u.source :=
  ⟨h.inside.moved.position nofun, h.inside.offset_parent,
    h.inside.parent_moved.isClosed.trans h.inside.isOpen⟩

/-- The fork can be closed, and the parent stands where it stood. -/
theorem Tries.close (h : Tries x c s r u) :
    ∃ v, (onSource (Source.close (.fork s.source.forks.size))).runFrom u = (.ok (), v) ∧
      v.source.buffer = u.source.buffer ∧ Stands c s.source v.source := by
  obtain ⟨v, hclose, hmoved⟩ := h.inside.onSource_close
  have hv := (of_onSource_eq_ok hclose).2
  rw [Source.runOn_close_fork] at hv
  refine ⟨v, hclose, by rw [hv]; rfl, ?_, ?_, hmoved.isClosed.trans h.inside.isOpen⟩
  · rw [hv]
    exact h.stands.position
  · rw [hv]
    exact (Source.offset_setFork_younger h.inside.isOpen (le_refl _) _ _).trans h.stands.offset

/-- An alternative that mismatches is given up, its fork being closed. -/
theorem alternative_of_missed (h : Tries x c s r u) (hr : Missed r) :
    ∃ v, (alternative rule x c rest).runFrom s = rest.runFrom v ∧
      v.source.buffer = u.source.buffer ∧ Stands c s.source v.source := by
  obtain ⟨m, rfl⟩ := hr
  obtain ⟨v, hclose, hv⟩ := h.close
  refine ⟨v, ?_, hv⟩
  rw [alternative, runFrom_bind_of_ok (runFrom_fork h.inside.isOpen), runFrom_bind,
    runFrom_onFailure, h.run]
  exact runFrom_bind_of_ok hclose

end

end Evaluation

/-! ## One part after another -/

/-- An outcome behind values that are there already. -/
def Outcome.behind (values : List Value) : Outcome → Outcome
  | .success vs => .success (values ++ vs)
  | .mismatch m => .mismatch m

namespace Evaluation

variable {s t : State} {r : Except Halt Outcome}

/-- A part and another one behind it. -/
def followedBy (x y : Evaluation Outcome) : Evaluation Outcome := do
  match ← x with
  | .mismatch m => return .mismatch m
  | .success vs => Outcome.behind vs <$> y

theorem sequence_singleton (run : Rule → Evaluation Outcome) (values : List Value) (last : Rule) :
    sequence run values [last] = Outcome.behind values <$> run last := by
  rw [sequence, map_eq_pure_bind]
  refine congrArg (run last >>= ·) (funext fun o => ?_)
  cases o with
  | mismatch m => rfl
  | success vs => rfl

theorem sequence_pair (run : Rule → Evaluation Outcome) (first second : Rule) :
    sequence run [] [first, second] = followedBy (run first) (run second) := by
  rw [sequence, followedBy]
  refine congrArg (run first >>= ·) (funext fun o => ?_)
  cases o with
  | mismatch m => rfl
  | success vs => exact sequence_singleton run vs second

theorem runFrom_map_of_eq {α β : Type} (f : α → β) {x : Evaluation α} {r : Except Halt α}
    (h : x.runFrom s = (r, t)) : (f <$> x).runFrom s = (r.map f, t) := by
  rw [map_eq_pure_bind, runFrom_bind, h]
  cases r <;> rfl

section

variable {x y : Evaluation Outcome} {u : State}

theorem followedBy_of_error {e : Halt} (h : x.runFrom s = (.error e, t)) :
    (followedBy x y).runFrom s = (.error e, t) := runFrom_bind_of_error h

theorem followedBy_of_mismatch {m : Mismatch} (h : x.runFrom s = (.ok (.mismatch m), t)) :
    (followedBy x y).runFrom s = (.ok (.mismatch m), t) := runFrom_bind_of_ok h

theorem followedBy_of_success {vs : List Value} (h : x.runFrom s = (.ok (.success vs), t))
    (h' : y.runFrom t = (r, u)) :
    (followedBy x y).runFrom s = (r.map (Outcome.behind vs), u) := by
  rw [followedBy, runFrom_bind_of_ok h]
  exact runFrom_map_of_eq (Outcome.behind vs) h'

end

theorem missed_behind {vs : List Value} : Missed (r.map (Outcome.behind vs)) ↔ Missed r := by
  rcases r with e | (ws | m)
  · exact ⟨nofun, nofun⟩
  · exact ⟨nofun, nofun⟩
  · exact ⟨fun _ => ⟨m, rfl⟩, fun _ => ⟨m, rfl⟩⟩

theorem taken_behind {vs : List Value} : Taken (r.map (Outcome.behind vs)) ↔ Taken r := by
  rcases r with (f | _) | (ws | m) <;> rfl

open Source (Stands)
open Tandem (same idle free)

/-! ## An alternative behind a part, and one in place of it -/

/-- What two forks come to, which are dealt with in the same way from here on: the same result, or
mismatches both, over the same buffer, and at the same place if they are going to be joined. -/
structure Meets (fork fork' : Cursor) (r r' : Except Halt Outcome) (u u' : Source) : Prop where
  result : r' = r ∨ Missed r ∧ Missed r'
  buffer : u'.buffer = u.buffer
  position : u'.position = u.position
  offset : Taken r → u'.offset fork' = u.offset fork

theorem Meets.behind {fork fork' : Cursor} {r r' : Except Halt Outcome} {u u' : Source}
    (h : Meets fork fork' r r' u u') (vs : List Value) :
    Meets fork fork' (r.map (Outcome.behind vs)) (r'.map (Outcome.behind vs)) u u' := by
  refine ⟨?_, h.buffer, h.position, fun ht => h.offset (taken_behind.1 ht)⟩
  rcases h.result with hsame | ⟨hr, hr'⟩
  · exact .inl (by rw [hsame])
  · exact .inr ⟨missed_behind.2 hr, missed_behind.2 hr'⟩

/-- The runs have the same result, pulled the same, and leave the cursor at the same position. -/
structure Indistinct (c : Cursor) (ran ran' : Except Halt Outcome × State) : Prop where
  result : ran'.1 = ran.1
  buffer : ran'.2.source.buffer = ran.2.source.buffer
  position : ran'.2.source.positionOf c = ran.2.source.positionOf c

theorem Indistinct.symm {c : Cursor} {ran ran' : Except Halt Outcome × State}
    (h : Indistinct c ran ran') : Indistinct c ran' ran :=
  ⟨h.result.symm, h.buffer.symm, h.position.symm⟩

theorem Indistinct.of_run {c : Cursor} {x y : Evaluation Outcome} {s s' t : State}
    {r : Except Halt Outcome} (h : Indistinct c (x.runFrom s) (y.runFrom s'))
    (hrun : x.runFrom s = (r, t)) :
    ∃ u, y.runFrom s' = (r, u) ∧ u.source.positionOf c = t.source.positionOf c ∧
      u.source.buffer = t.source.buffer := by
  obtain ⟨hresult, hbuffer, hposition⟩ := h
  rw [hrun] at hresult hbuffer hposition
  exact ⟨(y.runFrom s').2, Prod.ext hresult rfl, hposition, hbuffer⟩

/-- Where the cursor stands at the same place over the same buffer, the computations cannot be told
apart. -/
def Levels (c : Cursor) (x y : Evaluation Outcome) : Prop :=
  ∀ s s' : State, Source.Level c c s.source s'.source → Indistinct c (x.runFrom s) (y.runFrom s')

protected theorem Levels.pure (c : Cursor) (o : Outcome) : Levels c (pure o) (pure o) :=
  fun _ _ h => ⟨rfl, h.buffer, h.stands.positionOf⟩

section

variable {rule rule' : Rule} {x x' : Cursor → Evaluation Outcome} {rest rest' : Evaluation Outcome}
  {r r' : Except Halt Outcome} {c d : Cursor} {s s' t u u' : State}

/-- Alternatives whose forks meet cannot be told apart by the cursor of the forks, if after a mismatch
what is left to be tried cannot. -/
theorem indistinct_of_meets (h : Tries x c s r u) (h' : Tries x' c s' r' u')
    (hstands : Stands c s.source s'.source)
    (hm : Meets (.fork s.source.forks.size) (.fork s'.source.forks.size) r r' u.source u'.source)
    (hrest : Missed r → Levels c rest rest') :
    Indistinct c ((alternative rule x c rest).runFrom s)
      ((alternative rule' x' c rest').runFrom s') := by
  by_cases htaken : Taken r
  · -- both forks are joined, from the same place
    have hsame : r' = r := by
      rcases hm.result with hsame | ⟨⟨m, rfl⟩, -⟩
      · exact hsame
      · exact absurd htaken id
    obtain ⟨hj, hb, hp⟩ :=
      h.inside.runOn_join_of_same h'.inside hm.buffer hm.position (hm.offset htaken)
    obtain ⟨hresult, hsource⟩ := alternative_of_taken rule rest h htaken
    obtain ⟨hresult', hsource'⟩ := alternative_of_taken rule' rest' h' (hsame ▸ htaken)
    refine ⟨by rw [hresult, hresult', hj, hsame], ?_, ?_⟩
    · rw [hsource, hsource']
      exact hb
    · rw [hsource, hsource']
      exact hp
  · rcases r with e | (vs | m)
    · -- both forks are left behind
      have hsame : r' = .error e := by
        rcases hm.result with hsame | ⟨⟨m, ⟨⟩⟩, -⟩
        exact hsame
      subst hsame
      rw [alternative_of_error h htaken, alternative_of_error h' htaken]
      refine ⟨rfl, hm.buffer, ?_⟩
      exact h'.inside.positionOf_parent.trans
        (hstands.positionOf.trans h.inside.positionOf_parent.symm)
    · exact absurd trivial htaken
    · -- both forks are closed
      have hmissed : Missed r' := by
        rcases hm.result with hsame | ⟨-, hmissed⟩
        · exact ⟨m, hsame⟩
        · exact hmissed
      obtain ⟨v, hv, hb, hback⟩ := alternative_of_missed h ⟨m, rfl⟩
      obtain ⟨v', hv', hb', hback'⟩ := alternative_of_missed h' hmissed
      rw [hv, hv']
      exact hrest ⟨m, rfl⟩ v v' (hback.level hback' hstands.position hstands.offset
        ((hb'.trans hm.buffer).trans hb.symm))

variable {g : Grammar} {path : Path} {fuel : Nat} {arg : Value}

/-- What a rule does at a fork, it does as the first alternative at one that is alike: that fork is
taken along, or a mismatch leads to the other alternatives with the fork where it was. -/
theorem choice_of_alike (rules : List Rule) {id : Nat}
    (h : same.Alike d (.fork id) s.source t.source)
    (hrun : (eval g path fuel rule d arg).runFrom s = (r, u)) :
    (¬ Missed r ∧
      ∃ v, (choice (fun c r => eval g path fuel r c arg) (.fork id) (rule :: rules)).runFrom t = (r, v) ∧
        Meets d (.fork id) r r u.source v.source) ∨
    Missed r ∧
      ∃ v, (choice (fun c r => eval g path fuel r c arg) (.fork id) (rule :: rules)).runFrom t =
          (choice (fun c r => eval g path fuel r c arg) (.fork id) rules).runFrom v ∧
        v.source.buffer = u.source.buffer ∧ Stands (.fork id) t.source v.source := by
  have hforks : same.Alike d _ s.source (t.addFork (.fork id)).source :=
    h.fork_right.withEvents s.source.events []
  rcases Tandem.eval same hforks hrun with ⟨⟨⟩, -⟩ | ⟨w, hrun', hw⟩
  have htries : Tries (fun c => eval g path fuel rule c arg) (.fork id) t r w :=
    .of_run (fun c => eval_moves g path fuel rule c arg) h.isOpen' hrun'
  rw [choice_cons]
  by_cases htaken : Taken r
  · obtain ⟨hj, hb, hp, ho⟩ := htries.inside.runOn_join
    obtain ⟨hresult, hsource⟩ := alternative_of_taken rule _ htries htaken
    rw [hj] at hresult
    refine .inl ⟨?_, _, Prod.ext hresult rfl, ?_⟩
    · rintro ⟨m, rfl⟩
      exact htaken
    · rw [hsource]
      exact ⟨.inl rfl, hb.trans hw.buffer, hp.trans hw.position, fun _ => ho.trans hw.offset⟩
  · rcases r with e | (vs | m)
    · exact .inl ⟨nofun, w, alternative_of_error htries htaken, .inl rfl, hw.buffer, hw.position,
        fun h => absurd h htaken⟩
    · exact absurd trivial htaken
    · obtain ⟨v, hv, hb, hstands⟩ := alternative_of_missed htries ⟨m, rfl⟩
      exact .inr ⟨⟨m, rfl⟩, v, hv, hb.trans hw.buffer, hstands⟩

end

/-! ## The common part, once and twice -/

section

variable {g : Grammar} {path : Path} {fuel : Nat} {a b b' : Rule} {arg : Value} {c : Cursor}
  {s t u v : State} {r : Except Halt Outcome}

/-- A fork that is made once more stands where the first one stood. -/
theorem alike_addFork (h : Stands c s.source v.source) :
    free.Alike (.fork s.source.forks.size) (.fork v.source.forks.size) (s.addFork c).source
      (v.addFork c).source :=
  (Tandem.Alike.of_place trivial h.position h.offset trivial).withEvents [] []

/-- A rule that is tried in a fork gives the same in a second one that is made when the buffer has got
as far as the first fork had got it, or further. -/
theorem eval_again {o : Outcome} (hopen : s.source.isClosed c = false)
    (hrun : (eval g path fuel a (.fork s.source.forks.size) arg).runFrom (s.addFork c) = (.ok o, t))
    (hv : Stands c s.source v.source) (hreaches : t.source.buffer.Reaches v.source.buffer)
    (hidle : (idle s.source.buffer).Alike (.fork s.source.forks.size) (.fork s.source.forks.size)
      t.source t.source → v.source.buffer = s.source.buffer) :
    ∃ t', (eval g path fuel a (.fork v.source.forks.size) arg).runFrom (v.addFork c) = (.ok o, t') ∧
      t'.source.buffer = v.source.buffer ∧
      free.Alike (.fork s.source.forks.size) (.fork v.source.forks.size) t.source t'.source := by
  refine eval_replay (alike_addFork hv) hrun hreaches fun hbefore => hidle (eval_idle ?_ hrun)
  exact (alike_addFork (.refl hopen)).change ⟨rfl, rfl⟩ hbefore

variable (g path fuel a b b' arg) in
/-- One rule behind another. -/
abbrev pair (c : Cursor) : Evaluation Outcome :=
  followedBy (eval g path fuel a c arg) (eval g path fuel b c arg)

variable (g path fuel a b b' arg) in
/-- A choice between two rules behind another. -/
abbrev fan (c : Cursor) : Evaluation Outcome :=
  followedBy (eval g path fuel a c arg) (choice (fun c r => eval g path fuel r c arg) c [b, b'])

theorem pair_moves (c : Cursor) : Moves c (pair g path fuel a b arg c) :=
  (eval_moves g path fuel a c arg).bind fun o => by
    cases o with
    | mismatch m => exact .pure _
    | success vs => exact (eval_moves g path fuel b c arg).map _

theorem fan_moves (c : Cursor) : Moves c (fan g path fuel a b b' arg c) :=
  (eval_moves g path fuel a c arg).bind fun o => by
    cases o with
    | mismatch m => exact .pure _
    | success vs =>
      exact (Keeps.choice (fun c r => eval_moves g path fuel r c arg) [b, b']).map _

/-- A fork in which a rule was evaluated is like itself. -/
theorem alike_self {o : Except Halt Outcome} (hopen : s.source.isClosed c = false)
    (hrun : (eval g path fuel a (.fork s.source.forks.size) arg).runFrom (s.addFork c) = (o, t)) :
    same.Alike (.fork s.source.forks.size) (.fork s.source.forks.size) t.source t.source := by
  have ht := (Tries.of_run (fun c => eval_moves g path fuel a c arg) hopen hrun).inside.isClosed_fork
  exact ⟨rfl, rfl, rfl, trivial, nofun, nofun, ht, ht⟩

/-- What the common part and the first rule behind it come to, unless it is a mismatch, the choice
behind the common part comes to. -/
theorem fan_of_pair (b' : Rule) (h : Tries (pair g path fuel a b arg) c s r u) (hr : ¬ Missed r) :
    ∃ u', Tries (fan g path fuel a b b' arg) c s r u' ∧
      Meets (.fork s.source.forks.size) (.fork s.source.forks.size) r r u.source u'.source := by
  have hopen := h.inside.isOpen
  have hrun := h.run
  rcases ha : (eval g path fuel a (.fork s.source.forks.size) arg).runFrom (s.addFork c) with
    ⟨e | (vs | m), t⟩
  · rw [followedBy_of_error ha] at hrun
    cases hrun
    exact ⟨_, .of_run fan_moves hopen (followedBy_of_error ha), .inl rfl, rfl, rfl, fun _ => rfl⟩
  · rcases hb : (eval g path fuel b (.fork s.source.forks.size) arg).runFrom t with ⟨rb, w⟩
    rw [followedBy_of_success ha hb] at hrun
    cases hrun
    rcases choice_of_alike [b'] (alike_self hopen ha) hb with ⟨-, v, hv, hm⟩ | ⟨hmissed, -⟩
    · exact ⟨v, .of_run fan_moves hopen (followedBy_of_success ha hv), hm.behind vs⟩
    · exact absurd (missed_behind.2 hmissed) hr
  · rw [followedBy_of_mismatch ha] at hrun
    cases hrun
    exact absurd ⟨m, rfl⟩ hr

/-- If the common part and the first rule behind it come to a mismatch, the choice behind the common
part comes to what the common part, evaluated again, and the second rule behind it come to. -/
theorem fan_of_pairs {q : Except Halt Outcome} {w : State}
    (h : Tries (pair g path fuel a b arg) c s q u) (hq : Missed q)
    (hbuffer : v.source.buffer = u.source.buffer) (hv : Stands c s.source v.source)
    (h' : Tries (pair g path fuel a b' arg) c v r w) :
    ∃ r' w', Tries (fan g path fuel a b b' arg) c s r' w' ∧
      Meets (.fork v.source.forks.size) (.fork s.source.forks.size) r r' w.source w'.source := by
  have hopen := h.inside.isOpen
  have hrun := h.run
  have hrun' := h'.run
  rcases ha : (eval g path fuel a (.fork s.source.forks.size) arg).runFrom (s.addFork c) with
    ⟨e | (vs | m), t⟩
  · rw [followedBy_of_error ha] at hrun
    cases hrun
    obtain ⟨m, ⟨⟩⟩ := hq
  · rcases hb : (eval g path fuel b (.fork s.source.forks.size) arg).runFrom t with ⟨rb, x⟩
    rw [followedBy_of_success ha hb] at hrun
    cases hrun
    -- the choice closes its own fork and goes on where the common part ended
    rcases choice_of_alike [b'] (alike_self hopen ha) hb with ⟨hno, -⟩ | ⟨-, y, hy, hbuffery, hstands⟩
    · exact absurd (missed_behind.1 hq) hno
    -- the other one evaluates the common part again, and gets to the same place
    have hreaches := (eval_keeps Pulled g path fuel b (.fork s.source.forks.size) arg t).reaches nofun
    rw [hb, ← hbuffer] at hreaches
    obtain ⟨t', ha', hbuffer', halike⟩ := eval_again hopen ha hv hreaches fun hidle =>
      hbuffer.trans (eval_idle hidle hb).buffer.1
    have hsame : same.Alike (.fork v.source.forks.size) (.fork s.source.forks.size) t'.source y.source :=
      ⟨hbuffery.trans (hbuffer.symm.trans hbuffer'.symm), hstands.position.trans halike.position.symm,
        hstands.offset.trans halike.offset.symm, trivial, nofun, nofun, halike.isOpen', hstands.isOpen⟩
    rcases hb' : (eval g path fuel b' (.fork v.source.forks.size) arg).runFrom t' with ⟨rb', z⟩
    rw [followedBy_of_success ha' hb'] at hrun'
    cases hrun'
    rcases choice_of_alike [] hsame hb' with ⟨-, w', hw', hm⟩ | ⟨hmissed, w', hw', hbufferw, hstandsw⟩
    · exact ⟨_, w', .of_run fan_moves hopen (followedBy_of_success ha (hy.trans hw')), hm.behind vs⟩
    · have hmoved := (eval_moves g path fuel b' (.fork v.source.forks.size) arg t').position nofun
      rw [hb'] at hmoved
      have hposition := hstandsw.position.trans (hsame.position.trans hmoved.symm)
      refine ⟨_, w', .of_run fan_moves hopen (followedBy_of_success ha (hy.trans hw')),
        .inr ⟨missed_behind.2 hmissed, .plain, rfl⟩, hbufferw, hposition, fun ht => ?_⟩
      obtain ⟨m, rfl⟩ := hmissed
      exact absurd ht id
  · -- the common part mismatches itself, and does so again
    rw [followedBy_of_mismatch ha] at hrun
    cases hrun
    obtain ⟨t', ha', hbuffer', halike⟩ := eval_again hopen ha hv (hbuffer ▸ .refl _) fun hidle =>
      hbuffer.trans hidle.buffer.1
    rw [followedBy_of_mismatch ha'] at hrun'
    cases hrun'
    exact ⟨_, _, .of_run fan_moves hopen (followedBy_of_mismatch ha), .inl rfl,
      hbuffer.symm.trans hbuffer'.symm, halike.position.symm, fun h => absurd h id⟩

variable (g path fuel a b b' arg) in
/-- A choice between two rules behind a common part cannot be told from the common part and a choice
behind it. -/
theorem indistinct_fan (rule rule' rule'' : Rule) (c : Cursor) (s : State) :
    Indistinct c
      ((alternative rule (pair g path fuel a b arg) c
        (alternative rule' (pair g path fuel a b' arg) c (pure .noMatch))).runFrom s)
      ((alternative rule'' (fan g path fuel a b b' arg) c (pure .noMatch)).runFrom s) := by
  cases hc : s.source.isClosed c with
  | true =>
    rw [alternative_of_closed hc, alternative_of_closed hc]
    exact ⟨rfl, rfl, rfl⟩
  | false =>
    rcases hrun : (pair g path fuel a b arg (.fork s.source.forks.size)).runFrom (s.addFork c) with
      ⟨r, u⟩
    have htries : Tries (pair g path fuel a b arg) c s r u := .of_run pair_moves hc hrun
    by_cases hr : Missed r
    · obtain ⟨v, hv, hbuffer, hstands⟩ := alternative_of_missed htries hr
      rcases hrun' : (pair g path fuel a b' arg (.fork v.source.forks.size)).runFrom (v.addFork c) with
        ⟨r', w⟩
      have htries' : Tries (pair g path fuel a b' arg) c v r' w := .of_run pair_moves hstands.isOpen hrun'
      obtain ⟨_, w', hfan, hmeets⟩ := fan_of_pairs htries hr hbuffer hstands htries'
      rw [hv]
      exact indistinct_of_meets htries' hfan (hstands.symm hc) hmeets fun _ => .pure c _
    · obtain ⟨u', hfan, hmeets⟩ := fan_of_pair b' htries hr
      exact indistinct_of_meets htries hfan (.refl hc) hmeets fun hm => absurd hm hr

end

end Evaluation

/-! ## Left factoring -/

namespace Evaluation.Approximates

/-- What is tried with less fuel approximates what is tried with more. -/
protected theorem alternative {x y : Cursor → Evaluation Outcome} {rest rest' : Evaluation Outcome}
    (h : ∀ c, Approximates (x c) (y c)) (hrest : Approximates rest rest') (rule : Rule) (c : Cursor) :
    Approximates (alternative rule x c rest) (alternative rule y c rest') :=
  (Approximates.refl _).bind fun fork => ((h fork).onFailure _).bind fun o =>
    match o with
    | .success _ => .refl _
    | .mismatch _ => (Approximates.refl _).bind fun _ => hrest

protected theorem followedBy {x x' y y' : Evaluation Outcome} (hx : Approximates x x')
    (hy : Approximates y y') : Approximates (followedBy x y) (followedBy x' y') := by
  refine hx.bind fun o => ?_
  cases o with
  | mismatch m => exact .refl _
  | success vs => exact hy.map _

end Evaluation.Approximates

open Evaluation

namespace Evaluation

variable (g : Grammar) (path : Path) (fuel : Nat) (a b b' : Rule) (c : Cursor) (arg : Value)

theorem eval_or_pairs :
    eval g path (fuel + 2) (.or [.and [a, b], .and [a, b']]) c arg =
      alternative (.and [a, b]) (pair g path fuel a b arg) c
        (alternative (.and [a, b']) (pair g path fuel a b' arg) c (pure .noMatch)) := by
  have hpair : ∀ b, (fun c => eval g path (fuel + 1) (.and [a, b]) c arg) = pair g path fuel a b arg :=
    fun b => funext fun c => sequence_pair (fun r => eval g path fuel r c arg) a b
  rw [eval, choice_cons, choice_cons, hpair, hpair, choice]

theorem eval_or_fan :
    eval g path (fuel + 2) (.or [.and [a, .or [b, b']]]) c arg =
      alternative (.and [a, .or [b, b']])
        (fun c => followedBy (eval g path fuel a c arg) (eval g path fuel (.or [b, b']) c arg)) c
        (pure .noMatch) := by
  have hpair : (fun c => eval g path (fuel + 1) (.and [a, .or [b, b']]) c arg) = fun c =>
      followedBy (eval g path fuel a c arg) (eval g path fuel (.or [b, b']) c arg) :=
    funext fun c => sequence_pair (fun r => eval g path fuel r c arg) a (.or [b, b'])
  rw [eval, choice_cons, hpair, choice]

/-- The choice behind the common part needs one more unit of fuel than the common part. -/
theorem approximates_fan :
    Approximates (eval g path (fuel + 2) (.or [.and [a, .or [b, b']]]) c arg)
      (alternative (.and [a, .or [b, b']]) (fan g path fuel a b b' arg) c (pure .noMatch)) := by
  rw [eval_or_fan]
  exact .alternative (fun c => .followedBy (.refl _)
    (eval_approximates g path fuel.le_succ (.or [b, b']) c arg)) (.refl _) _ _

theorem fan_approximates :
    Approximates (alternative (.and [a, .or [b, b']]) (fan g path fuel a b b' arg) c (pure .noMatch))
      (eval g path (fuel + 3) (.or [.and [a, .or [b, b']]]) c arg) := by
  rw [eval_or_fan]
  exact .alternative (fun c => .followedBy (eval_approximates g path fuel.le_succ a c arg) (.refl _))
    (.refl _) _ _

end Evaluation

/-- If with some more fuel the one rule cannot be told from something that the other one approximates in
turn, then what the one shows the other shows. -/
theorem Grammar.Shows.of_indistinct {g : Grammar} {path : Path} {rule rule' : Rule} {c : Cursor}
    {arg : Value} {s : State} {r : Except Failure Outcome} {position : Int} {pulled : Option Nat}
    (h : g.Shows path rule c arg s r position pulled) (more more' : Nat)
    {x y : Nat → Evaluation Outcome}
    (hx : ∀ fuel, Approximates (eval g path (fuel + more) rule c arg) (x fuel))
    (hxy : ∀ fuel, Indistinct c ((x fuel).runFrom s) ((y fuel).runFrom s))
    (hy : ∀ fuel, Approximates (y fuel) (eval g path (fuel + more') rule' c arg)) :
    g.Shows path rule' c arg s r position pulled := by
  obtain ⟨t, ⟨fuel, hrun⟩, rfl, rfl⟩ := h
  have hrun := eval_eq_of_le hrun (mapError_failed_ne_outOfFuel r) (Nat.le_add_right fuel more)
  obtain ⟨u, hrun', hposition, hbuffer⟩ := (hxy fuel).of_run ((hx fuel).runFrom_eq hrun)
  exact ⟨u, ⟨fuel + more', (hy fuel).runFrom_eq hrun'⟩, hposition, congrArg Buffer.pulled? hbuffer⟩

/-- Left factoring is sound: whether rules with a common beginning are alternatives, or follow the
common beginning as alternatives, evaluating ends in the same way, with the same values, mismatch or
failure, at the same position, and takes the same number of elements from the feed. -/
theorem Grammar.shows_left_factored_iff (g : Grammar) (path : Path) (a b b' : Rule) (c : Cursor)
    (arg : Value) (s : State) (r : Except Failure Outcome) (position : Int) (pulled : Option Nat) :
    g.Shows path (.or [.and [a, b], .and [a, b']]) c arg s r position pulled ↔
      g.Shows path (.or [.and [a, .or [b, b']]]) c arg s r position pulled := by
  have hindistinct := fun fuel => Evaluation.indistinct_fan g path fuel a b b' arg (.and [a, b])
    (.and [a, b']) (.and [a, .or [b, b']]) c s
  simp only [← Evaluation.eval_or_pairs] at hindistinct
  constructor
  · rintro ⟨t, ⟨fuel, hrun⟩, rfl, rfl⟩
    have hrun := Evaluation.eval_eq_of_le hrun (Evaluation.mapError_failed_ne_outOfFuel r)
      (Nat.le_add_right fuel 2)
    obtain ⟨u, hfan, hposition, hbuffer⟩ := (hindistinct fuel).of_run hrun
    have hrun' := (Evaluation.fan_approximates g path fuel a b b' c arg).runFrom_eq hfan
    exact ⟨u, ⟨fuel + 3, hrun'⟩, hposition, congrArg Buffer.pulled? hbuffer⟩
  · rintro ⟨t, ⟨fuel, hrun⟩, rfl, rfl⟩
    have hrun := Evaluation.eval_eq_of_le hrun (Evaluation.mapError_failed_ne_outOfFuel r)
      (Nat.le_add_right fuel 2)
    have hfan := (Evaluation.approximates_fan g path fuel a b b' c arg).runFrom_eq hrun
    obtain ⟨u, hrun', hposition, hbuffer⟩ := (hindistinct fuel).symm.of_run hfan
    exact ⟨u, ⟨fuel + 2, hrun'⟩, hposition, congrArg Buffer.pulled? hbuffer⟩

end Backtrack
