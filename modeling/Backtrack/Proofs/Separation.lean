/-
Lists with separators. Behind a first element, pairs of a separator and an element are looked for in
forks of the cursor, one pair after another. `Grammar.Continues` says how a pair is found and
`Grammar.Stops` how none is, with where the cursor stands before and afterwards: a pair takes it
along, and what only begins like one leaves it alone. So the cursor ends behind the last element.
-/
import Backtrack.Proofs.Iteration
import Backtrack.Proofs.Extent
namespace Backtrack

open Filter

/-! ## Pairs -/

section

open Evaluation

variable (g : Grammar) (path : Path) (element separator : Rule) (c : Cursor) (arg : Value)

/-- A separator and an element behind it are found from `s` on, in a fork that begins where the
cursor stands and takes it along in the end. -/
inductive Grammar.Continues (s : State) : Value × Value → State → Prop where
  | intro {x v : Value} {a b d t : State}
    (hfork : (onSource (Source.fork c)).runFrom s = (.ok (.fork s.source.forks.size), a))
    (hbegins : a.source.positionOf (.fork s.source.forks.size) = s.source.positionOf c)
    (hseparator : g.Evaluates path separator (.fork s.source.forks.size) arg a
      (.ok (.success [x])) b)
    (helement : g.Evaluates path element (.fork s.source.forks.size) arg b (.ok (.success [v])) d)
    (hjoin : (onSource (Source.join (.fork s.source.forks.size))).runFrom d = (.ok (), t))
    (hends : t.source.positionOf c = d.source.positionOf (.fork s.source.forks.size)) :
    Continues s (x, v) t

/-- From `s` on there is no separator, or no element behind the separator; the fork in which they
were looked for is closed, and the cursor stands where it stood. -/
inductive Grammar.Stops (s : State) : Mismatch → State → Prop where
  | separator {m : Mismatch} {a b t : State}
    (hfork : (onSource (Source.fork c)).runFrom s = (.ok (.fork s.source.forks.size), a))
    (hbegins : a.source.positionOf (.fork s.source.forks.size) = s.source.positionOf c)
    (hseparator : g.Evaluates path separator (.fork s.source.forks.size) arg a
      (.ok (.mismatch m)) b)
    (hclose : (onSource (Source.close (.fork s.source.forks.size))).runFrom b = (.ok (), t))
    (hstays : t.source.positionOf c = s.source.positionOf c) : Stops s m t
  | element {m : Mismatch} {x : Value} {a b d t : State}
    (hfork : (onSource (Source.fork c)).runFrom s = (.ok (.fork s.source.forks.size), a))
    (hbegins : a.source.positionOf (.fork s.source.forks.size) = s.source.positionOf c)
    (hseparator : g.Evaluates path separator (.fork s.source.forks.size) arg a
      (.ok (.success [x])) b)
    (helement : g.Evaluates path element (.fork s.source.forks.size) arg b (.ok (.mismatch m)) d)
    (hclose : (onSource (Source.close (.fork s.source.forks.size))).runFrom d = (.ok (), t))
    (hstays : t.source.positionOf c = s.source.positionOf c) : Stops s m t

/-- A separator and an element, with so much fuel each. -/
abbrev Grammar.separated (fuel : Nat) : Evaluation (Except Mismatch (Value × Value)) :=
  Evaluation.separated (fun d => eval g path fuel element d arg)
    (fun d => eval g path fuel separator d arg) c

end

namespace Evaluation

open Source (Inside)

variable {g : Grammar} {path : Path} {element separator : Rule} {c : Cursor} {arg : Value}
  {s t : State}

/-- A success of a rule with one value has just this value. -/
theorem eq_singleton_of_gives (hg : g.WellFormed) {rule : Rule} (hrule : rule.WellFormed g)
    (harity : rule.arity = 1) {fuel : Nat} {vs : List Value}
    (hrun : (eval g path fuel rule c arg).runFrom s = (.ok (.success vs), t)) : ∃ v, vs = [v] := by
  have hlength : (vs.length : Int) = rule.arity := gives_arity hg path fuel hrule c arg s _ t hrun
  exact List.length_eq_one_iff.1 (by omega)

/-- A new fork begins where the cursor stands. -/
theorem positionOf_of_onSource_fork {d : Cursor}
    (h : (onSource (Source.fork c)).runFrom s = (.ok d, t)) :
    t.source.positionOf d = s.source.positionOf c := by
  obtain ⟨rfl, hinside⟩ := Inside.of_onSource_fork_eq_ok h
  obtain ⟨-, ht⟩ := of_onSource_eq_ok h
  rw [ht, Source.runOn_fork hinside.isOpen]
  exact Source.positionOf_addFork_new s.source c

theorem positionOf_of_onSource_join {u : State} {a : Unit} (h : Inside c s.source u.source)
    (hjoin : (onSource (Source.join (.fork s.source.forks.size))).runFrom u = (.ok a, t)) :
    t.source.positionOf c = u.source.positionOf (.fork s.source.forks.size) := by
  obtain ⟨hok, ht⟩ := of_onSource_eq_ok hjoin
  rw [ht]
  exact h.join.position hok

theorem positionOf_of_onSource_close {u : State} {a : Unit} (h : Inside c s.source u.source)
    (hclose : (onSource (Source.close (.fork s.source.forks.size))).runFrom u = (.ok a, t)) :
    t.source.positionOf c = s.source.positionOf c := by
  rw [(of_onSource_eq_ok hclose).2]
  exact h.positionOf_close

theorem continues_iff (hg : g.WellFormed) (helement : element.WellFormed g)
    (hseparator : separator.WellFormed g) (harity : element.arity = 1) (harity' : separator.arity = 1)
    {pair : Value × Value} :
    (∀ᶠ fuel in atTop, EndsWith (g.separated path element separator c arg fuel) s (.ok (.ok pair)) t) ↔
      g.Continues path element separator c arg s pair t := by
  constructor
  · intro h
    obtain ⟨fuel, hrun⟩ := h.exists
    obtain ⟨fork, a, hfork, hrun⟩ := of_bind_eq_ok hrun
    have hbegins := positionOf_of_onSource_fork hfork
    obtain ⟨rfl, ha⟩ := Inside.of_onSource_fork_eq_ok hfork
    obtain ⟨o, b, hs, hrun⟩ := of_bind_eq_ok hrun
    have hb := ha.run (eval_moves g path fuel separator _ arg)
    rw [hs] at hb
    cases o with
    | mismatch m =>
      obtain ⟨_, _, -, hrun⟩ := of_bind_eq_ok hrun
      cases hrun
    | success xs =>
      obtain ⟨o, d, he, hrun⟩ := of_bind_eq_ok hrun
      have hd := hb.run (eval_moves g path fuel element _ arg)
      rw [he] at hd
      cases o with
      | mismatch m =>
        obtain ⟨_, _, -, hrun⟩ := of_bind_eq_ok hrun
        cases hrun
      | success vs =>
        obtain ⟨_, u, hjoin, hrun⟩ := of_bind_eq_ok hrun
        obtain ⟨x, rfl⟩ := eq_singleton_of_gives hg hseparator harity' hs
        obtain ⟨v, rfl⟩ := eq_singleton_of_gives hg helement harity he
        cases hrun
        exact .intro hfork hbegins ⟨fuel, hs⟩ ⟨fuel, he⟩ hjoin (positionOf_of_onSource_join hd hjoin)
  · rintro ⟨hfork, -, hs, he, hjoin, -⟩
    filter_upwards [hs.eventually, he.eventually] with fuel hs he
    rw [EndsWith, Grammar.separated, Evaluation.separated, runFrom_bind_of_ok hfork,
      runFrom_bind_of_ok hs]
    exact (runFrom_bind_of_ok he).trans (runFrom_bind_of_ok hjoin)

theorem stops_iff (hg : g.WellFormed) (hseparator : separator.WellFormed g)
    (harity' : separator.arity = 1) {m : Mismatch} :
    (∀ᶠ fuel in atTop, EndsWith (g.separated path element separator c arg fuel) s
        (.ok (.error m)) t) ↔
      g.Stops path element separator c arg s m t := by
  constructor
  · intro h
    obtain ⟨fuel, hrun⟩ := h.exists
    obtain ⟨fork, a, hfork, hrun⟩ := of_bind_eq_ok hrun
    have hbegins := positionOf_of_onSource_fork hfork
    obtain ⟨rfl, ha⟩ := Inside.of_onSource_fork_eq_ok hfork
    obtain ⟨o, b, hs, hrun⟩ := of_bind_eq_ok hrun
    have hb := ha.run (eval_moves g path fuel separator _ arg)
    rw [hs] at hb
    cases o with
    | mismatch m' =>
      obtain ⟨_, u, hclose, hrun⟩ := of_bind_eq_ok hrun
      cases hrun
      exact .separator hfork hbegins ⟨fuel, hs⟩ hclose (positionOf_of_onSource_close hb hclose)
    | success xs =>
      obtain ⟨o, d, he, hrun⟩ := of_bind_eq_ok hrun
      have hd := hb.run (eval_moves g path fuel element _ arg)
      rw [he] at hd
      cases o with
      | mismatch m' =>
        obtain ⟨x, rfl⟩ := eq_singleton_of_gives hg hseparator harity' hs
        obtain ⟨⟨⟩, u, hclose, hrun⟩ := of_bind_eq_ok hrun
        obtain ⟨hm, rfl⟩ := Prod.mk.inj hrun
        cases hm
        exact .element hfork hbegins ⟨fuel, hs⟩ ⟨fuel, he⟩ hclose
          (positionOf_of_onSource_close hd hclose)
      | success vs =>
        obtain ⟨_, u, -, hrun⟩ := of_bind_eq_ok hrun
        obtain ⟨_, _, -, hrun⟩ := of_bind_eq_ok hrun
        obtain ⟨_, _, -, hrun⟩ := of_bind_eq_ok hrun
        cases hrun
  · rintro (⟨hfork, -, hs, hclose, -⟩ | ⟨hfork, -, hs, he, hclose, -⟩)
    · filter_upwards [hs.eventually] with fuel hs
      rw [EndsWith, Grammar.separated, Evaluation.separated, runFrom_bind_of_ok hfork,
        runFrom_bind_of_ok hs]
      exact runFrom_bind_of_ok hclose
    · filter_upwards [hs.eventually, he.eventually] with fuel hs he
      rw [EndsWith, Grammar.separated, Evaluation.separated, runFrom_bind_of_ok hfork,
        runFrom_bind_of_ok hs]
      exact (runFrom_bind_of_ok he).trans (runFrom_bind_of_ok hclose)

/-- A separator and an element end in the same way with more fuel. -/
theorem eventually_separated {fuel : Nat} {r : Except Failure (Except Mismatch (Value × Value))}
    (h : EndsWith (g.separated path element separator c arg fuel) s r t) :
    ∀ᶠ fuel in atTop, EndsWith (g.separated path element separator c arg fuel) s r t := by
  filter_upwards [eventually_ge_atTop fuel] with fuel' hle
  have hmore : Approximates (g.separated path element separator c arg fuel)
      (g.separated path element separator c arg fuel') :=
    .separated (fun d => eval_approximates g path hle element d arg)
      (fun d => eval_approximates g path hle separator d arg) c
  rcases hmore s with hout | heq
  · rw [h] at hout
    exact absurd hout (mapError_failed_ne_outOfFuel r)
  · rw [EndsWith, heq]
    exact h

/-! ## Lists -/

/-- The outcome of a list of which a first element `e` and then pairs of separator and element were
found. -/
def listed (min : Int) (e : Value) (pairs : List (Value × Value)) (last : Option Mismatch) : Outcome :=
  punctuatedResult min (pairs.length + 1) last (pairs.reverse.map Prod.snd ++ [e])
    (pairs.reverse.map Prod.fst)

/-- Further pairs of separator and element are a loop. -/
theorem punctuatedRest_eq_loop (pair : Evaluation (Except Mismatch (Value × Value))) (min : Int)
    (max : Option Int) (e : Value) : ∀ (fuel : Nat) (found : List (Value × Value)),
      punctuatedRest pair min max fuel (found.length + 1) (found.map Prod.snd ++ [e])
          (found.map Prod.fst) =
        loop pair (fun n => isFull max (n + 1)) fuel found >>= fun (found, last) =>
          pure (listed min e found.reverse last) := by
  have hlisted : ∀ (found : List (Value × Value)) last, punctuatedResult min (found.length + 1) last
      (found.map Prod.snd ++ [e]) (found.map Prod.fst) = listed min e found.reverse last := by
    intro found last
    rw [listed, List.reverse_reverse, List.length_reverse]
  intro fuel
  induction fuel with
  | zero =>
    intro found
    rw [punctuatedRest, loop, hlisted]
    split
    · rfl
    · rfl
  | succ fuel ih =>
    intro found
    rw [punctuatedRest, loop]
    simp only [hlisted]
    split
    · rfl
    · rw [bind_assoc]
      refine bind_congr fun o => ?_
      cases o with
      | error m => rfl
      | ok values => exact ih (values :: found)

theorem punctuatedRest_one_eq_loop (pair : Evaluation (Except Mismatch (Value × Value))) (min : Int)
    (max : Option Int) (e : Value) (fuel : Nat) :
    punctuatedRest pair min max fuel 1 [e] [] =
      loop pair (fun n => isFull max (n + 1)) fuel [] >>= fun (found, last) =>
        pure (listed min e found.reverse last) :=
  punctuatedRest_eq_loop pair min max e fuel []

/-- What an evaluation of a list with separators comes to. -/
theorem evaluates_punctuated_iff (hg : g.WellFormed) (helement : element.WellFormed g)
    (hseparator : separator.WellFormed g) (harity : element.arity = 1) (harity' : separator.arity = 1)
    {min : Int} {max : Option Int} (hmax : ∀ most, max = some most → 1 ≤ most) {o : Outcome} :
    g.Evaluates path (.punctuated element separator min max) c arg s (.ok o) t ↔
      (∃ m, g.Evaluates path element c arg s (.ok (.mismatch m)) t ∧
        o = punctuatedResult min 0 (some m) [] []) ∨
      ∃ e a pairs u, g.Evaluates path element c arg s (.ok (.success [e])) a ∧
        Rounds (g.Continues path element separator c arg) a pairs u ∧
        ((max = some ((pairs.length : Int) + 1) ∧ t = u ∧ o = listed min e pairs none) ∨
          (∀ most, max = some most → (pairs.length : Int) + 1 < most) ∧
            ∃ m, g.Stops path element separator c arg u m t ∧ o = listed min e pairs (some m)) := by
  have hloops : ∀ {a pairs r}, Loops
      (fun s r t => ∀ᶠ fuel in atTop, EndsWith (g.separated path element separator c arg fuel) s r t)
      (fun n => isFull max (n + (1 : Nat))) 0 a pairs r t ↔ _ :=
    Loops.iff_of_isFull (by simpa using hmax)
  simp only [continues_iff hg helement hseparator harity harity', stops_iff hg hseparator harity',
    Nat.cast_one] at hloops
  constructor
  · intro h
    obtain ⟨fuel, hrun⟩ := h.exists_succ
    obtain ⟨o', a, he, hrun⟩ := of_bind_eq_ok hrun
    cases o' with
    | mismatch m =>
      cases hrun
      exact .inl ⟨m, ⟨fuel, he⟩, rfl⟩
    | success es =>
      obtain ⟨e, rfl⟩ := eq_singleton_of_gives hg helement harity he
      have hrest : EndsWith (punctuatedRest (g.separated path element separator c arg fuel) min max fuel
          1 [e] []) a (.ok o) t := hrun
      rw [punctuatedRest_one_eq_loop] at hrest
      obtain ⟨r, hloop, hr⟩ := endsWith_bind_pure_iff.1 hrest
      obtain ⟨pairs, r', hround, rfl⟩ := Loops.of_runFrom hloop
      obtain ⟨u, hrounds, hend⟩ := hloops.1 (hround.imp eventually_separated)
      refine .inr ⟨e, a, pairs, u, ⟨fuel, he⟩, hrounds, ?_⟩
      rcases hend with ⟨hfull, rfl, rfl⟩ | ⟨hopen, ⟨m, rfl, hstop⟩ | ⟨f, rfl, -⟩⟩
      · exact .inl ⟨hfull, rfl, by simpa [Except.map] using hr⟩
      · exact .inr ⟨hopen, m, hstop, by simpa [Except.map] using hr⟩
      · cases hr
  · rintro (⟨m, he, rfl⟩ | ⟨e, a, pairs, u, he, hrounds, hend⟩)
    · refine .of_eventually_succ ?_
      filter_upwards [he.eventually] with fuel he
      exact runFrom_bind_of_ok he
    · obtain ⟨last, hloop, ho⟩ : ∃ last, Loops
          (fun s r t => ∀ᶠ fuel in atTop, EndsWith (g.separated path element separator c arg fuel) s r t)
          (fun n => isFull max (n + 1)) 0 a pairs (.ok last) t ∧ o = listed min e pairs last := by
        rcases hend with ⟨hfull, rfl, ho⟩ | ⟨hopen, m, hstop, ho⟩
        · exact ⟨none, hloops.2 ⟨_, hrounds, .inl ⟨hfull, rfl, rfl⟩⟩, ho⟩
        · exact ⟨some m, hloops.2 ⟨u, hrounds, .inr ⟨hopen, .inl ⟨m, rfl, hstop⟩⟩⟩, ho⟩
      refine .of_eventually_succ ?_
      filter_upwards [he.eventually, hloop.eventually, eventually_gt_atTop pairs.length] with fuel he
        hloop hfuel
      have hrest : EndsWith (punctuatedRest (g.separated path element separator c arg fuel) min max fuel
          1 [e] []) a (.ok o) t := by
        rw [punctuatedRest_one_eq_loop]
        refine endsWith_bind_pure_iff.2 ⟨_, hloop.runFrom_loop List.length_nil hfuel, ?_⟩
        simp [Except.map, ho]
      exact (runFrom_bind_of_ok he).trans hrest

/-- Where there is nothing more, the cursor stands where it stood. -/
theorem positionOf_of_stops {m : Mismatch} (h : g.Stops path element separator c arg s m t) :
    t.source.positionOf c = s.source.positionOf c := by
  cases h with
  | separator _ _ _ _ hstays => exact hstays
  | element _ _ _ _ _ hstays => exact hstays

theorem punctuatedResult_eq_success_iff {min count : Int} {last : Option Mismatch}
    {elements separators vs : List Value} :
    punctuatedResult min count last elements separators = .success vs ↔
      min ≤ count ∧ vs = [.list elements.reverse, .list separators.reverse] := by
  rw [punctuatedResult]
  split
  · exact ⟨by rintro ⟨⟩, by rintro ⟨hle, -⟩; omega⟩
  · exact ⟨by rintro ⟨⟩; exact ⟨by omega, rfl⟩, by rintro ⟨-, rfl⟩; rfl⟩

theorem punctuatedResult_eq_mismatch_iff {min count : Int} {last : Option Mismatch}
    {elements separators : List Value} {m : Mismatch} :
    punctuatedResult min count last elements separators = .mismatch m ↔
      count < min ∧ m = last.getD .plain := by
  rw [punctuatedResult]
  split
  · exact ⟨by rintro ⟨⟩; exact ⟨‹_›, rfl⟩, by rintro ⟨-, rfl⟩; rfl⟩
  · exact ⟨by rintro ⟨⟩, by rintro ⟨hlt, -⟩; omega⟩

theorem listed_eq_success_iff {min : Int} {e : Value} {pairs : List (Value × Value)}
    {last : Option Mismatch} {vs : List Value} : listed min e pairs last = .success vs ↔
      min ≤ pairs.length + 1 ∧ vs = [.list (e :: pairs.map Prod.snd), .list (pairs.map Prod.fst)] := by
  rw [listed, punctuatedResult_eq_success_iff]
  simp [List.map_reverse]

/-- Of a list with separators that was made: the rule, and what was checked. -/
theorem of_makePunctuated {element separator rule : Rule} {min : Int} {max : Option Int}
    (h : Rule.makePunctuated (.rule element) (.rule separator) min max = .ok rule) :
    rule = .punctuated element separator min max ∧ element.arity = 1 ∧ separator.arity = 1 ∧
      0 ≤ min ∧ ∀ most, max = some most → min ≤ most ∧ 1 ≤ most := by
  obtain ⟨e, he, h⟩ := Except.of_bind_eq_ok h
  obtain ⟨s, hs, h⟩ := Except.of_bind_eq_ok h
  obtain ⟨u, hu, h⟩ := Except.of_bind_eq_ok h
  obtain ⟨u', hu', h⟩ := Except.of_bind_eq_ok h
  obtain ⟨u'', hbounds, h⟩ := Except.of_bind_eq_ok h
  cases he
  cases hs
  obtain ⟨hmin, hmax⟩ := of_checkBounds hbounds
  have harities := And.intro (Rule.arity_of_requireSingle hu) (Rule.arity_of_requireSingle hu')
  cases max with
  | none =>
    cases h
    exact ⟨rfl, harities.1, harities.2, hmin, by simp⟩
  | some most =>
    by_cases hmost : most < 1
    · simp only [hmost, if_true] at h
      cases h
    · simp only [hmost, if_false] at h
      cases h
      refine ⟨rfl, harities.1, harities.2, hmin, ?_⟩
      rintro _ ⟨rfl⟩
      exact ⟨hmax most rfl, by omega⟩

section

variable {min : Int} {max : Option Int}

/-- A list with separators succeeds with what was found, if that is enough; behind a first element the
cursor stands behind the last one. -/
theorem evaluates_punctuated_success_iff (hg : g.WellFormed) (helement : element.WellFormed g)
    (hseparator : separator.WellFormed g) (harity : element.arity = 1) (harity' : separator.arity = 1)
    (hmin : 0 ≤ min) (hmax : ∀ most, max = some most → 1 ≤ most) {vs : List Value} :
    g.Evaluates path (.punctuated element separator min max) c arg s (.ok (.success vs)) t ↔
      (min = 0 ∧ vs = [.list [], .list []] ∧
        ∃ m, g.Evaluates path element c arg s (.ok (.mismatch m)) t) ∨
      ∃ e a pairs u, vs = [.list (e :: pairs.map Prod.snd), .list (pairs.map Prod.fst)] ∧
        g.Evaluates path element c arg s (.ok (.success [e])) a ∧
        Rounds (g.Continues path element separator c arg) a pairs u ∧
        min ≤ pairs.length + 1 ∧ t.source.positionOf c = u.source.positionOf c ∧
        ((max = some ((pairs.length : Int) + 1) ∧ t = u) ∨
          (∀ most, max = some most → (pairs.length : Int) + 1 < most) ∧
            ∃ m, g.Stops path element separator c arg u m t) := by
  rw [evaluates_punctuated_iff hg helement hseparator harity harity' hmax]
  constructor
  · rintro (⟨m, he, ho⟩ | ⟨e, a, pairs, u, he, hrounds, ⟨hfull, rfl, ho⟩ | ⟨hopen, m, hstop, ho⟩⟩)
    · obtain ⟨hle, rfl⟩ := punctuatedResult_eq_success_iff.1 ho.symm
      exact .inl ⟨by omega, rfl, m, he⟩
    · obtain ⟨hle, rfl⟩ := listed_eq_success_iff.1 ho.symm
      exact .inr ⟨e, a, pairs, _, rfl, he, hrounds, hle, rfl, .inl ⟨hfull, rfl⟩⟩
    · obtain ⟨hle, rfl⟩ := listed_eq_success_iff.1 ho.symm
      exact .inr ⟨e, a, pairs, u, rfl, he, hrounds, hle, positionOf_of_stops hstop, .inr ⟨hopen, m, hstop⟩⟩
  · rintro (⟨rfl, rfl, m, he⟩ | ⟨e, a, pairs, u, rfl, he, hrounds, hle, -, hend⟩)
    · exact .inl ⟨m, he, Eq.symm (punctuatedResult_eq_success_iff.2 ⟨by omega, rfl⟩)⟩
    · refine .inr ⟨e, a, pairs, u, he, hrounds, ?_⟩
      rcases hend with ⟨hfull, rfl⟩ | ⟨hopen, m, hstop⟩
      · exact .inl ⟨hfull, rfl, (listed_eq_success_iff.2 ⟨hle, rfl⟩).symm⟩
      · exact .inr ⟨hopen, m, hstop, (listed_eq_success_iff.2 ⟨hle, rfl⟩).symm⟩

/-- A list with separators mismatches as the attempt does that ended it too early. -/
theorem evaluates_punctuated_mismatch_iff (hg : g.WellFormed) (helement : element.WellFormed g)
    (hseparator : separator.WellFormed g) (harity : element.arity = 1) (harity' : separator.arity = 1)
    (hmax : ∀ most, max = some most → min ≤ most ∧ 1 ≤ most) {m : Mismatch} :
    g.Evaluates path (.punctuated element separator min max) c arg s (.ok (.mismatch m)) t ↔
      (0 < min ∧ g.Evaluates path element c arg s (.ok (.mismatch m)) t) ∨
      ∃ e a pairs u, g.Evaluates path element c arg s (.ok (.success [e])) a ∧
        Rounds (g.Continues path element separator c arg) a pairs u ∧
        (pairs.length : Int) + 1 < min ∧ g.Stops path element separator c arg u m t := by
  rw [evaluates_punctuated_iff hg helement hseparator harity harity' fun most h => (hmax most h).2]
  constructor
  · rintro (⟨m', he, ho⟩ | ⟨e, a, pairs, u, he, hrounds, ⟨hfull, -, ho⟩ | ⟨hopen, m', hstop, ho⟩⟩)
    · obtain ⟨hlt, rfl⟩ := punctuatedResult_eq_mismatch_iff.1 ho.symm
      exact .inl ⟨hlt, he⟩
    · -- the upper bound is not below the lower one
      obtain ⟨hlt, -⟩ := punctuatedResult_eq_mismatch_iff.1 ho.symm
      exact absurd (hmax _ hfull).1 (by omega)
    · obtain ⟨hlt, rfl⟩ := punctuatedResult_eq_mismatch_iff.1 ho.symm
      exact .inr ⟨e, a, pairs, u, he, hrounds, hlt, hstop⟩
  · rintro (⟨hlt, he⟩ | ⟨e, a, pairs, u, he, hrounds, hlt, hstop⟩)
    · exact .inl ⟨m, he, Eq.symm (punctuatedResult_eq_mismatch_iff.2 ⟨hlt, rfl⟩)⟩
    · exact .inr ⟨e, a, pairs, u, he, hrounds, .inr ⟨fun most h => lt_of_lt_of_le hlt (hmax most h).1,
        m, hstop, Eq.symm (punctuatedResult_eq_mismatch_iff.2 ⟨hlt, rfl⟩)⟩⟩

end

/-- A list with separators is an element and then greedily pairs of separator and element, up to its
upper bound. It succeeds with what was found if that is enough, where it has come to the bound or
where a separator or the element behind it mismatches, and the cursor stands behind the last element
that was found. It mismatches as the attempt does that ended it too early; where already the first
element mismatches, the cursor is left where that got to. -/
theorem punctuated_iff_rounds {g : Grammar} (hg : g.Accepted) {element separator rule : Rule}
    (helement : element.Accepted g) (hseparator : separator.Accepted g) {min : Int}
    {max : Option Int}
    (hmake : Rule.makePunctuated (.rule element) (.rule separator) min max = .ok rule) (path : Path)
    (c : Cursor) (arg : Value) (s t : State) :
    (∀ vs, g.Evaluates path rule c arg s (.ok (.success vs)) t ↔
      (min = 0 ∧ vs = [.list [], .list []] ∧
        ∃ m, g.Evaluates path element c arg s (.ok (.mismatch m)) t) ∨
      ∃ e a pairs u, vs = [.list (e :: pairs.map Prod.snd), .list (pairs.map Prod.fst)] ∧
        g.Evaluates path element c arg s (.ok (.success [e])) a ∧
        Rounds (g.Continues path element separator c arg) a pairs u ∧
        min ≤ pairs.length + 1 ∧ t.source.positionOf c = u.source.positionOf c ∧
        ((max = some ((pairs.length : Int) + 1) ∧ t = u) ∨
          (∀ most, max = some most → (pairs.length : Int) + 1 < most) ∧
            ∃ m, g.Stops path element separator c arg u m t)) ∧
    (∀ m, g.Evaluates path rule c arg s (.ok (.mismatch m)) t ↔
      (0 < min ∧ g.Evaluates path element c arg s (.ok (.mismatch m)) t) ∨
      ∃ e a pairs u, g.Evaluates path element c arg s (.ok (.success [e])) a ∧
        Rounds (g.Continues path element separator c arg) a pairs u ∧
        (pairs.length : Int) + 1 < min ∧ g.Stops path element separator c arg u m t) ∧
    ∀ vs, g.Evaluates path rule c arg s (.ok (.success vs)) t →
      ∃ elements separators, vs = [.list elements, .list separators] ∧
        (elements = [] ∧ separators = [] ∨ separators.length + 1 = elements.length) ∧
        min ≤ elements.length ∧ ∀ most, max = some most → (elements.length : Int) ≤ most := by
  obtain ⟨rfl, harity, harity', hmin, hmax⟩ := of_makePunctuated hmake
  have hroom : ∀ most, max = some most → 1 ≤ most := fun most h => (hmax most h).2
  have hsuccess : ∀ vs, g.Evaluates path (.punctuated element separator min max) c arg s
      (.ok (.success vs)) t ↔ _ := fun vs =>
    evaluates_punctuated_success_iff hg.wellFormed helement.wellFormed hseparator.wellFormed harity
      harity' hmin hroom
  refine ⟨hsuccess, fun m => evaluates_punctuated_mismatch_iff hg.wellFormed helement.wellFormed
    hseparator.wellFormed harity harity' hmax, fun vs h => ?_⟩
  rcases (hsuccess vs).1 h with ⟨hmin', rfl, -⟩ | ⟨e, a, pairs, u, rfl, -, -, hle, -, hend⟩
  · exact ⟨[], [], rfl, .inl ⟨rfl, rfl⟩, hmin'.le, fun most h => le_trans zero_le_one (hroom most h)⟩
  · refine ⟨e :: pairs.map Prod.snd, pairs.map Prod.fst, rfl, .inr (by simp), by simpa using hle,
      fun most hmost => ?_⟩
    simp only [List.length_cons, List.length_map, Nat.cast_add, Nat.cast_one]
    rcases hend with ⟨hfull, -⟩ | ⟨hopen, -⟩
    · rw [hfull] at hmost
      exact (Option.some.inj hmost).le
    · exact (hopen most hmost).le

/-- A comma. -/
def comma : Rule := .item (.one (.str [44]))

/-- Two dots with a comma between them; the comma behind them is left alone. -/
theorem punctuated_iff_rounds_dots :
    dots.Accepted ∧ dot.Accepted dots ∧ comma.Accepted dots ∧
    Rule.makePunctuated (.rule dot) (.rule comma) 1 none = .ok (.punctuated dot comma 1 none) ∧
    ∃ t, dots.Evaluates .blocking (.punctuated dot comma 1 none) .root .none
        (.ofSource (.ofData (.str [46, 44, 46, 44])))
        (.ok (.success [.list [.str [46], .str [46]], .list [.str [44]]])) t ∧
      ∃ a u, dots.Evaluates .blocking dot .root .none (.ofSource (.ofData (.str [46, 44, 46, 44])))
          (.ok (.success [.str [46]])) a ∧
        Rounds (dots.Continues .blocking dot comma .root .none) a [(.str [44], .str [46])] u ∧
        t.source.positionOf .root = u.source.positionOf .root ∧
        ∃ m, dots.Stops .blocking dot comma .root .none u m t := by
  have hdot : dot.Accepted dots := .item _
  have hcomma : comma.Accepted dots := .item _
  have hmake : Rule.makePunctuated (.rule dot) (.rule comma) 1 none =
      .ok (.punctuated dot comma 1 none) := rfl
  have hrun : ((eval dots .blocking 4 (.punctuated dot comma 1 none) .root .none).runFrom
      (.ofSource (.ofData (.str [46, 44, 46, 44])))).1 =
      .ok (.success [.list [.str [46], .str [46]], .list [.str [44]]]) := by cbv
  obtain ⟨t, ht⟩ : ∃ t, dots.Evaluates .blocking (.punctuated dot comma 1 none) .root .none
      (.ofSource (.ofData (.str [46, 44, 46, 44])))
      (.ok (.success [.list [.str [46], .str [46]], .list [.str [44]]])) t :=
    Grammar.Evaluates.exists_of_fst hrun
  refine ⟨accepted_dots, hdot, hcomma, hmake, t, ht, ?_⟩
  rcases ((punctuated_iff_rounds accepted_dots hdot hcomma hmake .blocking .root .none _ t).1 _).1 ht
    with ⟨h, -⟩ | ⟨e, a, pairs, u, hvs, he, hrounds, -, hposition, hend⟩
  · cases h
  · -- the one pair is known from what was listed
    obtain ⟨hels, hseps⟩ : [Value.str [46], .str [46]] = e :: pairs.map Prod.snd ∧
        [Value.str [44]] = pairs.map Prod.fst := by
      simpa using hvs
    obtain ⟨rfl, hsnd⟩ := List.cons.inj hels
    obtain ⟨⟨x, v⟩, rfl⟩ := List.length_eq_one_iff.1 (show pairs.length = 1 by
      simpa using congrArg List.length hseps.symm)
    cases hseps
    cases hsnd
    rcases hend with ⟨h, -⟩ | ⟨-, hstop⟩
    · cases h
    · exact ⟨a, u, he, hrounds, hposition, hstop⟩

end Evaluation
end Backtrack
