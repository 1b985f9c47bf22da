/-
How rules are nested is of no account. A sequence inside a sequence may be spelled out, and a choice
inside a choice; so may what `append` and `orElse` build, from whichever side. For sequences this is
the associativity of going on (`followedBy`). For choices the nested form works two forks deep: what
an inner alternative takes along passes through two joins, and what it leaves is dropped with both
forks, while the spelled-out form makes a new fork of the cursor each time. Alternative by alternative
the inner fork stands where the cursor stands (`firstOf_of_fork`).
-/
import Backtrack.Proofs.Factoring
import Backtrack.Proofs.WellFormed
namespace Backtrack

open Source (Stands Level)

/-! ## Rules that may stand for each other -/

open Evaluation

/-- Either rule may stand for the other: from every cursor and state, and under every argument, the two
end in the same way, leave the cursor at the same position and take the same number of elements of the
feed, or neither ends. -/
def Grammar.Interchangeable (g : Grammar) (path : Path) (rule rule' : Rule) : Prop :=
  ∀ (c : Cursor) (arg : Value) (s : State) (r : Except Failure Outcome) (position : Int)
    (pulled : Option Nat),
    g.Shows path rule c arg s r position pulled ↔ g.Shows path rule' c arg s r position pulled

namespace Grammar.Interchangeable

variable {g : Grammar} {path : Path} {a b d : Rule}

theorem refl (g : Grammar) (path : Path) (a : Rule) : g.Interchangeable path a a :=
  fun _ _ _ _ _ _ => Iff.rfl

theorem symm (h : g.Interchangeable path a b) : g.Interchangeable path b a :=
  fun c arg s r position pulled => (h c arg s r position pulled).symm

theorem trans (h : g.Interchangeable path a b) (h' : g.Interchangeable path b d) :
    g.Interchangeable path a d :=
  fun c arg s r position pulled => (h c arg s r position pulled).trans (h' c arg s r position pulled)

end Grammar.Interchangeable

/-! ## Sequences -/

namespace Outcome

theorem behind_nil (o : Outcome) : o.behind [] = o := by cases o <;> rfl

theorem behind_behind (vs ws : List Value) (o : Outcome) :
    (o.behind ws).behind vs = o.behind (vs ++ ws) := by
  cases o with
  | success us => exact congrArg success (List.append_assoc vs ws us).symm
  | mismatch m => rfl

end Outcome

namespace Evaluation

theorem behind_nil_map (x : Evaluation Outcome) : Outcome.behind [] <$> x = x := by
  have : Outcome.behind [] = id := funext Outcome.behind_nil
  rw [this, id_map]

/-- The values that are there already are put before those of the rules. -/
theorem sequence_values (run : Rule → Evaluation Outcome) (rules : List Rule) (values : List Value) :
    sequence run values rules = Outcome.behind values <$> sequence run [] rules := by
  induction rules generalizing values with
  | nil => simp [sequence, Outcome.behind]
  | cons r rules ih =>
    simp only [sequence, map_bind]
    refine congrArg (run r >>= ·) (funext fun o => ?_)
    cases o with
    | mismatch m => simp [Outcome.behind]
    | success vs =>
      simp only [List.nil_append]
      rw [ih (values ++ vs), ih vs, ← comp_map]
      exact congrArg (· <$> sequence run [] rules)
        (funext fun o => (Outcome.behind_behind values vs o).symm)

theorem sequence_cons (run : Rule → Evaluation Outcome) (r : Rule) (rules : List Rule) :
    sequence run [] (r :: rules) = followedBy (run r) (sequence run [] rules) := by
  rw [sequence, followedBy]
  refine congrArg (run r >>= ·) (funext fun o => ?_)
  cases o with
  | mismatch m => rfl
  | success vs => exact sequence_values run rules vs

/-- To go on is associative. -/
theorem followedBy_assoc (x y z : Evaluation Outcome) :
    followedBy (followedBy x y) z = followedBy x (followedBy y z) := by
  rw [followedBy, followedBy, followedBy, bind_assoc]
  refine congrArg (x >>= ·) (funext fun o => ?_)
  cases o with
  | mismatch m => simp
  | success vs =>
    simp only [followedBy, map_bind, bind_map_left]
    refine congrArg (y >>= ·) (funext fun o => ?_)
    cases o with
    | mismatch m => simp [Outcome.behind]
    | success ws =>
      simp only [Outcome.behind, ← comp_map]
      exact congrArg (· <$> z) (funext fun o => (Outcome.behind_behind vs ws o).symm)

theorem sequence_append (run : Rule → Evaluation Outcome) (xs ys : List Rule) :
    sequence run [] (xs ++ ys) = followedBy (sequence run [] xs) (sequence run [] ys) := by
  induction xs with
  | nil => simp [sequence, followedBy, behind_nil_map]
  | cons x xs ih => rw [List.cons_append, sequence_cons, ih, sequence_cons, followedBy_assoc]

/-! ## Choices -/

/-- The first of several rules that matches, `rest` being what is done if none does. -/
def firstOf (run : Cursor → Rule → Evaluation Outcome) (c : Cursor) (rules : List Rule)
    (rest : Evaluation Outcome) : Evaluation Outcome :=
  rules.foldr (fun r rest => alternative r (fun c => run c r) c rest) rest

theorem choice_append (run : Cursor → Rule → Evaluation Outcome) (c : Cursor) (xs ys : List Rule) :
    choice run c (xs ++ ys) = firstOf run c xs (choice run c ys) := by
  induction xs with
  | nil => rfl
  | cons x xs ih =>
    rw [List.cons_append, choice_cons, ih]
    rfl

/-- A choice made of any rules at all is refused at a closed cursor. -/
theorem choice_of_closed {run : Cursor → Rule → Evaluation Outcome} {c : Cursor} {rules : List Rule}
    (hne : rules ≠ []) {s : State} (hc : s.source.isClosed c = true) :
    (choice run c rules).runFrom s = (.error (.failed Source.forkClosed),
      ⟨{ s.source with events := [] }, s.journal.addEvents s.source.events⟩) := by
  cases rules with
  | nil => exact absurd rfl hne
  | cons r rules =>
    rw [choice_cons]
    exact alternative_of_closed hc

protected theorem Approximates.firstOf {run run' : Cursor → Rule → Evaluation Outcome}
    {rest rest' : Evaluation Outcome} (h : ∀ c r, Approximates (run c r) (run' c r))
    (hrest : Approximates rest rest') (c : Cursor) (rules : List Rule) :
    Approximates (firstOf run c rules rest) (firstOf run' c rules rest') := by
  induction rules with
  | nil => exact hrest
  | cons r rules ih => exact .alternative (fun c => h c r) ih r c

section

open Tandem (same)

variable {g : Grammar} {path : Path} {fuel : Nat} {arg : Value} {c d : Cursor}
  {rest rest' : Evaluation Outcome} {r : Except Halt Outcome} {s s' t w : State}

/-- New forks of cursors that are level are alike. -/
theorem alike_of_level (h : Level c d s.source s'.source) :
    same.Alike (.fork s.source.forks.size) (.fork s'.source.forks.size) (s.addFork c).source
      (s'.addFork d).source :=
  (Tandem.Alike.of_place h.buffer h.position h.offset trivial).withEvents [] []

/-- A new fork of the cursor is alike to a fork that the cursor is level with. -/
theorem alike_addFork_of_level (h : Level c d s.source s'.source) (hd : d ≠ .root) :
    same.Alike (.fork s.source.forks.size) d (s.addFork c).source s'.source := by
  refine ⟨h.buffer, h.position, ?_, trivial, nofun, hd, ?_, h.isOpen'⟩
  · exact h.offset.trans (Source.offset_addFork_new s.source c).symm
  · exact congrArg Fork.closed (Source.forkAt_addFork_new s.source c)

/-- The same alternative at a cursor that is level, and then what cannot be told apart. -/
protected theorem Levels.alternative (h : Levels c rest rest') (rule : Rule) :
    Levels c (alternative rule (fun c => eval g path fuel rule c arg) c rest)
      (alternative rule (fun c => eval g path fuel rule c arg) c rest') := by
  intro s s' hlevel
  have hmoves := fun c => eval_moves g path fuel rule c arg
  rcases hrun : (eval g path fuel rule (.fork s.source.forks.size) arg).runFrom (s.addFork c) with
    ⟨r, u⟩
  rcases Tandem.eval same (alike_of_level hlevel) hrun with ⟨⟨⟩, -⟩ | ⟨u', hrun', hu⟩
  exact indistinct_of_meets (.of_run hmoves hlevel.isOpen hrun) (.of_run hmoves hlevel.isOpen' hrun')
    hlevel.stands ⟨.inl rfl, hu.buffer, hu.position, fun _ => hu.offset⟩ fun _ => h

protected theorem Levels.firstOf (h : Levels c rest rest') (rules : List Rule) :
    Levels c (firstOf (fun c r => eval g path fuel r c arg) c rules rest)
      (firstOf (fun c r => eval g path fuel r c arg) c rules rest') := by
  induction rules with
  | nil => exact h
  | cons r rules ih => exact ih.alternative r

protected theorem Levels.choice (c : Cursor) (rules : List Rule) :
    Levels c (choice (fun c r => eval g path fuel r c arg) c rules)
      (choice (fun c r => eval g path fuel r c arg) c rules) := by
  have hchoice := choice_append (fun c r => eval g path fuel r c arg) c rules []
  rw [List.append_nil] at hchoice
  rw [hchoice]
  exact (Levels.pure c .noMatch).firstOf rules

/-- Several alternatives at a cursor, and a choice between the same rules at a fork that stands there.
If the choice mismatches, so do the alternatives, and nothing has moved. If not, one of the alternatives
comes to the same. -/
theorem firstOf_of_fork {id : Nat} (rest : Evaluation Outcome) : ∀ (rules : List Rule) {s t : State},
    Level c (.fork id) s.source t.source →
    (choice (fun c r => eval g path fuel r c arg) (.fork id) rules).runFrom t = (r, w) →
    (Missed r ∧ Stands (.fork id) t.source w.source ∧
      ∃ v, (firstOf (fun c r => eval g path fuel r c arg) c rules rest).runFrom s = rest.runFrom v ∧
        v.source.buffer = w.source.buffer ∧ Stands c s.source v.source) ∨
    ¬ Missed r ∧ ∃ rule v u rest', Stands c s.source v.source ∧
      Tries (fun c => eval g path fuel rule c arg) c v r u ∧
      (firstOf (fun c r => eval g path fuel r c arg) c rules rest).runFrom s =
        (alternative rule (fun c => eval g path fuel rule c arg) c rest').runFrom v ∧
      Meets (.fork v.source.forks.size) (.fork id) r r u.source w.source
  | [], s, t, h, hrun => by
    cases hrun
    exact .inl ⟨⟨_, rfl⟩, .refl h.isOpen', s, rfl, h.buffer.symm, .refl h.isOpen⟩
  | rule :: rules, s, t, h, hrun => by
    have hmoves := fun c => eval_moves g path fuel rule c arg
    rcases hfirst : (eval g path fuel rule (.fork s.source.forks.size) arg).runFrom (s.addFork c) with
      ⟨q, u⟩
    have htries : Tries (fun c => eval g path fuel rule c arg) c s q u := .of_run hmoves h.isOpen hfirst
    rcases choice_of_alike rules (alike_addFork_of_level h nofun) hfirst with
      ⟨hnot, v, hchoice, hmeets⟩ | ⟨hmissed, v, hchoice, hbuffer, hstands⟩
    · rw [hchoice] at hrun
      cases hrun
      exact .inr ⟨hnot, rule, s, u, _, .refl h.isOpen, htries, rfl, hmeets⟩
    · -- both go on with the other rules, from where they stood before
      rw [hchoice] at hrun
      obtain ⟨v', hrest, hbuffer', hstands'⟩ := alternative_of_missed htries hmissed
      have hlevel : Level c (.fork id) v'.source v.source :=
        hstands'.level hstands h.position h.offset (hbuffer.trans hbuffer'.symm)
      have hfirstOf : (firstOf (fun c r => eval g path fuel r c arg) c (rule :: rules) rest).runFrom s =
          (firstOf (fun c r => eval g path fuel r c arg) c rules rest).runFrom v' := hrest
      rw [hfirstOf]
      rcases firstOf_of_fork rest rules hlevel hrun with ⟨hr, hw, x, hx, hbuffer'', hstands''⟩ |
        ⟨hr, rule', x, u', rest', hx, htries', hrun', hmeets⟩
      · exact .inl ⟨hr, hstands.trans hw, x, hx, hbuffer'', hstands'.trans hstands''⟩
      · exact .inr ⟨hr, rule', x, u', rest', hstands'.trans hx, htries', hrun', hmeets⟩

/-- A choice may be made within an alternative of its own. -/
protected theorem Levels.nested (h : Levels c rest rest') (rule : Rule) (rules : List Rule) :
    Levels c (firstOf (fun c r => eval g path fuel r c arg) c rules rest)
      (alternative rule (fun d => choice (fun c r => eval g path fuel r c arg) d rules) c rest') := by
  intro s s' hlevel
  have hmoves : ∀ d, Moves d (choice (fun c r => eval g path fuel r c arg) d rules) :=
    fun d => Keeps.choice (fun c r => eval_moves g path fuel r c arg) rules
  rcases hrun : (choice (fun c r => eval g path fuel r c arg) (.fork s'.source.forks.size) rules).runFrom
    (s'.addFork c) with ⟨r, w⟩
  have htries := Tries.of_run hmoves hlevel.isOpen' hrun
  have hfork : Level c (.fork s'.source.forks.size) s.source (s'.addFork c).source :=
    ⟨hlevel.buffer, hlevel.position, (Source.offset_addFork_new s'.source c).trans hlevel.offset,
      hlevel.isOpen, congrArg Fork.closed (Source.forkAt_addFork_new s'.source c)⟩
  rcases firstOf_of_fork rest rules hfork hrun with ⟨hmissed, -, v, hv, hbuffer, hstands⟩ |
    ⟨hnot, first, v, u, others, hstands, htries', hv, hmeets⟩
  · obtain ⟨v', hv', hbuffer', hstands'⟩ := alternative_of_missed htries hmissed
    rw [hv, hv']
    exact h v v' (hstands.level hstands' hlevel.position hlevel.offset (hbuffer'.trans hbuffer.symm))
  · rw [hv]
    have hback : Stands c v.source s'.source := (hstands.symm hlevel.isOpen).trans hlevel.stands
    exact indistinct_of_meets htries' htries hback hmeets fun hm => absurd hm hnot

end

/-! ## Nested rules, spelled out -/

variable (g : Grammar) (path : Path) (fuel : Nat) (xs ys zs : List Rule) (c : Cursor) (arg : Value)

theorem eval_and_append :
    eval g path (fuel + 1) (.and (xs ++ ys ++ zs)) c arg =
      followedBy (sequence (fun r => eval g path fuel r c arg) [] xs)
        (followedBy (sequence (fun r => eval g path fuel r c arg) [] ys)
          (sequence (fun r => eval g path fuel r c arg) [] zs)) := by
  rw [eval, sequence_append, sequence_append, followedBy_assoc]

theorem eval_and_nested :
    eval g path (fuel + 2) (.and (xs ++ .and ys :: zs)) c arg =
      followedBy (sequence (fun r => eval g path (fuel + 1) r c arg) [] xs)
        (followedBy (sequence (fun r => eval g path fuel r c arg) [] ys)
          (sequence (fun r => eval g path (fuel + 1) r c arg) [] zs)) := by
  rw [eval, sequence_append, sequence_cons]
  rfl

/-- The sequence spelled out needs as much fuel as the parts, and the nested one more for the inner
sequence. -/
theorem approximates_and_nested :
    Approximates (eval g path (fuel + 1) (.and (xs ++ ys ++ zs)) c arg)
      (eval g path (fuel + 2) (.and (xs ++ .and ys :: zs)) c arg) := by
  rw [eval_and_append, eval_and_nested]
  have hmore : ∀ r, Approximates (eval g path fuel r c arg) (eval g path (fuel + 1) r c arg) :=
    fun r => eval_approximates g path fuel.le_succ r c arg
  exact .followedBy (.sequence hmore xs []) (.followedBy (.refl _) (.sequence hmore zs []))

theorem and_nested_approximates :
    Approximates (eval g path (fuel + 2) (.and (xs ++ .and ys :: zs)) c arg)
      (eval g path (fuel + 2) (.and (xs ++ ys ++ zs)) c arg) := by
  rw [eval_and_append, eval_and_nested]
  exact .followedBy (.refl _) (.followedBy (.sequence
    (fun r => eval_approximates g path fuel.le_succ r c arg) ys []) (.refl _))

/-- The nested choice, all rules having the same fuel. -/
def choiceAround : Evaluation Outcome :=
  firstOf (fun c r => eval g path fuel r c arg) c xs
    (alternative (.or ys) (fun d => choice (fun c r => eval g path fuel r c arg) d ys) c
      (choice (fun c r => eval g path fuel r c arg) c zs))

theorem eval_or_nested :
    eval g path (fuel + 1) (.or (xs ++ .or ys :: zs)) c arg =
      firstOf (fun c r => eval g path fuel r c arg) c xs
        (alternative (.or ys) (fun d => eval g path fuel (.or ys) d arg) c
          (choice (fun c r => eval g path fuel r c arg) c zs)) := by
  rw [eval, choice_append, choice_cons]

theorem approximates_or_nested :
    Approximates (choiceAround g path fuel xs ys zs c arg)
      (eval g path (fuel + 2) (.or (xs ++ .or ys :: zs)) c arg) := by
  rw [eval_or_nested]
  have hmore : ∀ c r, Approximates (eval g path fuel r c arg) (eval g path (fuel + 1) r c arg) :=
    fun c r => eval_approximates g path fuel.le_succ r c arg
  exact .firstOf hmore (.alternative (fun d => .refl _) (.choice hmore c zs) _ _) c xs

theorem or_nested_approximates :
    Approximates (eval g path (fuel + 2) (.or (xs ++ .or ys :: zs)) c arg)
      (choiceAround g path (fuel + 1) xs ys zs c arg) := by
  rw [eval_or_nested]
  have hmore : ∀ c r, Approximates (eval g path fuel r c arg) (eval g path (fuel + 1) r c arg) :=
    fun c r => eval_approximates g path fuel.le_succ r c arg
  exact .firstOf (fun _ _ => .refl _)
    (.alternative (fun d => .choice hmore d ys) (.refl _) _ _) c xs

/-- The choice spelled out cannot be told from the nested one, unless both are empty. -/
theorem indistinct_choiceAround (hne : xs ++ ys ++ zs ≠ []) (s : State) :
    Indistinct c ((eval g path (fuel + 1) (.or (xs ++ ys ++ zs)) c arg).runFrom s)
      ((choiceAround g path fuel xs ys zs c arg).runFrom s) := by
  rw [eval]
  cases hc : s.source.isClosed c with
  | true =>
    have haround : (choiceAround g path fuel xs ys zs c arg).runFrom s =
        (.error (.failed Source.forkClosed),
          ⟨{ s.source with events := [] }, s.journal.addEvents s.source.events⟩) := by
      cases xs <;> exact alternative_of_closed hc
    rw [haround, choice_of_closed hne hc]
    exact ⟨rfl, rfl, rfl⟩
  | false =>
    rw [List.append_assoc, choice_append, choice_append]
    exact ((Levels.choice c zs).nested (.or ys) ys).firstOf xs s s (.refl hc)

end Evaluation

/-! ## Nesting -/

namespace Grammar

variable (g : Grammar) (path : Path) (xs ys zs : List Rule)

theorem interchangeable_and_nested :
    g.Interchangeable path (.and (xs ++ .and ys :: zs)) (.and (xs ++ ys ++ zs)) := by
  intro c arg s r position pulled
  constructor
  · intro h
    exact h.of_indistinct 2 2 (fun fuel => and_nested_approximates g path fuel xs ys zs c arg)
      (fun _ => ⟨rfl, rfl, rfl⟩) fun _ => .refl _
  · intro h
    exact h.of_indistinct 1 2 (fun fuel => approximates_and_nested g path fuel xs ys zs c arg)
      (fun _ => ⟨rfl, rfl, rfl⟩) fun _ => .refl _

theorem interchangeable_or_nested {xs ys zs : List Rule} (hne : xs ++ ys ++ zs ≠ []) :
    g.Interchangeable path (.or (xs ++ .or ys :: zs)) (.or (xs ++ ys ++ zs)) := by
  intro c arg s r position pulled
  have hindistinct := fun fuel => indistinct_choiceAround g path fuel xs ys zs c arg hne s
  constructor
  · intro h
    exact h.of_indistinct 2 2 (fun fuel => or_nested_approximates g path fuel xs ys zs c arg)
      (fun fuel => (hindistinct (fuel + 1)).symm) fun _ => .refl _
  · intro h
    exact h.of_indistinct 1 2 (fun _ => .refl _) hindistinct fun fuel =>
      approximates_or_nested g path fuel xs ys zs c arg

end Grammar

/-! ## Sums and alternatives -/

namespace Rule

/-- What a rule puts one after another where it is continued. -/
def summands : Rule → List Rule
  | and rules => rules
  | r => [r]

/-- What a rule chooses from where it is extended. -/
def alternatives : Rule → List Rule
  | or rules => rules
  | r => [r]

theorem eq_and_of_makeAnd {rules : List Rule} {made : Rule}
    (h : makeAnd (rules.map .rule) = .ok made) : made = and rules := by
  rcases rules with _ | ⟨r, rules⟩
  · cases h
  · obtain ⟨parts, hparts, h⟩ := Except.of_bind_eq_ok h
    cases h
    have heq := Operand.eq_map_of_requireAll hparts
    rw [List.map_injective_iff.2 (fun _ _ => Operand.rule.inj) heq]

theorem eq_or_of_makeOr {rules : List Rule} {made : Rule} (h : makeOr (rules.map .rule) = .ok made) :
    made = or rules := by
  rcases rules with _ | ⟨r, rules⟩
  · cases h
  · obtain ⟨parts, hparts, h⟩ := Except.of_bind_eq_ok h
    have heq := Operand.eq_map_of_requireAll hparts
    by_cases hmany : 1 < (sortedDistinct (parts.map arity)).length
    · simp only [hmany, if_true] at h
      cases h
    · simp only [hmany, if_false] at h
      cases h
      rw [List.map_injective_iff.2 (fun _ _ => Operand.rule.inj) heq]

/-- A sum is the sequence of what the left rule puts one after another and the right rule. -/
theorem eq_and_of_append {a b : Rule} {made : Operand} (h : append (.rule a) (.rule b) = .ok made) :
    made = .rule (and (a.summands ++ [b])) := by
  have hmake : Operand.rule <$> makeAnd ((a.summands ++ [b]).map .rule) = .ok made := by
    rw [List.map_append]
    cases a <;> exact h
  obtain ⟨r, hr, rfl⟩ := Except.of_map_eq_ok hmake
  rw [eq_and_of_makeAnd hr]

/-- An alternative is the choice between what the left rule chooses from and the right rule. -/
theorem eq_or_of_orElse {a b : Rule} {made : Operand} (h : orElse (.rule a) (.rule b) = .ok made) :
    made = .rule (or (a.alternatives ++ [b])) := by
  have hmake : Operand.rule <$> makeOr ((a.alternatives ++ [b]).map .rule) = .ok made := by
    rw [List.map_append]
    cases a <;> exact h
  obtain ⟨r, hr, rfl⟩ := Except.of_map_eq_ok hmake
  rw [eq_or_of_makeOr hr]

end Rule

namespace Grammar

variable (g : Grammar) (path : Path)

theorem interchangeable_summands (xs zs : List Rule) (b : Rule) :
    g.Interchangeable path (.and (xs ++ b :: zs)) (.and (xs ++ b.summands ++ zs)) := by
  cases b with
  | and rules => exact interchangeable_and_nested g path xs rules zs
  | _ =>
    rw [List.append_assoc]
    exact .refl g path _

theorem interchangeable_alternatives {xs zs : List Rule} {b : Rule}
    (hne : xs ++ b.alternatives ++ zs ≠ []) :
    g.Interchangeable path (.or (xs ++ b :: zs)) (.or (xs ++ b.alternatives ++ zs)) := by
  cases b with
  | or rules => exact interchangeable_or_nested g path hne
  | _ =>
    rw [List.append_assoc]
    exact .refl g path _

/-- Sums may be built from either side. -/
theorem interchangeable_append {a b d l r : Rule}
    (hl : (Rule.append (.rule a) (.rule b) >>= fun ab => Rule.append ab (.rule d)) = .ok (.rule l))
    (hr : (Rule.append (.rule b) (.rule d) >>= fun bd => Rule.append (.rule a) bd) = .ok (.rule r)) :
    g.Interchangeable path l r := by
  obtain ⟨ab, hab, hl⟩ := Except.of_bind_eq_ok hl
  obtain ⟨bd, hbd, hr⟩ := Except.of_bind_eq_ok hr
  cases Rule.eq_and_of_append hab
  cases Rule.eq_and_of_append hbd
  cases Rule.eq_and_of_append hl
  cases Rule.eq_and_of_append hr
  have hleft := interchangeable_summands g path a.summands [d] b
  have hright := interchangeable_and_nested g path a.summands (b.summands ++ [d]) []
  rw [List.append_nil, ← List.append_assoc] at hright
  have hflat : a.summands ++ [b] ++ [d] = a.summands ++ b :: [d] := List.append_assoc _ _ _
  rw [Rule.summands, hflat]
  exact hleft.trans hright.symm

/-- Alternatives may be built from either side. -/
theorem interchangeable_orElse {a b d l r : Rule}
    (hl : (Rule.orElse (.rule a) (.rule b) >>= fun ab => Rule.orElse ab (.rule d)) = .ok (.rule l))
    (hr : (Rule.orElse (.rule b) (.rule d) >>= fun bd => Rule.orElse (.rule a) bd) = .ok (.rule r)) :
    g.Interchangeable path l r := by
  obtain ⟨ab, hab, hl⟩ := Except.of_bind_eq_ok hl
  obtain ⟨bd, hbd, hr⟩ := Except.of_bind_eq_ok hr
  cases Rule.eq_or_of_orElse hab
  cases Rule.eq_or_of_orElse hbd
  cases Rule.eq_or_of_orElse hl
  cases Rule.eq_or_of_orElse hr
  have hne : a.alternatives ++ b.alternatives ++ [d] ≠ [] := by simp
  have hleft := interchangeable_alternatives g path (b := b) hne
  have hne' : a.alternatives ++ (b.alternatives ++ [d]) ++ [] ≠ [] := by simp
  have hright := interchangeable_or_nested g path hne'
  rw [List.append_nil, ← List.append_assoc] at hright
  have hflat : a.alternatives ++ [b] ++ [d] = a.alternatives ++ b :: [d] := List.append_assoc _ _ _
  rw [Rule.alternatives, hflat]
  exact hleft.trans hright.symm

/-- How rules are nested is of no account. A sequence inside a sequence and a choice inside a choice
may be spelled out: what comes of it, the position afterwards and what was pulled are the same. So they
are whichever way sums and alternatives are put together, be the left operand a sequence or a choice
that is continued, or not. -/
theorem nesting_irrelevant (xs zs : List Rule) {ys : List Rule} (hys : ys ≠ []) :
    g.Interchangeable path (.and (xs ++ .and ys :: zs)) (.and (xs ++ ys ++ zs)) ∧
    g.Interchangeable path (.or (xs ++ .or ys :: zs)) (.or (xs ++ ys ++ zs)) ∧
    (∀ a b d l r : Rule,
      (Rule.append (.rule a) (.rule b) >>= fun ab => Rule.append ab (.rule d)) = .ok (.rule l) →
      (Rule.append (.rule b) (.rule d) >>= fun bd => Rule.append (.rule a) bd) = .ok (.rule r) →
      g.Interchangeable path l r) ∧
    ∀ a b d l r : Rule,
      (Rule.orElse (.rule a) (.rule b) >>= fun ab => Rule.orElse ab (.rule d)) = .ok (.rule l) →
      (Rule.orElse (.rule b) (.rule d) >>= fun bd => Rule.orElse (.rule a) bd) = .ok (.rule r) →
      g.Interchangeable path l r :=
  ⟨interchangeable_and_nested g path xs ys zs, interchangeable_or_nested g path (by simp [hys]),
    fun _ _ _ _ _ hl hr => interchangeable_append g path hl hr,
    fun _ _ _ _ _ hl hr => interchangeable_orElse g path hl hr⟩

/-- One item that is a letter. -/
def letter (c : Nat) : Rule := .item (.one (.str [c]))

/-- The letters a, b and c, one after another or as alternatives, in either nesting and put together
from either side. -/
theorem nesting_irrelevant_letters :
    (Grammar.mk #[]).Interchangeable .blocking
      (.and [letter 97, .and [letter 98, letter 99]])
      (.and [letter 97, letter 98, letter 99]) ∧
    (Grammar.mk #[]).Interchangeable .blocking
      (.or [letter 97, .or [letter 98], letter 99])
      (.or [letter 97, letter 98, letter 99]) ∧
    (Grammar.mk #[]).Interchangeable .suspending
      (.and [letter 97, letter 98, letter 99])
      (.and [letter 97, .and [letter 98, letter 99]]) ∧
    (Grammar.mk #[]).Interchangeable .suspending
      (.or [letter 97, letter 98, letter 99])
      (.or [letter 97, .or [letter 98, letter 99]]) := by
  have hys : [letter 98] ≠ [] := List.cons_ne_nil _ _
  have hys' : [letter 98, letter 99] ≠ [] := List.cons_ne_nil _ _
  have hboth := nesting_irrelevant (.mk #[]) .suspending [] [] hys
  refine ⟨(nesting_irrelevant (.mk #[]) .blocking [letter 97] [] hys').1,
    (nesting_irrelevant (.mk #[]) .blocking [letter 97] [letter 99] hys).2.1,
    hboth.2.2.1 (letter 97) (letter 98) (letter 99) _ _ rfl rfl,
    hboth.2.2.2 (letter 97) (letter 98) (letter 99) _ _ ?_ ?_⟩
  · simp only [Rule.orElse, Rule.makeOr, Rule.sortedDistinct, List.length_mergeSort]
    rfl
  · simp only [Rule.orElse, Rule.makeOr, Rule.sortedDistinct, List.length_mergeSort]
    rfl

end Grammar

end Backtrack
