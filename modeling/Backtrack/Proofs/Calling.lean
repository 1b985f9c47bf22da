/-
What predicates and mappers are called with, and what becomes of what they give. A visit that has read
an item asks its predicate about the item and the argument, and a visit whose part has succeeded
applies its mapper to the values; in either case the visit ends with what the function gives, as the
test or the conversion takes it, or with the failure that the function raises, as it surfaces. The
values are as many as the arity of the part says, so that a mapper gets the number of arguments that
its signature was checked against.
-/
import Backtrack.Proofs.Course
namespace Backtrack

/-! ## Tests by a predicate, and by equality -/

namespace Matcher

variable {item arg : Value} {p : Predicate} {f : Failure}

/-- A test by a predicate passes what the predicate holds of, or what it does not hold of. -/
theorem accepts_of_predicate? : ∀ {m : Matcher}, m.predicate? = some p →
    m.accepts item arg = (fun w => w.truthy != m.negates) <$> p.run item arg
  | .is q, h => by
    cases h
    simp only [accepts, negates, Bool.bne_false]
  | .not q, h => by
    cases h
    simp only [accepts, negates, Bool.bne_true]
  | .isMatch m, h => accepts_of_predicate? (m := m) h
  | .notMatch m, h => by
    rw [accepts, accepts_of_predicate? (m := m) h, ← comp_map]
    refine congrArg (· <$> p.run item arg) (funext fun w => ?_)
    simp only [Function.comp_apply, negates]
    cases w.truthy <;> cases m.negates <;> rfl

/-- A lookup fails only where the item, or what it is compared with, refuses its hash. -/
theorem eq_writableView_of_lookup? : ∀ {m : Matcher}, m.lookup? item = some (.error f) →
    f = .writableView
  | .anyOf _, h => Members.eq_writableView_of_contains (Option.some.inj h)
  | .one _, h => Members.eq_writableView_of_found (Option.some.inj h)
  | .isMatch m, h => eq_writableView_of_lookup? (m := m) h
  | .notMatch m, h => eq_writableView_of_lookup? (m := m) h

end Matcher

namespace Evaluation

variable {g : Grammar} {path : Path} {s t : State} {c : Cursor}

/-! ## Calls -/

theorem calls_onSource {α : Type} (op : SourceM α) (s : State) :
    ((onSource op).runFrom s).2.journal.calls = s.journal.calls := by
  rw [runFrom_onSource]
  exact s.journal.calls_addEvents _

/-- A test calls its predicate with the item and the argument. -/
theorem calls_passes (path : Path) (item arg : Value) {p : Predicate} (hrecorded : p.recorded = true)
    (s : State) : ∀ {m : Matcher}, m.predicate? = some p →
      ((passes path item arg m).runFrom s).2.journal.calls =
        s.journal.calls.push ⟨p.name, [item, arg]⟩ := by
  have hholds : ((holds path p item arg).runFrom s).2.journal.calls =
      s.journal.calls.push ⟨p.name, [item, arg]⟩ := by
    simp only [holds, recordCall, hrecorded, if_true]
    cases p.run item arg <;> rfl
  have hnot : ∀ x : Evaluation Bool,
      ((Bool.not <$> x).runFrom s).2 = (x.runFrom s).2 := by
    intro x
    rw [map_eq_pure_bind, runFrom_bind]
    rcases x.runFrom s with ⟨e | b, t⟩ <;> rfl
  intro m hm
  induction m with
  | is q =>
    cases hm
    exact hholds
  | isMatch m ih => exact ih hm
  | not q =>
    cases hm
    rw [passes, hnot]
    exact hholds
  | notMatch m ih =>
    rw [passes, hnot]
    exact ih hm
  | anyOf members => cases hm
  | one v => cases hm
  | abstract => cases hm

namespace Visit

section

variable (g : Grammar) (path : Path)

/-- The visit asks the predicate about the item and the argument: it fails as the predicate fails,
and else the test takes the answer as it stands or as its opposite, and what passes is consumed. -/
structure Asks (K : Visit) (m : Matcher) (p : Predicate) (item arg : Value) (s : State) : Prop where
  result : (K.run g path).1 = match p.run item arg with
    | .error f => .error (.failed (path.surface f))
    | .ok w =>
      if w.truthy = m.negates then .ok .noMatch
      else (fun _ => .single item) <$>
        ((Source.consume K.cursor 1).runOn s.source).1.mapError .failed
  calls : p.recorded = true →
    (K.run g path).2.journal.calls = K.state.journal.calls.push ⟨p.name, [item, arg]⟩

/-- The visit applies the mapper to the arguments: it ends with what the conversion makes of the
result, or fails with what it reports of the failure, and leaves the source as it was. -/
structure Applies (K : Visit) (conversion : Conversion) (fn : Mapper) (args : List Value) (s : State) :
    Prop where
  result : (K.run g path).1 = match fn.run args with
    | .ok v => .ok (conversion.accept v)
    | .error f => .error (.failed (path.surface (conversion.report f)))
  source : (K.run g path).2.source = s.source
  calls : fn.recorded = true →
    (K.run g path).2.journal.calls = s.journal.calls.push ⟨fn.name, args⟩

end

variable {K J : Visit} {m : Matcher} {item : Value} {conversion : Conversion} {fn : Mapper}
  {args : List Value}

/-- A visit that tests an item ends as the test ends, and consumes what passes. -/
theorem Tests.run_eq (g : Grammar) (h : K.Tests path m item s) :
    K.run g path = (passes path item K.arg m >>= fun passed =>
      if passed then onSource (Source.consume K.cursor 1) >>= fun _ => pure (.single item)
      else pure .noMatch).runFrom s := by
  obtain ⟨fuel, rule, c, arg, s₀⟩ := K
  obtain ⟨hfuel, rfl, items, hread, hitem⟩ := h
  obtain ⟨n, rfl⟩ := Nat.exists_eq_succ_of_ne_zero hfuel
  show (Evaluation.item path c arg m).runFrom s₀ = _
  rw [Evaluation.item, runFrom_bind_of_ok hread]
  simp only [hitem]

/-- Reading calls nothing. -/
theorem Tests.calls_eq (h : K.Tests path m item s) : s.journal.calls = K.state.journal.calls := by
  obtain ⟨items, hread, -⟩ := h.read
  have hcalls := calls_onSource (Source.read path K.cursor 1) K.state
  rwa [hread] at hcalls

/-- A visit that tests an item asks its predicate about the item and its own argument. -/
theorem Tests.asks {p : Predicate} (h : K.Tests path m item s) (hp : m.predicate? = some p) :
    K.Asks g path m p item K.arg s := by
  obtain ⟨hresult, hsource⟩ := Still.passes path item K.arg m s
  rw [Matcher.accepts_of_predicate? hp] at hresult
  refine ⟨?_, fun hrecorded => ?_⟩
  · rw [h.run_eq g, runFrom_bind]
    rcases hpasses : (passes path item K.arg m).runFrom s with ⟨r, t⟩
    rw [hpasses] at hresult hsource
    cases hresult
    cases hrun : p.run item K.arg with
    | error f => rfl
    | ok w =>
      show (Evaluation.runFrom (if (w.truthy != m.negates) = true then _ else _) t).1 = _
      by_cases hw : w.truthy = m.negates
      · simp only [hw, bne_self_eq_false]
        rfl
      · simp only [bne_iff_ne.2 hw, hw, if_true, if_false]
        rw [runFrom_bind, runFrom_onSource, hsource]
        cases ((Source.consume K.cursor 1).runOn s.source).1 <;> rfl
  · have hcalls := calls_passes path item K.arg hrecorded s hp
    rw [h.calls_eq] at hcalls
    rw [h.run_eq g, runFrom_bind]
    -- neither consuming nor giving the item up calls anything
    rcases hpasses : (passes path item K.arg m).runFrom s with ⟨e | passed, u⟩ <;>
      rw [hpasses] at hcalls
    · exact hcalls
    · cases passed with
      | false => exact hcalls
      | true =>
        have hconsume := calls_onSource (Source.consume K.cursor 1) u
        simp only [if_true, runFrom_bind]
        rcases hrun : (onSource (Source.consume K.cursor 1)).runFrom u with ⟨e | _, v⟩ <;>
          rw [hrun] at hconsume
        · exact hconsume.trans hcalls
        · exact hconsume.trans hcalls

/-- A visit that hands values to a mapper ends as the call ends. -/
theorem Maps.run_eq (h : K.Maps g path conversion fn args s) :
    K.run g path = (call path conversion fn args).runFrom s := by
  obtain ⟨fuel, rule, c, arg, s₀⟩ := K
  cases h with
  | @values _ r _ withArg J vs _ hrule hpart hrun =>
    cases hrule
    cases fuel with
    | zero => cases hpart
    | succ n =>
      cases List.mem_singleton.1 hpart
      have hbody : (eval g path n r c arg).runFrom s₀ = (.ok (.success vs), s) := hrun
      show (map path conversion (eval g path n r c arg) fn _).runFrom s₀ = _
      rw [map, runFrom_bind_of_ok hbody]
  | @span r _ J vs _ hrule hpart hrun =>
    cases hrule
    cases fuel with
    | zero => cases hpart
    | succ n =>
      cases List.mem_singleton.1 hpart
      have hbody : (eval g path n r c arg).runFrom s₀ = (.ok (.success vs), s) := hrun
      show (mapRange path (eval g path n r c arg) c (some fn)).runFrom s₀ = _
      rw [mapRange, runFrom_bind]
      show (eval g path n r c arg >>= _).runFrom s₀ = _
      rw [runFrom_bind_of_ok hbody]
      rfl

/-- A visit that hands values to a mapper applies it to them. -/
theorem Maps.applies (h : K.Maps g path conversion fn args s) :
    K.Applies g path conversion fn args s := by
  obtain ⟨hresult, hsource⟩ := Still.call path conversion fn args s
  refine ⟨?_, ?_, fun hrecorded => ?_⟩
  · rw [h.run_eq, hresult, Conversion.apply]
    cases fn.run args <;> rfl
  · rw [h.run_eq, hsource]
  · rw [h.run_eq]
    simp only [call, recordCall, hrecorded, if_true]
    cases fn.run args <;> rfl

end Visit

end Evaluation

/-! ## How many arguments a mapper gets -/

/-- The mapper of a rule that has one. -/
def Rule.mapper? : Rule → Option Mapper
  | map _ _ fn _ => some fn
  | mapRange _ fn => fn
  | _ => none

/-- For how many arguments the mapper of a rule is checked when the rule is made. -/
def Rule.mapperCount : Rule → Int
  | map _ r _ withArg => r.arity + if withArg then 1 else 0
  | mapRange r _ => r.arity + 1
  | _ => 0

theorem Rule.WellFormed.takes {g : Grammar} {rule : Rule} {fn : Mapper} (h : rule.WellFormed g)
    (hfn : rule.mapper? = some fn) : fn.Takes rule.mapperCount.toNat := by
  cases h with
  | map _ htakes =>
    cases hfn
    exact htakes
  | mapRangeWith _ htakes =>
    cases hfn
    exact htakes
  | _ => cases hfn

namespace Evaluation.Visit

variable {g : Grammar} {path : Path} {K J : Visit} {s : State} {conversion : Conversion}
  {fn : Mapper} {args : List Value}

/-- A mapper gets as many arguments as it was checked for. -/
theorem Maps.length_eq (hg : g.WellFormed) (hwell : K.rule.WellFormed g)
    (h : K.Maps g path conversion fn args s) : (args.length : Int) = K.rule.mapperCount := by
  have hlength : ∀ {J : Visit} {r : Rule} {vs : List Value}, g.parts K.rule = [r] →
      J ∈ K.parts g path → J.run g path = (.ok (.success vs), s) → (vs.length : Int) = r.arity := by
    intro J r vs hparts hpart hrun
    have hJ := (of_mem_parts hpart).2
    have hvs := gives_arity hg path J.fuel (hwell.of_mem_parts hg hJ) J.cursor J.arg J.state _ s hrun
    rw [hparts] at hJ
    rwa [List.mem_singleton.1 hJ] at hvs
  cases h with
  | @values _ r _ withArg J vs _ hrule hpart hrun =>
    have hvs := hlength (by rw [hrule]; rfl) hpart hrun
    rw [hrule, Rule.mapperCount, List.length_append]
    cases withArg <;> simp [hvs]
  | @span r _ J vs _ hrule hpart hrun =>
    have hvs := hlength (by rw [hrule]; rfl) hpart hrun
    rw [hrule, Rule.mapperCount, List.length_append]
    simp [hvs]

/-- What goes on only from a success ends as what it goes on from where that does not succeed. -/
theorem runFrom_bind_of_not_success {x : Evaluation Outcome} {f : Outcome → Evaluation Outcome}
    {s : State} (hf : ∀ m, f (.mismatch m) = pure (.mismatch m))
    (h : ∀ vs t, x.runFrom s ≠ (.ok (.success vs), t)) : (x >>= f).runFrom s = x.runFrom s := by
  rw [runFrom_bind]
  rcases hrun : x.runFrom s with ⟨e | vs | m, t⟩
  · rfl
  · exact absurd hrun (h vs t)
  · simp only [hf]
    rfl

/-- Where the part of a visit does not succeed, its mapper is not called: the visit ends as the part
ends. -/
theorem maps_or_run_eq (hfn : K.rule.mapper? = some fn) (hJ : J ∈ K.parts g path) :
    (∃ conversion args s, K.Maps g path conversion fn args s) ∨ K.run g path = J.run g path := by
  by_cases hsuccess : ∃ vs t, J.run g path = (.ok (.success vs), t)
  · obtain ⟨vs, t, hrun⟩ := hsuccess
    cases hrule : K.rule with
    | map conversion r f withArg =>
      rw [hrule] at hfn
      cases hfn
      exact .inl ⟨_, _, _, .values hrule hJ hrun⟩
    | mapRange r f =>
      rw [hrule] at hfn
      cases hfn
      exact .inl ⟨_, _, _, .span hrule hJ hrun⟩
    | _ =>
      rw [hrule] at hfn
      cases hfn
  · have hnot : ∀ vs t, J.run g path ≠ (.ok (.success vs), t) := fun vs t h => hsuccess ⟨vs, t, h⟩
    obtain ⟨fuel, rule, c, arg, s₀⟩ := K
    cases fuel with
    | zero => cases hJ
    | succ n =>
      cases rule with
      | map conversion r f withArg =>
        rw [List.mem_singleton.1 hJ] at hnot ⊢
        exact .inr (runFrom_bind_of_not_success (fun _ => rfl) hnot)
      | mapRange r f =>
        rw [List.mem_singleton.1 hJ] at hnot ⊢
        exact .inr (runFrom_bind_of_not_success (fun _ => rfl) hnot)
      | _ => cases hfn

end Evaluation.Visit

/-! ## Arities where evaluations build on them -/

/-- Every rule that evaluating an accepted rule of an accepted grammar may come to succeeds with as
many values as its arity says. So wherever the first value of a part is taken there is exactly one. A
mapper is applied where the part has succeeded, to its values and what the rule puts behind them; these
are as many as the mapper was checked for, so that its signature accepts them. And a success of a whole
parse has a result. -/
theorem length_eq_arity_of_reaches {g : Grammar} (hg : g.Accepted) {rule : Rule}
    (hrule : rule.Accepted g) {part : Rule} (hpart : g.Reaches rule part) :
    (∀ vs, g.Succeeds part vs → (vs.length : Int) = part.arity) ∧
    (∀ inner ∈ part.taken, ∀ vs, g.Succeeds inner vs → ∃ v, vs = [v]) ∧
    (∀ fn, part.mapper? = some fn → ∀ (path : Path) (K : Evaluation.Visit), K.rule = part →
      (∀ conversion args s, K.Maps g path conversion fn args s →
        K.Applies g path conversion fn args s ∧ (args.length : Int) = part.mapperCount ∧
          fn.Takes args.length) ∧
      ∀ J ∈ K.parts g path,
        (∃ conversion args s, K.Maps g path conversion fn args s) ∨
          K.run g path = J.run g path) ∧
    ∀ vs, g.Succeeds part vs → ∀ (c : Cursor) (s : Evaluation.State),
      ∃ v, ((Evaluation.result part c (.success vs)).runFrom s).1 = .ok v := by
  have hgrammar := hg.wellFormed
  have hwell := hrule.wellFormed.of_reaches hgrammar hpart
  refine ⟨fun vs hvs => hwell.length_eq_arity hgrammar hvs, fun inner hinner vs hvs => ?_,
    fun fn hfn path K hK => ⟨fun conversion args s hmaps => ?_, fun J hJ => ?_⟩,
    fun vs hvs c s => ?_⟩
  · obtain ⟨hinner', harity⟩ := hwell.arity_of_mem_taken hinner
    have hlength := hinner'.length_eq_arity hgrammar hvs
    rw [harity] at hlength
    exact List.length_eq_one_iff.1 (by omega)
  · have hlength := hmaps.length_eq hgrammar (by rw [hK]; exact hwell)
    have htakes := hwell.takes hfn
    rw [hK] at hlength
    rw [← hlength, Int.toNat_natCast] at htakes
    exact ⟨hmaps.applies, hlength, htakes⟩
  · exact Evaluation.Visit.maps_or_run_eq (by rw [hK]; exact hfn) hJ
  · have hlength := hwell.length_eq_arity hgrammar hvs
    by_cases harity : part.arity = 1
    · -- the one value is the result, else all of them are
      obtain ⟨v, rfl⟩ := List.length_eq_one_iff.1 (show vs.length = 1 by omega)
      refine ⟨v, ?_⟩
      rw [Evaluation.result]
      simp only [harity, if_true]
      rfl
    · refine ⟨.values vs, ?_⟩
      rw [Evaluation.result]
      simp only [harity, if_false]
      rfl

/-- Joins a letter to the argument. -/
def beside : Mapper := .named "beside" (.exactly 2) fun args => .ok (.tuple args)

/-- The letter a with the argument beside it. -/
def lettered : Rule := .map .total (.item (.one (.str [97]))) beside true

theorem accepted_lettered : lettered.Accepted .empty := by
  have hpart : ∀ p, Operand.rule (.item (.one (.str [97]))) = .rule p → p.Accepted .empty := by
    rintro _ ⟨⟩
    exact .item _
  have hmade : Rule.makeMap .total (.rule (.item (.one (.str [97])))) (.mapper beside) true =
      .ok lettered := rfl
  exact .map hpart hmade

/-- A definition in terms of itself, and a mapper that gets the argument too. -/
theorem length_eq_arity_of_reaches_dots :
    (dots.Accepted ∧ dotted.Accepted dots ∧
      dots.Reaches dotted (.optional (.reference (some 0) 1)) ∧
      dots.Succeeds (.reference (some 0) 1) [.none] ∧ ∃ v, [Value.none] = [v]) ∧
    lettered.Accepted .empty ∧ lettered.mapperCount = 2 ∧
    ∃ (K : Evaluation.Visit) (s : Evaluation.State), K.rule = lettered ∧
      K.Maps .empty .blocking .total beside [.str [97], .int 7] s ∧
      (K.run .empty .blocking).2.journal.calls =
        s.journal.calls.push ⟨"beside", [.str [97], .int 7]⟩ := by
  refine ⟨?_, accepted_lettered, rfl, ?_⟩
  · have hdotted : dotted.Accepted dots := accepted_dotted (d := ⟨1, some dotted⟩) rfl rfl
    have hreaches : dots.Reaches dotted (.optional (.reference (some 0) 1)) :=
      .single (by simp [Grammar.parts, dotted])
    have hsucceeds : dots.Succeeds (.reference (some 0) 1) [.none] :=
      ⟨.blocking, 12, .root, .none, .ofSource (.ofData (.str [46, 46])), _, Prod.ext rfl rfl⟩
    obtain ⟨-, htaken, -⟩ := length_eq_arity_of_reaches accepted_dots hdotted hreaches
    exact ⟨accepted_dots, hdotted, hreaches, hsucceeds,
      htaken (.reference (some 0) 1) (by simp [Rule.taken]) [.none] hsucceeds⟩
  · let K : Evaluation.Visit := ⟨2, lettered, .root, .int 7, .ofSource (.ofData (.str [97]))⟩
    let J : Evaluation.Visit := ⟨1, .item (.one (.str [97])), .root, .int 7, K.state⟩
    let s := (J.run .empty .blocking).2
    have hrun : J.run .empty .blocking = (.ok (.success [.str [97]]), s) := rfl
    have hrule : K.rule = .map .total (.item (.one (.str [97]))) beside true := rfl
    have hmaps : K.Maps .empty .blocking .total beside [.str [97], .int 7] s :=
      .values hrule (List.mem_singleton_self J) hrun
    obtain ⟨-, -, hmapper, -⟩ := length_eq_arity_of_reaches .empty accepted_lettered .refl
    obtain ⟨happlies, -, -⟩ := (hmapper beside rfl .blocking K rfl).1 _ _ _ hmaps
    exact ⟨K, s, rfl, hmaps, happlies.calls rfl⟩

end Backtrack
