/-
The arity of a rule is the number of values of its successes. Evaluating a well-formed rule of a
well-formed grammar succeeds with as many values as the arity of the rule says, on either path and
from whatever state; the proof goes along the fuel, with one lemma for each way of combining rules.
References tie the knot: their declared arities are those of the rules that they stand for. So where
an evaluation takes the first value of a part there is exactly one.
-/
import Backtrack.Proofs.Acceptance
import Backtrack.Parse
namespace Backtrack

/-- A success has so many values. -/
def Outcome.HasArity (n : Int) : Outcome → Prop
  | success vs => (vs.length : Int) = n
  | mismatch _ => True

namespace Evaluation

/-! ## What evaluations give -/

/-- Whatever the evaluation gives, from whatever state, has the property. -/
def Gives {α : Type} (P : α → Prop) (x : Evaluation α) : Prop :=
  ∀ (s : State) (a : α) (t : State), x.runFrom s = (.ok a, t) → P a

namespace Gives

variable {α β : Type} {P : α → Prop} {Q : β → Prop}

protected theorem pure {a : α} (h : P a) : Gives P (pure a) := by
  rintro s _ _ ⟨⟩
  exact h

protected theorem throw (h : Halt) : Gives P (throw h : Evaluation α) := by
  rintro s a t ⟨⟩

protected theorem fail (f : Failure) : Gives P (fail f : Evaluation α) := .throw (.failed f)

/-- A computation gives what its second part gives of what its first part gives. -/
protected theorem bind {x : Evaluation α} {f : α → Evaluation β} (hx : Gives P x)
    (hf : ∀ a, P a → Gives Q (f a)) : Gives Q (x >>= f) := by
  intro s b u h
  rw [runFrom_bind] at h
  rcases hrun : x.runFrom s with ⟨r, t⟩
  rw [hrun] at h
  cases r with
  | error e => cases h
  | ok a => exact hf a (hx s a t hrun) t b u h

/-- What the first part gives need not matter. -/
protected theorem bind_right {x : Evaluation α} {f : α → Evaluation β} (hf : ∀ a, Gives Q (f a)) :
    Gives Q (x >>= f) := by
  have hx : Gives (fun _ => True) x := fun _ _ _ _ => trivial
  exact hx.bind fun a _ => hf a

protected theorem map {x : Evaluation α} {f : α → β} (hx : Gives P x) (hf : ∀ a, P a → Q (f a)) :
    Gives Q (f <$> x) := by
  rw [map_eq_pure_bind]
  exact hx.bind fun a ha => .pure (hf a ha)

protected theorem ite {p : Prop} [Decidable p] {x y : Evaluation α} (hx : Gives P x)
    (hy : Gives P y) : Gives P (if p then x else y) := by
  split
  · exact hx
  · exact hy

/-- What is done after a failure does not matter to what is given without one. -/
protected theorem onFailure {x : Evaluation α} {handle : Failure → Evaluation Unit}
    (hx : Gives P x) : Gives P (onFailure x handle) := by
  intro s a t h
  rw [runFrom_onFailure] at h
  rcases hrun : x.runFrom s with ⟨r, u⟩
  rw [hrun] at h
  rcases r with (_ | f) | b
  · rename_i f
    rw [afterFailure] at h
    split at h <;> cases h
  · cases h
  · cases h
    exact hx s a t hrun

/-! ## Rules without parts -/

theorem noMatch (n : Int) : Gives (Outcome.HasArity n) (pure Outcome.noMatch) := .pure trivial

theorem single (v : Value) : Gives (Outcome.HasArity 1) (pure (Outcome.single v)) := .pure rfl

protected theorem item (path : Path) (c : Cursor) (arg : Value) (m : Matcher) :
    Gives (Outcome.HasArity 1) (item path c arg m) := by
  refine .bind_right fun items => ?_
  cases items.get? 0 with
  | none => exact .noMatch 1
  | some v => exact .bind_right fun _ => .ite (.bind_right fun _ => .single v) (.noMatch 1)

protected theorem literal (path : Path) (c : Cursor) (content : Value) :
    Gives (Outcome.HasArity 1) (literal path c content) :=
  .bind_right fun _ => .bind_right fun _ => .ite (.bind_right fun _ => .single content) (.noMatch 1)

protected theorem start (c : Cursor) : Gives (Outcome.HasArity 0) (start c) :=
  .bind_right fun _ => .ite (.pure rfl) (.noMatch 0)

protected theorem finish (path : Path) (c : Cursor) :
    Gives (Outcome.HasArity 0) (finish path c) := by
  refine .bind_right fun items => .pure ?_
  split
  · rfl
  · trivial

/-! ## Rules with parts -/

/-- A sequence gives the values it has already and those of the rules. -/
protected theorem sequence {run : Rule → Evaluation Outcome} : ∀ {rules : List Rule}
    (_ : ∀ r ∈ rules, Gives (Outcome.HasArity r.arity) (run r)) (vs : List Value),
    Gives (Outcome.HasArity (vs.length + Rule.arityOfAll rules)) (sequence run vs rules)
  | [], _, vs => .pure (by simp [Outcome.HasArity, Rule.arityOfAll])
  | r :: rules, h, vs => by
    refine (h r List.mem_cons_self).bind fun outcome houtcome => ?_
    cases outcome with
    | mismatch m => exact .pure trivial
    | success ws =>
      have hrest := Gives.sequence (fun p hp => h p (List.mem_cons_of_mem r hp)) (vs ++ ws)
      have harity : ((vs ++ ws).length : Int) + Rule.arityOfAll rules =
          vs.length + Rule.arityOfAll (r :: rules) := by
        simp only [Outcome.HasArity] at houtcome
        rw [Rule.arityOfAll, List.length_append]
        push_cast
        omega
      rwa [harity] at hrest

protected theorem choice {run : Cursor → Rule → Evaluation Outcome} {n : Int} (c : Cursor) :
    ∀ {rules : List Rule}, (∀ r ∈ rules, ∀ c, Gives (Outcome.HasArity n) (run c r)) →
      Gives (Outcome.HasArity n) (choice run c rules)
  | [], _ => .noMatch n
  | r :: rules, h => by
    refine .bind_right fun fork => ?_
    refine (Gives.onFailure (h r List.mem_cons_self fork)).bind fun outcome houtcome => ?_
    cases outcome with
    | success vs => exact .bind_right fun _ => .pure houtcome
    | mismatch m =>
      exact .bind_right fun _ => Gives.choice c fun p hp => h p (List.mem_cons_of_mem r hp)

protected theorem repetition (body : Evaluation Outcome) (min : Int) (max : Option Int) :
    ∀ (fuel : Nat) (count : Int) (reversed : List Value),
      Gives (Outcome.HasArity 1) (repetition body min max fuel count reversed) := by
  have hrepeated : ∀ count last reversed,
      (repeated min count last reversed).HasArity 1 := by
    intro count last reversed
    rw [repeated]
    split
    · trivial
    · rfl
  intro fuel
  induction fuel with
  | zero => exact fun count reversed => .ite (.pure (hrepeated _ _ _)) (.throw _)
  | succ fuel ih =>
    intro count reversed
    refine .ite (.pure (hrepeated _ _ _)) (.bind_right fun outcome => ?_)
    cases outcome with
    | mismatch m => exact .pure (hrepeated _ _ _)
    | success vs => exact .bind_right fun v => ih (count + 1) (v :: reversed)

theorem punctuatedResult (min count : Int) (last : Option Mismatch)
    (elements separators : List Value) :
    (punctuatedResult min count last elements separators).HasArity 2 := by
  rw [Evaluation.punctuatedResult]
  split
  · trivial
  · rfl

protected theorem punctuatedRest (pair : Evaluation (Except Mismatch (Value × Value))) (min : Int)
    (max : Option Int) : ∀ (fuel : Nat) (count : Int) (elements separators : List Value),
      Gives (Outcome.HasArity 2) (punctuatedRest pair min max fuel count elements separators) := by
  intro fuel
  induction fuel with
  | zero => exact fun _ _ _ => .ite (.pure (punctuatedResult ..)) (.throw _)
  | succ fuel ih =>
    intro count elements separators
    refine .ite (.pure (punctuatedResult ..)) (.bind_right fun found => ?_)
    cases found with
    | error m => exact .pure (punctuatedResult ..)
    | ok found => exact ih (count + 1) _ _

protected theorem punctuated (element separator : Cursor → Evaluation Outcome) (c : Cursor)
    (min : Int) (max : Option Int) (fuel : Nat) :
    Gives (Outcome.HasArity 2) (punctuated element separator c min max fuel) := by
  refine .bind_right fun outcome => ?_
  cases outcome with
  | mismatch m => exact .pure (punctuatedResult ..)
  | success es => exact .bind_right fun e => .punctuatedRest _ min max fuel 1 [e] []

protected theorem optional (body : Evaluation Outcome) :
    Gives (Outcome.HasArity 1) (optional body) := by
  refine .bind_right fun outcome => ?_
  cases outcome with
  | mismatch m => exact .single .none
  | success vs => exact .bind_right fun v => .single v

protected theorem andWithArg {first : Evaluation Outcome} {second : Value → Evaluation Outcome}
    {n : Int} (hfirst : Gives (Outcome.HasArity 1) first)
    (hsecond : ∀ v, Gives (Outcome.HasArity n) (second v)) :
    Gives (Outcome.HasArity (1 + n)) (andWithArg first second) := by
  refine hfirst.bind fun outcome houtcome => ?_
  cases outcome with
  | mismatch m => exact .pure trivial
  | success vs =>
    refine .bind_right fun v => (hsecond v).bind fun outcome' houtcome' => ?_
    cases outcome' with
    | mismatch m => exact .pure trivial
    | success ws =>
      refine .pure ?_
      simp only [Outcome.HasArity] at houtcome houtcome' ⊢
      rw [List.length_append]
      push_cast
      omega

/-- What a mapper makes is one value, or a mismatch. -/
protected theorem call (path : Path) (conversion : Conversion) (fn : Mapper) (args : List Value) :
    Gives (Outcome.HasArity 1) (call path conversion fn args) := by
  have haccept : ∀ v, (conversion.accept v).HasArity 1 := by
    intro v
    cases conversion with
    | total => rfl
    | attempt wrap =>
      rw [Conversion.accept]
      cases Mismatch.ofValue? v with
      | none => rfl
      | some m => trivial
    | optional => cases v <;> first | rfl | trivial
  refine .bind_right fun _ => ?_
  cases fn.run args with
  | ok v => exact .pure (haccept v)
  | error f => exact .fail _

theorem map_rule (path : Path) (conversion : Conversion) (body : Evaluation Outcome) (fn : Mapper)
    (extra : List Value) :
    Gives (Outcome.HasArity 1) (Evaluation.map path conversion body fn extra) := by
  refine .bind_right fun outcome => ?_
  cases outcome with
  | mismatch m => exact .pure trivial
  | success vs => exact .call path conversion fn (vs ++ extra)

/-- Without a mapper the range is a further value. -/
theorem mapRange_none {body : Evaluation Outcome} {n : Int} (h : Gives (Outcome.HasArity n) body)
    (path : Path) (c : Cursor) : Gives (Outcome.HasArity (n + 1)) (mapRange path body c none) := by
  refine .bind_right fun first => h.bind fun outcome houtcome => ?_
  cases outcome with
  | mismatch m => exact .pure trivial
  | success vs =>
    refine .bind_right fun last => .pure ?_
    simp only [Outcome.HasArity] at houtcome ⊢
    rw [List.length_append]
    push_cast
    rw [houtcome]
    rfl

theorem mapRange_some (path : Path) (body : Evaluation Outcome) (c : Cursor) (fn : Mapper) :
    Gives (Outcome.HasArity 1) (mapRange path body c (some fn)) := by
  refine .bind_right fun first => .bind_right fun outcome => ?_
  cases outcome with
  | mismatch m => exact .pure trivial
  | success vs => exact .bind_right fun last => .call path .total fn _

protected theorem expected {body : Evaluation Outcome} {n : Int}
    (h : Gives (Outcome.HasArity n) body) (c : Cursor) (what : Value) :
    Gives (Outcome.HasArity n) (expected body c what) := by
  refine h.bind fun outcome houtcome => ?_
  cases outcome with
  | success vs => exact .pure houtcome
  | mismatch m => exact .bind_right fun _ => .bind_right fun _ => .fail _

protected theorem peek {run : Cursor → Evaluation Outcome} {n : Int}
    (h : ∀ c, Gives (Outcome.HasArity n) (run c)) (c : Cursor) :
    Gives (Outcome.HasArity n) (peek run c) :=
  .bind_right fun fork => (Gives.onFailure (h fork)).bind fun _ houtcome =>
    .bind_right fun _ => .pure houtcome

end Gives

/-! ## All rules -/

/-- Whatever a well-formed rule gives has the arity of the rule. -/
theorem gives_arity {g : Grammar} (hg : g.WellFormed) (path : Path) :
    ∀ (fuel : Nat) {rule : Rule} (_ : rule.WellFormed g) (c : Cursor) (arg : Value),
      Gives (Outcome.HasArity rule.arity) (eval g path fuel rule c arg)
  | 0, _, _, _, _ => .throw _
  | fuel + 1, rule, h, c, arg => by
    have ih := fun {r : Rule} (hr : r.WellFormed g) c v => gives_arity hg path fuel hr c v
    cases h with
    | item m => exact .item path c arg m
    | literal _ _ => exact .literal path c _
    | start => exact .start c
    | finish => exact .finish path c
    | noOp => exact .pure rfl
    | never n => exact .noMatch n
    | @reference id d hd =>
      rw [eval, Option.bind_some]
      cases hr : g.rule? id with
      | none => exact .fail unbound
      | some r =>
        -- the declared arity is that of the rule behind the reference
        obtain ⟨hwell, harity⟩ := hg id d r hd (by simpa [Grammar.rule?, hd] using hr)
        have hgives := ih hwell c arg
        rw [harity] at hgives
        exact hgives
    | fresh n => exact .fail unbound
    | and _ hparts =>
      -- no values are there when the sequence begins
      have hgives := Gives.sequence (fun r hr => ih (hparts r hr) c arg) []
      rw [List.length_nil, Nat.cast_zero, zero_add] at hgives
      exact hgives
    | or _ hparts hsame =>
      refine .choice c fun r hr c => ?_
      rw [← hsame r hr]
      exact ih (hparts r hr) c arg
    | repetition _ _ _ => exact .repetition _ _ _ fuel 0 []
    | optional _ _ => exact .optional _
    | punctuated _ _ _ _ _ _ => exact .punctuated _ _ c _ _ fuel
    | andWithArg hfirst hsecond harity =>
      have hgives := ih hfirst c arg
      rw [harity] at hgives
      exact .andWithArg hgives fun v => ih hsecond c v
    | map _ _ => exact .map_rule path _ _ _ _
    | mapRange hpart => exact .mapRange_none (ih hpart c arg) path c
    | mapRangeWith _ _ => exact .mapRange_some path _ c _
    | discard hpart =>
      refine Gives.map (ih hpart c arg) fun outcome _ => ?_
      cases outcome with
      | success vs => rfl
      | mismatch m => trivial
    | expected hpart what => exact .expected (ih hpart c arg) c what
    | name hpart label =>
      refine Gives.map (ih hpart c arg) fun outcome houtcome => ?_
      cases outcome with
      | success vs => exact houtcome
      | mismatch m => cases m <;> trivial
    | peek hpart => exact .peek (fun c => ih hpart c arg) c
    | wrapper hpart => exact ih hpart c arg
    | abstract => exact .fail notImplemented

end Evaluation

/-! ## What rules build on -/

/-- The rules that evaluating a rule may evaluate in turn. -/
def Grammar.parts (g : Grammar) : Rule → List Rule
  | .reference target _ => (target.bind g.rule?).toList
  | .and rules | .or rules => rules
  | .punctuated element separator _ _ => [element, separator]
  | .andWithArg first second => [first, second]
  | .repetition r _ _ | .optional r | .map _ r _ _ | .mapRange r _ | .discard r | .expected r _
  | .name r _ | .peek r | .wrapper r => [r]
  | .item _ | .literal _ | .start | .finish | .noOp | .never _ | .abstract => []

/-- Evaluating the one rule may come to evaluating the other. -/
def Grammar.Reaches (g : Grammar) : Rule → Rule → Prop :=
  Relation.ReflTransGen fun r part => part ∈ g.parts r

/-- The parts of a rule of whose successes the first value is taken. -/
def Rule.taken : Rule → List Rule
  | repetition r _ _ | optional r => [r]
  | punctuated element separator _ _ => [element, separator]
  | andWithArg first _ => [first]
  | _ => []

/-- Some evaluation of the rule, on whatever path and from whatever state, succeeds with the
values. -/
def Grammar.Succeeds (g : Grammar) (rule : Rule) (vs : List Value) : Prop :=
  ∃ (path : Path) (fuel : Nat) (c : Cursor) (arg : Value) (s t : Evaluation.State),
    (Evaluation.eval g path fuel rule c arg).runFrom s = (.ok (.success vs), t)

namespace Rule.WellFormed

variable {g : Grammar} {rule part : Rule} {vs : List Value}

theorem of_mem_parts (hg : g.WellFormed) (h : rule.WellFormed g) (hpart : part ∈ g.parts rule) :
    part.WellFormed g := by
  have hsingle : ∀ {r : Rule}, r.WellFormed g → part ∈ [r] → part.WellFormed g := by
    intro r hr hmem
    rwa [List.mem_singleton.1 hmem]
  have hpair : ∀ {r r' : Rule}, r.WellFormed g → r'.WellFormed g → part ∈ [r, r'] →
      part.WellFormed g := by
    intro r r' hr hr' hmem
    rcases List.mem_cons.1 hmem with rfl | hmem
    · exact hr
    · exact hsingle hr' hmem
  cases h with
  | @reference id d hd =>
    have hbound : g.rule? id = some part := by simpa [Grammar.parts] using hpart
    exact (hg id d part hd (by simpa [Grammar.rule?, hd] using hbound)).1
  | fresh n => cases hpart
  | and _ hparts => exact hparts part hpart
  | or _ hparts _ => exact hparts part hpart
  | punctuated helement hseparator _ _ _ _ => exact hpair helement hseparator hpart
  | andWithArg hfirst hsecond _ => exact hpair hfirst hsecond hpart
  | repetition h _ _ => exact hsingle h hpart
  | optional h _ => exact hsingle h hpart
  | map h _ => exact hsingle h hpart
  | mapRange h => exact hsingle h hpart
  | mapRangeWith h _ => exact hsingle h hpart
  | discard h => exact hsingle h hpart
  | expected h _ => exact hsingle h hpart
  | name h _ => exact hsingle h hpart
  | peek h => exact hsingle h hpart
  | wrapper h => exact hsingle h hpart
  | item m => cases hpart
  | literal _ _ => cases hpart
  | start => cases hpart
  | finish => cases hpart
  | noOp => cases hpart
  | never n => cases hpart
  | abstract => cases hpart

theorem of_reaches (hg : g.WellFormed) (h : rule.WellFormed g) (hpart : g.Reaches rule part) :
    part.WellFormed g := by
  induction hpart with
  | refl => exact h
  | tail _ hmem ih => exact ih.of_mem_parts hg hmem

theorem length_eq_arity (hg : g.WellFormed) (h : rule.WellFormed g) (hvs : g.Succeeds rule vs) :
    (vs.length : Int) = rule.arity := by
  obtain ⟨path, fuel, c, arg, s, t, hrun⟩ := hvs
  exact Evaluation.gives_arity hg path fuel h c arg s _ t hrun

theorem arity_of_mem_taken (h : rule.WellFormed g) (hpart : part ∈ rule.taken) :
    part.WellFormed g ∧ part.arity = 1 := by
  cases h with
  | repetition h harity _ =>
    rw [List.mem_singleton.1 hpart]
    exact ⟨h, harity⟩
  | optional h harity =>
    rw [List.mem_singleton.1 hpart]
    exact ⟨h, harity⟩
  | punctuated he hs harity harity' _ _ =>
    rcases List.mem_cons.1 hpart with rfl | hpart
    · exact ⟨he, harity⟩
    · rw [List.mem_singleton.1 hpart]
      exact ⟨hs, harity'⟩
  | andWithArg h _ harity =>
    rw [List.mem_singleton.1 hpart]
    exact ⟨h, harity⟩
  | _ => cases hpart

end Rule.WellFormed

/-! ### A recursive grammar -/

/-- One character. -/
def dot : Rule := .item (.one (.str [46]))

/-- A dot, and possibly the first definition of the grammar. -/
def dotted : Rule := .and [.discard dot, .optional (.reference (some 0) 1)]

/-- The grammar whose one definition is a dot and possibly itself. -/
def dots : Grammar := ⟨#[⟨1, some dotted⟩]⟩

theorem accepted_dotted {g : Grammar} {d : Definition} (hd : g.definitions[0]? = some d)
    (harity : d.arity = 1) : dotted.Accepted g := by
  have hreference : Rule.Accepted g (.reference (some 0) 1) := by
    rw [← harity]
    exact .reference hd
  have hdiscard : Rule.makeDiscard (.rule dot) = .ok (.discard dot) := rfl
  have hoptional : Rule.makeOptional (.rule (.reference (some 0) 1)) =
      .ok (.optional (.reference (some 0) 1)) := rfl
  have hand : Rule.makeAnd [.rule (.discard dot), .rule (.optional (.reference (some 0) 1))] =
      .ok dotted := rfl
  refine .and (fun p hp => ?_) hand
  rcases List.mem_cons.1 hp with hp | hp
  · cases hp
    refine .discard (fun p hp => ?_) hdiscard
    cases hp
    exact .item _
  · cases List.mem_singleton.1 hp
    refine .optional (fun p hp => ?_) hoptional
    cases hp
    exact hreference

theorem accepted_dots : dots.Accepted := by
  have hdefine : (Grammar.empty.declare 1).define 0 (.rule dotted) = .ok dots := rfl
  refine .define (.declare .empty 1) (fun p hp => ?_) hdefine
  cases hp
  exact accepted_dotted (d := ⟨1, none⟩) rfl rfl

/-- The rules that evaluating the one definition of the grammar comes to. -/
theorem of_reaches_dotted {r : Rule} (h : dots.Reaches dotted r) :
    r = dotted ∨ r = .discard dot ∨ r = dot ∨
      r = .optional (.reference (some 0) 1) ∨ r = .reference (some 0) 1 := by
  induction h with
  | refl => exact .inl rfl
  | tail _ hmem ih =>
    rcases ih with rfl | rfl | rfl | rfl | rfl
    · rcases List.mem_cons.1 hmem with rfl | hmem
      · exact .inr (.inl rfl)
      · exact .inr (.inr (.inr (.inl (List.mem_singleton.1 hmem))))
    · exact .inr (.inr (.inl (List.mem_singleton.1 hmem)))
    · cases hmem
    · exact .inr (.inr (.inr (.inr (List.mem_singleton.1 hmem))))
    · exact .inl (List.mem_singleton.1 hmem)

end Backtrack
