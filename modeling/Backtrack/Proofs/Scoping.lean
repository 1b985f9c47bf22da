/-
The argument is scoped lexically. A rule that does not read its argument is evaluated in the same way
under every argument: what it comes to, how far it goes and what it pulls are the same, and only the
journal may tell which argument a predicate was given that does not heed it. Within an evaluation the
argument changes in one place alone, from the first of two rules to the second. So every visit has the
argument that the evaluation began with, or the value that the nearest enclosing first rule gave, and
that is what it hands to its predicate or its mapper.
-/
import Backtrack.Proofs.Pairing
import Backtrack.Proofs.Raising
namespace Backtrack

open Evaluation

/-! ## Under any argument -/

/-- The same cursor of the same source. -/
def Pairing.identical : Pairing := ⟨fun d d' s s' => d' = d ∧ s' = s, False⟩

namespace Pairing

theorem agree_identical {d : Cursor} {ε α : Type} (ran : Except ε α × Source) :
    identical.Agree (identical.paired d d) ran ran := .inr ⟨ran.2, rfl, rfl, rfl⟩

/-- Whatever is done at the same cursor of the same source has the same result. -/
instance : identical.Lawful where
  settle h := by
    obtain ⟨rfl, rfl⟩ := h
    exact ⟨rfl, rfl⟩
  isClosed h := by
    obtain ⟨rfl, rfl⟩ := h
    rfl
  positionOf h := by
    obtain ⟨rfl, rfl⟩ := h
    rfl
  read h _ _ := by
    obtain ⟨rfl, rfl⟩ := h
    exact agree_identical _
  consume h _ := by
    obtain ⟨rfl, rfl⟩ := h
    exact agree_identical _
  addFork h _ := by
    obtain ⟨rfl, rfl⟩ := h
    exact ⟨rfl, rfl⟩
  left h := ⟨h.outer.1, h.inner.2⟩
  close h := by
    obtain ⟨⟨rfl, rfl⟩, -, -, -, rfl⟩ := h
    exact agree_identical _
  join h := by
    obtain ⟨⟨rfl, rfl⟩, -, -, -, rfl⟩ := h
    exact agree_identical _

end Pairing

/-- Under any two arguments evaluating the rule, from any cursor and state, ends in the same way and
leaves the same source. -/
def Grammar.IgnoresArgument (g : Grammar) (path : Path) (rule : Rule) : Prop :=
  ∀ (fuel : Nat) (c : Cursor) (arg arg' : Value) (s : State),
    ((evalOperand g path fuel (.rule rule) c arg').runFrom s).1 =
        ((evalOperand g path fuel (.rule rule) c arg).runFrom s).1 ∧
      ((evalOperand g path fuel (.rule rule) c arg').runFrom s).2.source =
        ((evalOperand g path fuel (.rule rule) c arg).runFrom s).2.source

theorem Grammar.ignoresArgument_of_not_reads {g : Grammar} {rule : Rule} (h : ¬ g.ReadsArgument rule)
    (path : Path) : g.IgnoresArgument path rule := by
  intro fuel c arg arg' s
  rw [evalOperand_rule, evalOperand_rule]
  rcases Pairing.Together.eval .identical g path fuel rule arg arg' (fun hreads => absurd hreads h)
    c c s s ⟨rfl, rfl⟩ with ⟨⟨⟩, -⟩ | ⟨t', hrun, -, hsource⟩
  rw [hrun]
  exact ⟨rfl, hsource⟩

/-- Of two rules the first alone reads the argument. -/
theorem Grammar.ReadsArgument.of_andWithArg {g : Grammar} {first second : Rule}
    (h : g.ReadsArgument (.andWithArg first second)) : g.ReadsArgument first := by
  obtain ⟨user, hreaches, huses⟩ := h
  rcases hreaches.cases_head with rfl | ⟨part, hpart, hrest⟩
  · cases huses
  · rw [List.mem_singleton.1 hpart] at hrest
    exact ⟨user, hrest, huses⟩

/-! ## Whose argument a visit has -/

namespace Evaluation.Visit

section

variable (g : Grammar) (path : Path)

/-- The parts of a visit that are made under its own argument: all, but of two rules the second. -/
def heirs (K : Visit) : List Visit :=
  match K.rule with
  | .andWithArg _ _ => (K.parts g path).take 1
  | _ => K.parts g path

/-- The visit `J` is made in the course of `K`, and no second of two rules lies between them. -/
def Inherits : Visit → Visit → Prop := Relation.ReflTransGen fun K J => J ∈ K.heirs g path

/-- The visit `J` is made by `K` under the value `v`, which the first of two rules gave to the
second. -/
inductive Rebinds (K : Visit) : (J : Visit) → (v : Value) → Prop where
  | second {first second : Rule} {v : Value} {vs : List Value} {t : State}
    (hrule : K.rule = .andWithArg first second)
    (hfirst : (K.part first K.cursor K.arg K.state).run g path = (.ok (.success (v :: vs)), t)) :
    Rebinds K (K.part second K.cursor v t) v

/-- What the visit calls is given the value `v` as the argument: a predicate is asked about the item
under it, and a mapper that wants the argument is applied to the values of the success with it behind
them. -/
structure ActsUnder (J : Visit) (v : Value) : Prop where
  arg : J.arg = v
  predicate {m : Matcher} {p : Predicate} {item : Value} {s : State} (htests : J.Tests path m item s)
    (hpredicate : m.predicate? = some p) : J.Asks g path m p item v s
  mapper {conversion : Conversion} {r : Rule} {fn : Mapper} {L : Visit} {vs : List Value} {s : State}
    (hrule : J.rule = .map conversion r fn true) (hpart : L ∈ J.parts g path)
    (hrun : L.run g path = (.ok (.success vs), s)) : J.Applies g path conversion fn (vs ++ [v]) s

end

variable {g : Grammar} {path : Path} {K L J : Visit} {s t : State}

/-! ### What a visit calls -/

variable (g path) in
/-- A visit acts under its own argument. -/
theorem actsUnder_arg (J : Visit) : J.ActsUnder g path J.arg :=
  ⟨rfl, fun htests hp => htests.asks hp, fun hrule hpart hrun =>
    (Maps.values hrule hpart hrun).applies⟩

/-! ### Where the argument comes from -/

variable (g path) in
/-- Of two rules the first is visited first, under the argument, and the second under the value that
the first gave. -/
theorem parts_of_andWithArg {first second : Rule} (hrule : K.rule = .andWithArg first second) :
    K.parts g path = [] ∨ ∃ seconds, K.parts g path = K.part first K.cursor K.arg K.state :: seconds ∧
      ∀ J ∈ seconds, ∃ v, K.Rebinds g path J v := by
  obtain ⟨_ | n, rule, c, arg, s⟩ := K
  · exact .inl rfl
  cases hrule
  refine .inr ⟨_, rfl, fun J hJ => ?_⟩
  obtain ⟨vs, t, hfirst, hJ⟩ := of_mem_onSuccess hJ
  obtain ⟨v, u, hvalue, hJ⟩ := of_mem_after hJ
  rw [List.mem_singleton.1 hJ]
  cases vs with
  | nil => cases hvalue
  | cons v vs =>
    cases hvalue
    exact ⟨_, .second rfl hfirst⟩

theorem arg_of_mem_heirs (h : J ∈ K.heirs g path) : J.arg = K.arg := by
  rw [heirs] at h
  split at h
  · rename_i hrule
    rcases parts_of_andWithArg g path hrule with hparts | ⟨seconds, hparts, -⟩
    · rw [hparts] at h
      cases h
    · rw [hparts] at h
      rw [List.mem_singleton.1 h]
      rfl
  · rename_i hrule
    obtain ⟨n, -, h⟩ := exists_fuel_of_mem_parts h
    rcases of_mem_partsBy h with ⟨r, -, d, t, rfl⟩ | ⟨first, second, v, t, heq, -⟩
    · rfl
    · exact absurd heq (hrule _ _)

/-- A part inherits the argument, or is made under what the first of two rules gave. -/
theorem mem_heirs_or_rebinds (h : J ∈ K.parts g path) :
    J ∈ K.heirs g path ∨ ∃ v, K.Rebinds g path J v := by
  rw [heirs]
  split
  · rename_i hrule
    rcases parts_of_andWithArg g path hrule with hparts | ⟨seconds, hparts, hseconds⟩
    · rw [hparts] at h
      cases h
    · rw [hparts] at h ⊢
      rcases List.mem_cons.1 h with rfl | hJ
      · exact .inl List.mem_cons_self
      · exact .inr (hseconds J hJ)
  · exact .inl h

theorem Inherits.arg (h : K.Inherits g path J) : J.arg = K.arg := by
  induction h with
  | refl => rfl
  | tail _ hmem ih => exact (arg_of_mem_heirs hmem).trans ih

/-- A visit in the course of another one inherits its argument from there, or from the visit that the
nearest enclosing first rule gave its value to. -/
theorem ComesTo.inherits (h : K.ComesTo g path J) :
    K.Inherits g path J ∨
      ∃ L M v, K.ComesTo g path L ∧ L.Rebinds g path M v ∧ M.Inherits g path J := by
  induction h with
  | refl => exact .inl .refl
  | @tail L J hL hmem ih =>
    rcases mem_heirs_or_rebinds hmem with hheir | ⟨v, hrebinds⟩
    · rcases ih with hinherits | ⟨N, M, v, hN, hrebinds, hinherits⟩
      · exact .inl (hinherits.tail hheir)
      · exact .inr ⟨N, M, v, hN, hrebinds, hinherits.tail hheir⟩
    · exact .inr ⟨L, J, v, hL, hrebinds, .refl⟩

end Evaluation.Visit

/-! ## Lexical scoping -/

open Evaluation (Visit)

/-- The argument is scoped lexically. A rule that does not read its argument is evaluated in the same
way under all; so are two rules of which the first does not. And whatever predicate or mapper is called
in the course of a visit is given the argument of that visit, or else the value of the nearest
enclosing first rule. The visits in the course of an evaluation are what it evaluates: what each of
them ends with depends on nothing else than what its parts end with. -/
theorem Grammar.argument_scoped (g : Grammar) (path : Path) :
    (∀ rule, ¬ g.ReadsArgument rule → g.IgnoresArgument path rule) ∧
    (∀ first second, ¬ g.ReadsArgument first → g.IgnoresArgument path (.andWithArg first second)) ∧
    (∀ K J : Visit, K.ComesTo g path J →
      (K.Inherits g path J ∧ J.ActsUnder g path K.arg) ∨
      ∃ L M v, K.ComesTo g path L ∧ L.Rebinds g path M v ∧ M.Inherits g path J ∧
        J.ActsUnder g path v) ∧
    ∀ (K : Visit) (n : Nat), K.fuel = n + 1 → K.state.source.Orderly → ∀ run' : Runner,
      (∀ J ∈ K.parts g path, J.runBy run' = J.run g path) →
      (layer g path run' n K.rule K.cursor K.arg).runFrom K.state =
        (eval g path K.fuel K.rule K.cursor K.arg).runFrom K.state := by
  refine ⟨fun rule h => ignoresArgument_of_not_reads h path, fun first second h => ?_, fun K J h => ?_,
    fun K n hfuel hs run' hsame => Visit.run_eq_of_parts hfuel hs hsame⟩
  · exact ignoresArgument_of_not_reads (fun hreads => h hreads.of_andWithArg) path
  · have hacts := J.actsUnder_arg g path
    rcases h.inherits with hinherits | ⟨L, M, v, hL, hrebinds, hinherits⟩
    · rw [hinherits.arg] at hacts
      exact .inl ⟨hinherits, hacts⟩
    · rw [hinherits.arg] at hacts
      cases hrebinds with
      | second hrule hfirst => exact .inr ⟨L, _, _, hL, .second hrule hfirst, hinherits, hacts⟩

/-- Passes an item that is the argument. -/
def echo : Predicate := .named "echo" fun item arg => .ok (.bool (item.eqv arg))

/-- The letter a, and the same letter once more. -/
def twice : Rule := .andWithArg (.item (.one (.str [97]))) (.item (.is echo))

theorem not_readsArgument_letter (g : Grammar) : ¬ g.ReadsArgument (.item (.one (.str [97]))) := by
  rintro ⟨user, hreaches, huses⟩
  rcases hreaches.cases_head with rfl | ⟨part, hpart, -⟩
  · obtain ⟨item, arg, arg', hne⟩ := huses
    exact hne rfl
  · cases hpart

/-- Over the text "aa" the second rule's predicate is given the first letter, whatever the argument of
the whole is; under none of its own would it pass. -/
theorem Grammar.argument_scoped_twice :
    (Grammar.mk #[]).IgnoresArgument .suspending twice ∧
    ∃ K J : Visit, K.rule = twice ∧ K.arg = .none ∧ K.ComesTo (.mk #[]) .blocking J ∧
      J.rule = .item (.is echo) ∧ J.arg = .str [97] ∧
      (J.run (.mk #[]) .blocking).2.journal.calls = #[⟨"echo", [.str [97], .str [97]]⟩] := by
  refine ⟨(argument_scoped (.mk #[]) .suspending).2.1 _ _ (not_readsArgument_letter _), ?_⟩
  let K : Visit := ⟨2, twice, .root, .none, .ofSource (.ofData (.str [97, 97]))⟩
  let t := ((eval (.mk #[]) .blocking 1 (.item (.one (.str [97]))) .root .none).runFrom K.state).2
  let J := K.part (.item (.is echo)) .root (.str [97]) t
  have hJ : J ∈ K.parts (.mk #[]) .blocking := List.mem_cons_of_mem _ (List.mem_singleton_self J)
  refine ⟨K, J, rfl, rfl, .single hJ, rfl, rfl, ?_⟩
  -- the argument of the whole is none, so it is the first rule that gave the letter
  rcases (argument_scoped (.mk #[]) .blocking).2.2.1 K J (.single hJ) with ⟨-, hacts⟩ |
    ⟨L, M, v, -, -, -, hacts⟩
  · cases hacts.arg
  · cases hacts.arg
    have htests : J.Tests .blocking (.is echo) (.str [97]) t := ⟨by decide, rfl, _, rfl, rfl⟩
    exact (hacts.predicate htests rfl).calls rfl

end Backtrack
