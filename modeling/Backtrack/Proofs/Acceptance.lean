/-
Accepted rules: what the constructors make of accepted operands, references to definitions of the
grammar included, and the grammars that come of declaring definitions and of giving them accepted
rules. Accepted rules are well-formed, and every definition of an accepted grammar has a well-formed
rule of the declared arity, if it has one.
-/
import Backtrack.Proofs.WellFormed
namespace Backtrack

namespace Rule

/-! ## Accepted rules -/

/-- The rule is made by the constructors: out of accepted rules, references to definitions of the
grammar and references that are never bound. -/
inductive Accepted (g : Grammar) : Rule → Prop where
  | item (m : Matcher) : Accepted g (.item m)
  | seq {content : Value} {r : Rule} (h : makeSeq content = .ok r) : Accepted g r
  | start : Accepted g .start
  | finish : Accepted g .finish
  | noOp : Accepted g .noOp
  | never (n : Int) : Accepted g (.never n)
  | reference {id : Nat} {d : Definition} (h : g.definitions[id]? = some d) :
    Accepted g (.reference (some id) d.arity)
  | fresh (n : Int) : Accepted g (.reference none n)
  | and {operands : List Operand} {r : Rule} (hparts : ∀ p, .rule p ∈ operands → Accepted g p)
    (h : makeAnd operands = .ok r) : Accepted g r
  | or {operands : List Operand} {r : Rule} (hparts : ∀ p, .rule p ∈ operands → Accepted g p)
    (h : makeOr operands = .ok r) : Accepted g r
  | append {left right : Operand} {r : Rule} (hleft : ∀ p, left = .rule p → Accepted g p)
    (hright : ∀ p, right = .rule p → Accepted g p)
    (h : Rule.append left right = .ok (.rule r)) : Accepted g r
  | orElse {left right : Operand} {r : Rule} (hleft : ∀ p, left = .rule p → Accepted g p)
    (hright : ∀ p, right = .rule p → Accepted g p)
    (h : Rule.orElse left right = .ok (.rule r)) : Accepted g r
  | repetition {operand : Operand} {min : Int} {max : Option Int} {r : Rule}
    (hpart : ∀ p, operand = .rule p → Accepted g p) (h : makeRepeat operand min max = .ok r) :
    Accepted g r
  | optional {operand : Operand} {r : Rule} (hpart : ∀ p, operand = .rule p → Accepted g p)
    (h : makeOptional operand = .ok r) : Accepted g r
  | punctuated {element separator : Operand} {min : Int} {max : Option Int} {r : Rule}
    (helement : ∀ p, element = .rule p → Accepted g p)
    (hseparator : ∀ p, separator = .rule p → Accepted g p)
    (h : makePunctuated element separator min max = .ok r) : Accepted g r
  | andWithArg {first second : Operand} {r : Rule} (hfirst : ∀ p, first = .rule p → Accepted g p)
    (hsecond : ∀ p, second = .rule p → Accepted g p) (h : makeAndWithArg first second = .ok r) :
    Accepted g r
  | map {conversion : Conversion} {operand : Operand} {fn : Conversion.Operand} {withArg : Bool}
    {r : Rule} (hpart : ∀ p, operand = .rule p → Accepted g p)
    (h : makeMap conversion operand fn withArg = .ok r) : Accepted g r
  | mapRange {operand : Operand} {fn : Option Conversion.Operand} {r : Rule}
    (hpart : ∀ p, operand = .rule p → Accepted g p) (h : makeMapRange operand fn = .ok r) :
    Accepted g r
  | discard {operand : Operand} {r : Rule} (hpart : ∀ p, operand = .rule p → Accepted g p)
    (h : makeDiscard operand = .ok r) : Accepted g r
  | expected {operand : Operand} {what : Value} {r : Rule}
    (hpart : ∀ p, operand = .rule p → Accepted g p) (h : makeExpected operand what = .ok r) :
    Accepted g r
  | name {operand : Operand} {label : Value} {r : Rule}
    (hpart : ∀ p, operand = .rule p → Accepted g p) (h : makeName operand label = .ok r) :
    Accepted g r
  | peek {operand : Operand} {r : Rule} (hpart : ∀ p, operand = .rule p → Accepted g p)
    (h : makePeek operand = .ok r) : Accepted g r
  | wrapper {operand : Operand} {r : Rule} (hpart : ∀ p, operand = .rule p → Accepted g p)
    (h : makeWrapper operand = .ok r) : Accepted g r
  | abstract : Accepted g .abstract

theorem Accepted.wellFormed {g : Grammar} {r : Rule} (h : Accepted g r) : WellFormed g r := by
  induction h with
  | item m => exact .item m
  | seq h => exact wellFormed_of_makeSeq h
  | start => exact .start
  | finish => exact .finish
  | noOp => exact .noOp
  | never n => exact .never n
  | reference h => exact .reference h
  | fresh n => exact .fresh n
  | and _ h ih => exact wellFormed_of_makeAnd ih h
  | or _ h ih => exact wellFormed_of_makeOr ih h
  | append _ _ h ihl ihr => exact wellFormed_of_append ihl ihr h
  | orElse _ _ h ihl ihr => exact wellFormed_of_orElse ihl ihr h
  | repetition _ h ih => exact wellFormed_of_makeRepeat ih h
  | optional _ h ih => exact wellFormed_of_makeOptional ih h
  | punctuated _ _ h ihe ihs => exact wellFormed_of_makePunctuated ihe ihs h
  | andWithArg _ _ h ihf ihs => exact wellFormed_of_makeAndWithArg ihf ihs h
  | map _ h ih => exact wellFormed_of_makeMap ih h
  | mapRange _ h ih => exact wellFormed_of_makeMapRange ih h
  | discard _ h ih =>
    obtain ⟨p, hp, rfl⟩ := Except.of_map_eq_ok h
    exact .discard (ih p (Operand.eq_rule_of_require hp))
  | expected _ h ih =>
    obtain ⟨p, hp, rfl⟩ := Except.of_map_eq_ok h
    exact .expected (ih p (Operand.eq_rule_of_require hp)) _
  | name _ h ih =>
    obtain ⟨p, hp, rfl⟩ := Except.of_map_eq_ok h
    exact .name (ih p (Operand.eq_rule_of_require hp)) _
  | peek _ h ih =>
    obtain ⟨p, hp, rfl⟩ := Except.of_map_eq_ok h
    exact .peek (ih p (Operand.eq_rule_of_require hp))
  | wrapper _ h ih =>
    obtain ⟨p, hp, rfl⟩ := Except.of_map_eq_ok h
    exact .wrapper (ih p (Operand.eq_rule_of_require hp))
  | abstract => exact .abstract

end Rule

/-! ## Accepted grammars -/

namespace Grammar

/-- The grammar comes of declaring definitions and of giving them accepted rules. -/
inductive Accepted : Grammar → Prop where
  | empty : Accepted .empty
  | declare {g : Grammar} (h : Accepted g) (n : Int) : Accepted (g.declare n)
  | define {g g' : Grammar} {id : Nat} {operand : Operand} (h : Accepted g)
    (hrule : ∀ p, operand = .rule p → p.Accepted g) (hd : g.define id operand = .ok g') :
    Accepted g'

/-- Every definition that has its rule has a well-formed one of the declared arity. -/
def WellFormed (g : Grammar) : Prop :=
  ∀ (id : Nat) (d : Definition) (r : Rule), g.definitions[id]? = some d → d.rule = some r →
    r.WellFormed g ∧ r.arity = d.arity

theorem WellFormed.of_rule? {g : Grammar} (hg : g.WellFormed) {id : Nat} {r : Rule}
    (h : g.rule? id = some r) : r.WellFormed g := by
  cases hd : g.definitions[id]? with
  | none => simp [rule?, hd] at h
  | some d => exact (hg id d r hd (by simpa [rule?, hd] using h)).1

theorem declares_declare (g : Grammar) (n : Int) : g.Declares (g.declare n) := by
  intro id d hd
  obtain ⟨hlt, -⟩ := Array.getElem?_eq_some_iff.1 hd
  refine ⟨d, ?_, rfl⟩
  rw [declare, Array.getElem?_push, if_neg (by omega), hd]

/-- What giving a definition its rule does: nothing to a definition that the grammar lacks, and
else it fills in a rule of the declared arity. -/
theorem define_cases {g g' : Grammar} {id : Nat} {operand : Operand}
    (h : g.define id operand = .ok g') :
    ∃ r, operand = .rule r ∧ (g' = g ∨ ∃ d, g.definitions[id]? = some d ∧ r.arity = d.arity ∧
      g' = ⟨g.definitions.setIfInBounds id { d with rule := some r }⟩) := by
  obtain ⟨r, hr, h⟩ := Except.of_bind_eq_ok h
  refine ⟨r, Operand.eq_rule_of_require hr, ?_⟩
  cases hd : g.definitions[id]? with
  | none =>
    simp only [hd] at h
    cases h
    exact .inl rfl
  | some d =>
    simp only [hd] at h
    by_cases hbound : d.rule.isSome = true
    · simp only [hbound, if_true] at h
      cases h
    · simp only [hbound] at h
      by_cases harity : r.arity = d.arity
      · simp only [harity, ne_eq, not_true_eq_false, if_false] at h
        cases h
        exact .inr ⟨d, rfl, harity, rfl⟩
      · simp only [harity, ne_eq, not_false_eq_true, if_true] at h
        cases h

theorem WellFormed.declare {g : Grammar} (h : g.WellFormed) (n : Int) :
    (g.declare n).WellFormed := by
  intro id d r hd hr
  rw [Grammar.declare, Array.getElem?_push] at hd
  split at hd
  · cases hd
    cases hr
  · obtain ⟨hwell, harity⟩ := h id d r hd hr
    exact ⟨hwell.mono (g.declares_declare n), harity⟩

theorem WellFormed.define {g g' : Grammar} {id : Nat} {operand : Operand} (h : g.WellFormed)
    (hrule : ∀ p, operand = .rule p → p.WellFormed g) (hd : g.define id operand = .ok g') :
    g'.WellFormed := by
  obtain ⟨r, rfl, rfl | ⟨d, hold, harity, rfl⟩⟩ := define_cases hd
  · exact h
  · obtain ⟨hlt, -⟩ := Array.getElem?_eq_some_iff.1 hold
    have hdeclares : g.Declares ⟨g.definitions.setIfInBounds id { d with rule := some r }⟩ := by
      intro other e he
      by_cases hother : id = other
      · -- giving a definition its rule leaves its arity alone
        subst hother
        cases hold.symm.trans he
        exact ⟨{ d with rule := some r }, by simp [hlt], rfl⟩
      · exact ⟨e, by simp [hother, he], rfl⟩
    intro other e p he hp
    by_cases hother : id = other
    · -- the new rule was well-formed before, with references to the same arities
      subst hother
      have heq : e = { d with rule := some r } := by simpa [hlt] using he.symm
      subst heq
      cases hp
      exact ⟨(hrule r rfl).mono hdeclares, harity⟩
    · have he' : g.definitions[other]? = some e := by
        simpa [Array.getElem?_setIfInBounds, hother] using he
      obtain ⟨hwell, harity'⟩ := h other e p he' hp
      exact ⟨hwell.mono hdeclares, harity'⟩

theorem Accepted.wellFormed {g : Grammar} (h : Accepted g) : g.WellFormed := by
  induction h with
  | empty =>
    intro id d r hd
    simp [Grammar.empty] at hd
  | declare _ n ih => exact ih.declare n
  | define _ hrule hd ih => exact ih.define (fun p hp => (hrule p hp).wellFormed) hd

end Grammar
end Backtrack
