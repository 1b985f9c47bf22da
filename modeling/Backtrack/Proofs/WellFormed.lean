/-
Well-formed rules. Each constructor of rules is inverted once: what it makes out of well-formed
operands is well-formed, which keeps what its checks established. So a well-formed rule has parts of
the arities that its evaluation builds on, and mappers that take the values of their parts.
-/
import Backtrack.Grammar
import Mathlib.Tactic
namespace Backtrack

/-! ## Checks that were passed -/

theorem Except.of_bind_eq_ok {ε α β : Type} {x : Except ε α} {f : α → Except ε β} {b : β}
    (h : (x >>= f) = .ok b) : ∃ a, x = .ok a ∧ f a = .ok b := by
  cases x with
  | error e => cases h
  | ok a => exact ⟨a, rfl, h⟩

theorem Except.of_map_eq_ok {ε α β : Type} {x : Except ε α} {f : α → β} {b : β}
    (h : f <$> x = .ok b) : ∃ a, x = .ok a ∧ f a = b := by
  cases x with
  | error e => cases h
  | ok a =>
    cases h
    exact ⟨a, rfl, rfl⟩

theorem Operand.eq_rule_of_require {combinator : Text} {operand : Operand} {r : Rule}
    (h : operand.require combinator = .ok r) : operand = .rule r := by
  cases operand with
  | rule part =>
    cases h
    rfl
  | value v => cases h

theorem Operand.eq_map_of_requireAll {combinator : Text} : ∀ {operands : List Operand}
    {rules : List Rule}, requireAll combinator operands = .ok rules → operands = rules.map .rule
  | [], rules, h => by
    cases h
    rfl
  | operand :: operands, rules, h => by
    obtain ⟨r, hr, h⟩ := Except.of_bind_eq_ok h
    obtain ⟨rs, hrs, h⟩ := Except.of_bind_eq_ok h
    cases h
    rw [eq_rule_of_require hr, eq_map_of_requireAll hrs]
    rfl

/-- The mapper can be called with so many arguments, as far as its signature is known. -/
def Mapper.Takes (f : Mapper) (count : Nat) : Prop :=
  ∀ signature, f.signature = some signature → signature.accepts count = true

/-- Whatever is declared in one grammar is declared in the other, with the same arity. -/
def Grammar.Declares (g g' : Grammar) : Prop :=
  ∀ (id : Nat) (d : Definition), g.definitions[id]? = some d →
    ∃ d', g'.definitions[id]? = some d' ∧ d'.arity = d.arity

namespace Rule

theorem arity_of_requireSingle {combinator : Text} {r : Rule} {u : Unit}
    (h : requireSingle combinator r = .ok u) : r.arity = 1 := by
  unfold requireSingle at h
  split at h
  · assumption
  · cases h

theorem takes_of_checkMapper {combinator : Text} {count : Int} {operand : Conversion.Operand}
    {f : Mapper} (h : checkMapper combinator count operand = .ok f) : f.Takes count.toNat := by
  cases operand with
  | value v => cases h
  | mapper fn =>
    simp only [checkMapper] at h
    cases hsignature : fn.signature with
    | none =>
      simp only [hsignature] at h
      cases h
      intro signature hs
      rw [hsignature] at hs
      cases hs
    | some known =>
      simp only [hsignature] at h
      split at h
      · cases h
        intro signature hs
        rw [hsignature] at hs
        cases hs
        assumption
      · cases h

/-! ### Numbers each once -/

/-- Collecting numbers without repetition keeps those that are there and finds all. -/
theorem mem_foldl_distinct (n : Int) : ∀ (numbers kept : List Int),
    n ∈ numbers.foldl (fun kept n => if kept.contains n then kept else n :: kept) kept ↔
      n ∈ kept ∨ n ∈ numbers
  | [], kept => by simp
  | m :: numbers, kept => by
    rw [List.foldl_cons, mem_foldl_distinct n numbers]
    by_cases h : kept.contains m = true
    · rw [if_pos h]
      have hm : m ∈ kept := by simpa using h
      constructor
      · rintro (hn | hn)
        · exact .inl hn
        · exact .inr (List.mem_cons_of_mem m hn)
      · rintro (hn | hn)
        · exact .inl hn
        · rcases List.mem_cons.1 hn with rfl | hn
          · exact .inl hm
          · exact .inr hn
    · rw [if_neg h]
      simp only [List.mem_cons]
      tauto

/-- Where no more than one number is left of several, they are all the same. -/
theorem eq_of_sortedDistinct {numbers : List Int} (h : (sortedDistinct numbers).length ≤ 1)
    {m n : Int} (hm : m ∈ numbers) (hn : n ∈ numbers) : m = n := by
  have hmem : ∀ k ∈ numbers, k ∈ sortedDistinct numbers := by
    intro k hk
    rw [sortedDistinct, List.mem_mergeSort, mem_foldl_distinct]
    exact .inr hk
  have hm' := hmem m hm
  have hn' := hmem n hn
  revert h hm' hn'
  generalize sortedDistinct numbers = distinct
  intro h hm' hn'
  rcases distinct with _ | ⟨k, _ | ⟨k', rest⟩⟩
  · cases hm'
  · rw [List.mem_singleton.1 hm', List.mem_singleton.1 hn']
  · simp at h

/-! ## Well-formed rules -/

/-- The rule has what its evaluation builds on: parts of the right arities, mappers that take the
values of their parts, bounds in order, and references of the arities that the grammar declares. -/
inductive WellFormed (g : Grammar) : Rule → Prop where
  | item (m : Matcher) : WellFormed g (.item m)
  | literal {content : Value} {size : Nat} (hsize : content.length = .ok size)
    (hpos : size ≠ 0) : WellFormed g (.literal content)
  | start : WellFormed g .start
  | finish : WellFormed g .finish
  | noOp : WellFormed g .noOp
  | never (n : Int) : WellFormed g (.never n)
  | reference {id : Nat} {d : Definition} (h : g.definitions[id]? = some d) :
    WellFormed g (.reference (some id) d.arity)
  | fresh (n : Int) : WellFormed g (.reference none n)
  | and {rules : List Rule} (hne : rules ≠ []) (hparts : ∀ r ∈ rules, WellFormed g r) :
    WellFormed g (.and rules)
  | or {rules : List Rule} (hne : rules ≠ []) (hparts : ∀ r ∈ rules, WellFormed g r)
    (hsame : ∀ r ∈ rules, r.arity = (Rule.or rules).arity) : WellFormed g (.or rules)
  | repetition {r : Rule} {min : Int} {max : Option Int} (hpart : WellFormed g r)
    (harity : r.arity = 1) (hbounds : checkBounds min max = .ok ()) :
    WellFormed g (.repetition r min max)
  | optional {r : Rule} (hpart : WellFormed g r) (harity : r.arity = 1) :
    WellFormed g (.optional r)
  | punctuated {element separator : Rule} {min : Int} {max : Option Int}
    (helement : WellFormed g element) (hseparator : WellFormed g separator)
    (harity : element.arity = 1) (harity' : separator.arity = 1)
    (hbounds : checkBounds min max = .ok ()) (hmax : ∀ most, max = some most → 1 ≤ most) :
    WellFormed g (.punctuated element separator min max)
  | andWithArg {first second : Rule} (hfirst : WellFormed g first)
    (hsecond : WellFormed g second) (harity : first.arity = 1) :
    WellFormed g (.andWithArg first second)
  | map {conversion : Conversion} {r : Rule} {fn : Mapper} {withArg : Bool}
    (hpart : WellFormed g r) (hfn : fn.Takes (r.arity + if withArg then 1 else 0).toNat) :
    WellFormed g (.map conversion r fn withArg)
  | mapRange {r : Rule} (hpart : WellFormed g r) : WellFormed g (.mapRange r none)
  | mapRangeWith {r : Rule} {fn : Mapper} (hpart : WellFormed g r)
    (hfn : fn.Takes (r.arity + 1).toNat) : WellFormed g (.mapRange r (some fn))
  | discard {r : Rule} (hpart : WellFormed g r) : WellFormed g (.discard r)
  | expected {r : Rule} (hpart : WellFormed g r) (what : Value) : WellFormed g (.expected r what)
  | name {r : Rule} (hpart : WellFormed g r) (label : Value) : WellFormed g (.name r label)
  | peek {r : Rule} (hpart : WellFormed g r) : WellFormed g (.peek r)
  | wrapper {r : Rule} (hpart : WellFormed g r) : WellFormed g (.wrapper r)
  | abstract : WellFormed g .abstract

/-- Well-formedness of rules does not depend on more than what is declared. -/
theorem WellFormed.mono {g g' : Grammar} (hg : g.Declares g') {r : Rule}
    (h : r.WellFormed g) : r.WellFormed g' := by
  induction h with
  | item m => exact .item m
  | literal hsize hpos => exact .literal hsize hpos
  | start => exact .start
  | finish => exact .finish
  | noOp => exact .noOp
  | never n => exact .never n
  | reference h =>
    obtain ⟨d', hd', harity⟩ := hg _ _ h
    rw [← harity]
    exact .reference hd'
  | fresh n => exact .fresh n
  | and hne _ ih => exact .and hne ih
  | or hne _ hsame ih => exact .or hne ih hsame
  | repetition _ harity hbounds ih => exact .repetition ih harity hbounds
  | optional _ harity ih => exact .optional ih harity
  | punctuated _ _ harity harity' hbounds hmax ihe ihs =>
    exact .punctuated ihe ihs harity harity' hbounds hmax
  | andWithArg _ _ harity ihf ihs => exact .andWithArg ihf ihs harity
  | map _ hfn ih => exact .map ih hfn
  | mapRange _ ih => exact .mapRange ih
  | mapRangeWith _ hfn ih => exact .mapRangeWith ih hfn
  | discard _ ih => exact .discard ih
  | expected _ what ih => exact .expected ih what
  | name _ label ih => exact .name ih label
  | peek _ ih => exact .peek ih
  | wrapper _ ih => exact .wrapper ih
  | abstract => exact .abstract

/-! ### Constructors make well-formed rules -/

section Constructors

variable {g : Grammar} {r : Rule} {operand : Operand}

theorem wellFormed_of_makeSeq {content : Value} (h : makeSeq content = .ok r) :
    WellFormed g r := by
  obtain ⟨size, hsize, h⟩ := Except.of_bind_eq_ok h
  by_cases hzero : size = 0
  · subst hzero
    cases h
  · simp only [hzero, if_false] at h
    cases h
    exact .literal hsize hzero

theorem wellFormed_of_makeAnd {operands : List Operand}
    (hparts : ∀ p, .rule p ∈ operands → WellFormed g p) (h : makeAnd operands = .ok r) :
    WellFormed g r := by
  rcases operands with _ | ⟨operand, operands⟩
  · cases h
  · obtain ⟨rules, hrules, h⟩ := Except.of_bind_eq_ok h
    cases h
    have heq := Operand.eq_map_of_requireAll hrules
    refine .and ?_ fun p hp => hparts p ?_
    · rintro rfl
      cases heq
    · rw [heq]
      exact List.mem_map_of_mem hp

theorem wellFormed_of_makeOr {operands : List Operand}
    (hparts : ∀ p, .rule p ∈ operands → WellFormed g p) (h : makeOr operands = .ok r) :
    WellFormed g r := by
  rcases operands with _ | ⟨operand, operands⟩
  · cases h
  · obtain ⟨rules, hrules, h⟩ := Except.of_bind_eq_ok h
    have heq := Operand.eq_map_of_requireAll hrules
    by_cases hmany : 1 < (sortedDistinct (rules.map arity)).length
    · simp only [hmany, if_true] at h
      cases h
    · simp only [hmany, if_false] at h
      cases h
      rcases rules with _ | ⟨first, rest⟩
      · cases heq
      · refine .or (by simp) (fun p hp => hparts p ?_) fun p hp => ?_
        · rw [heq]
          exact List.mem_map_of_mem hp
        · have hfirst : (Rule.or (first :: rest)).arity ∈ (first :: rest).map arity := by
            simp [arity, arityOfFirst]
          exact eq_of_sortedDistinct (Nat.le_of_not_lt hmany) (List.mem_map_of_mem hp) hfirst

theorem WellFormed.of_mem_and {rules : List Rule} (h : WellFormed g (.and rules)) :
    ∀ p ∈ rules, WellFormed g p := by
  cases h with
  | and _ hparts => exact hparts

theorem WellFormed.of_mem_or {rules : List Rule} (h : WellFormed g (.or rules)) :
    ∀ p ∈ rules, WellFormed g p := by
  cases h with
  | or _ hparts _ => exact hparts

/-- The rules of a sequence or a choice with a further operand behind them. -/
theorem wellFormed_of_mem_append {rules : List Rule} {right : Operand}
    (hrules : ∀ p ∈ rules, WellFormed g p) (hright : ∀ p, right = .rule p → WellFormed g p) :
    ∀ p, .rule p ∈ rules.map Operand.rule ++ [right] → WellFormed g p := by
  intro p hp
  rcases List.mem_append.1 hp with hp | hp
  · obtain ⟨q, hq, heq⟩ := List.mem_map.1 hp
    cases heq
    exact hrules p hq
  · exact hright p (List.mem_singleton.1 hp).symm

theorem wellFormed_of_append {left right : Operand}
    (hleft : ∀ p, left = .rule p → WellFormed g p) (hright : ∀ p, right = .rule p → WellFormed g p)
    (h : append left right = .ok (.rule r)) : WellFormed g r := by
  have hmade : ∀ {rules : List Rule}, (∀ p ∈ rules, WellFormed g p) →
      Operand.rule <$> makeAnd (rules.map .rule ++ [right]) = .ok (.rule r) → WellFormed g r := by
    intro rules hrules h
    obtain ⟨_, hand, ⟨rfl⟩⟩ := Except.of_map_eq_ok h
    exact wellFormed_of_makeAnd (wellFormed_of_mem_append hrules hright) hand
  cases left with
  | value v =>
    cases right with
    | rule p => cases h
    | value w =>
      obtain ⟨_, -, hsum⟩ := Except.of_map_eq_ok h
      cases hsum
  | rule p =>
    have hsingle : ∀ q ∈ [p], WellFormed g q := by simpa using hleft
    cases p with
    | and rules => exact hmade (hleft _ rfl).of_mem_and h
    | _ => exact hmade hsingle h

theorem wellFormed_of_orElse {left right : Operand}
    (hleft : ∀ p, left = .rule p → WellFormed g p) (hright : ∀ p, right = .rule p → WellFormed g p)
    (h : orElse left right = .ok (.rule r)) : WellFormed g r := by
  have hmade : ∀ {rules : List Rule}, (∀ p ∈ rules, WellFormed g p) →
      Operand.rule <$> makeOr (rules.map .rule ++ [right]) = .ok (.rule r) → WellFormed g r := by
    intro rules hrules h
    obtain ⟨_, hor, ⟨rfl⟩⟩ := Except.of_map_eq_ok h
    exact wellFormed_of_makeOr (wellFormed_of_mem_append hrules hright) hor
  cases left with
  | value v => cases h
  | rule p =>
    have hsingle : ∀ q ∈ [p], WellFormed g q := by simpa using hleft
    cases p with
    | or rules => exact hmade (hleft _ rfl).of_mem_or h
    | _ => exact hmade hsingle h

theorem wellFormed_of_makeRepeat {min : Int} {max : Option Int}
    (hpart : ∀ p, operand = .rule p → WellFormed g p) (h : makeRepeat operand min max = .ok r) :
    WellFormed g r := by
  obtain ⟨p, hp, h⟩ := Except.of_bind_eq_ok h
  obtain ⟨u, hu, h⟩ := Except.of_bind_eq_ok h
  obtain ⟨⟨⟩, hbounds, h⟩ := Except.of_bind_eq_ok h
  cases h
  exact .repetition (hpart p (Operand.eq_rule_of_require hp)) (arity_of_requireSingle hu) hbounds

theorem wellFormed_of_makeOptional (hpart : ∀ p, operand = .rule p → WellFormed g p)
    (h : makeOptional operand = .ok r) : WellFormed g r := by
  obtain ⟨p, hp, h⟩ := Except.of_bind_eq_ok h
  obtain ⟨u, hu, h⟩ := Except.of_bind_eq_ok h
  cases h
  exact .optional (hpart p (Operand.eq_rule_of_require hp)) (arity_of_requireSingle hu)

theorem wellFormed_of_makePunctuated {element separator : Operand} {min : Int} {max : Option Int}
    (helement : ∀ p, element = .rule p → WellFormed g p)
    (hseparator : ∀ p, separator = .rule p → WellFormed g p)
    (h : makePunctuated element separator min max = .ok r) : WellFormed g r := by
  obtain ⟨e, he, h⟩ := Except.of_bind_eq_ok h
  obtain ⟨s, hs, h⟩ := Except.of_bind_eq_ok h
  obtain ⟨u, hu, h⟩ := Except.of_bind_eq_ok h
  obtain ⟨u', hu', h⟩ := Except.of_bind_eq_ok h
  obtain ⟨⟨⟩, hbounds, h⟩ := Except.of_bind_eq_ok h
  have hmax : (∀ most, max = some most → 1 ≤ most) ∧ punctuated e s min max = r := by
    cases max with
    | none =>
      cases h
      exact ⟨by simp, rfl⟩
    | some most =>
      by_cases hmost : most < 1
      · simp only [hmost, if_true] at h
        cases h
      · simp only [hmost, if_false] at h
        cases h
        refine ⟨?_, rfl⟩
        rintro _ ⟨rfl⟩
        omega
  obtain ⟨hmax, rfl⟩ := hmax
  exact .punctuated (helement e (Operand.eq_rule_of_require he))
    (hseparator s (Operand.eq_rule_of_require hs)) (arity_of_requireSingle hu)
    (arity_of_requireSingle hu') hbounds hmax

theorem wellFormed_of_makeAndWithArg {first second : Operand}
    (hfirst : ∀ p, first = .rule p → WellFormed g p)
    (hsecond : ∀ p, second = .rule p → WellFormed g p)
    (h : makeAndWithArg first second = .ok r) : WellFormed g r := by
  obtain ⟨p, hp, h⟩ := Except.of_bind_eq_ok h
  obtain ⟨s, hs, h⟩ := Except.of_bind_eq_ok h
  obtain ⟨u, hu, h⟩ := Except.of_bind_eq_ok h
  cases h
  exact .andWithArg (hfirst p (Operand.eq_rule_of_require hp))
    (hsecond s (Operand.eq_rule_of_require hs)) (arity_of_requireSingle hu)

theorem wellFormed_of_makeMap {conversion : Conversion} {fn : Conversion.Operand} {withArg : Bool}
    (hpart : ∀ p, operand = .rule p → WellFormed g p)
    (h : makeMap conversion operand fn withArg = .ok r) : WellFormed g r := by
  obtain ⟨p, hp, h⟩ := Except.of_bind_eq_ok h
  obtain ⟨f, hf, h⟩ := Except.of_bind_eq_ok h
  cases h
  exact .map (hpart p (Operand.eq_rule_of_require hp)) (takes_of_checkMapper hf)

theorem wellFormed_of_makeMapRange {fn : Option Conversion.Operand}
    (hpart : ∀ p, operand = .rule p → WellFormed g p) (h : makeMapRange operand fn = .ok r) :
    WellFormed g r := by
  obtain ⟨p, hp, h⟩ := Except.of_bind_eq_ok h
  have hp' := hpart p (Operand.eq_rule_of_require hp)
  split at h
  · cases h
    exact .mapRange hp'
  · cases h
    exact .mapRange hp'
  · obtain ⟨f, hf, h⟩ := Except.of_bind_eq_ok h
    cases h
    exact .mapRangeWith hp' (takes_of_checkMapper hf)

end Constructors

end Rule
end Backtrack
