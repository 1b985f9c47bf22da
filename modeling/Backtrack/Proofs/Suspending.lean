/-
The suspending path is written out once more, and does what the rules do when they are read on it:
every suspending read is the read on the suspending path, every rule has the same flow, and so an
evaluation on the suspending path is the evaluation of the rule there.
-/
import Backtrack.Parse
import Mathlib.Tactic
namespace Backtrack

/-! ## Reads -/

theorem Stream.pullSuspending_eq_pull (amount : Int) : ∀ (feed : List Element) (s : Stream),
    pullSuspending amount feed s = pull amount feed s := by
  intro feed
  induction feed with
  | nil =>
    intro s
    rw [pullSuspending, pull]
    -- the two loops ask for the same bound from opposite sides
    by_cases h : amount ≤ s.available
    · rw [if_pos h, if_neg (by omega)]
    · rw [if_neg h, if_pos (by omega)]
  | cons e rest ih =>
    intro s
    by_cases h : amount ≤ s.available
    · have hfull : ¬s.available < amount := by omega
      cases e <;> rw [pullSuspending, if_neg hfull, pull, if_pos h]
    · have hmore : s.available < amount := by omega
      cases e with
      | stop => rw [pullSuspending, if_pos hmore, pull, if_neg h]
      | failing f => rw [pullSuspending, if_pos hmore, pull, if_neg h]
      | value v =>
        rw [pullSuspending, if_pos hmore, pull, if_neg h]
        cases contribution s.chunked v with
        | error f => rfl
        | ok vs => exact ih { s.advance rest with items := s.items ++ vs }

theorem Stream.fillSuspending_eq_fill (s : Stream) (amount : Int) :
    s.fillSuspending amount = s.fill .suspending amount := by
  have hsuspending : ¬(s.path = .suspending ∧ Path.suspending = .blocking) := by
    rintro ⟨-, h⟩
    cases h
  rw [fillSuspending, fill.eq_def s .suspending, if_neg hsuspending]
  cases h : s.path with
  | blocking =>
    have hblocking : ¬(s.path = .suspending ∧ Path.blocking = .blocking) := by
      rintro ⟨h', -⟩
      cases h.symm.trans h'
    exact if_neg hblocking
  | suspending => simp only [pullSuspending_eq_pull]

theorem Buffer.fillSuspending_eq_fill (amount : Int) (b : Buffer) :
    b.fillSuspending amount = b.fill .suspending amount := by
  cases b with
  | stream s => simp only [fillSuspending, fill, Stream.fillSuspending_eq_fill]
  | memory data start => rfl
  | irregular data start => rfl

theorem Source.fillSuspending_eq_fill (amount : Int) :
    fillSuspending amount = fill .suspending amount := by
  funext s
  rcases hfilled : s.buffer.fill .suspending amount with ⟨b, events, failure⟩
  have hsuspending : s.buffer.fillSuspending amount = (b, events, failure) :=
    (Buffer.fillSuspending_eq_fill amount s.buffer).trans hfilled
  cases failure <;> simp only [fillSuspending, fill, hfilled, hsuspending]

theorem Source.readSuspending_eq_read (c : Cursor) (amount : Int) :
    readSuspending c amount = read .suspending c amount := by
  simp only [readSuspending, read, fillSuspending_eq_fill]

namespace Evaluation.Suspending

/-! ## Rules -/

theorem item_eq (c : Cursor) (arg : Value) (m : Matcher) :
    item c arg m = Evaluation.item .suspending c arg m := by
  rw [item, Source.readSuspending_eq_read]
  exact bind_congr fun _ => rfl

theorem lookAhead_eq (c : Cursor) (expected : Sequence) : ∀ left index : Nat,
    lookAhead c expected index left = Evaluation.lookAhead .suspending c expected index left
  | 0, _ => rfl
  | left + 1, index => by
    rw [lookAhead, Source.readSuspending_eq_read]
    refine bind_congr fun items => ?_
    cases items.get? index with
    | none => rfl
    | some v =>
      cases expected.get? index with
      | none => rfl
      | some w => exact if_congr Iff.rfl (lookAhead_eq c expected left (index + 1)) rfl

theorem literal_eq (c : Cursor) (content : Value) :
    literal c content = Evaluation.literal .suspending c content := by
  refine bind_congr fun expected => ?_
  rw [lookAhead_eq]

theorem finish_eq (c : Cursor) : finish c = Evaluation.finish .suspending c := by
  rw [finish, Evaluation.finish, Source.readSuspending_eq_read]

theorem sequence_eq (run : Rule → Evaluation Outcome) : ∀ (rules : List Rule) (vs : List Value),
    sequence run vs rules = Evaluation.sequence run vs rules
  | [], _ => rfl
  | r :: rules, vs => by
    refine bind_congr fun outcome => ?_
    cases outcome with
    | mismatch m => rfl
    | success ws => exact sequence_eq run rules (vs ++ ws)

theorem choice_eq (run : Cursor → Rule → Evaluation Outcome) (c : Cursor) : ∀ rules : List Rule,
    choice run c rules = Evaluation.choice run c rules
  | [] => rfl
  | r :: rules => by
    refine bind_congr fun fork => bind_congr fun outcome => ?_
    cases outcome with
    | success vs => rfl
    | mismatch m => exact bind_congr fun _ => choice_eq run c rules

theorem repetition_eq (body : Evaluation Outcome) (min : Int) (max : Option Int) :
    ∀ (fuel : Nat) (count : Int) (reversed : List Value),
    repetition body min max fuel count reversed =
      Evaluation.repetition body min max fuel count reversed
  | 0, _, _ => rfl
  | fuel + 1, count, reversed => by
    rw [repetition, Evaluation.repetition]
    refine if_congr Iff.rfl rfl (bind_congr fun outcome => ?_)
    cases outcome with
    | mismatch m => rfl
    | success vs => exact bind_congr fun v => repetition_eq body min max fuel _ (v :: reversed)

theorem punctuatedRest_eq (pair : Evaluation (Except Mismatch (Value × Value))) (min : Int)
    (max : Option Int) : ∀ (fuel : Nat) (count : Int) (elements separators : List Value),
    punctuatedRest pair min max fuel count elements separators =
      Evaluation.punctuatedRest pair min max fuel count elements separators
  | 0, _, _, _ => rfl
  | fuel + 1, count, elements, separators => by
    rw [punctuatedRest, Evaluation.punctuatedRest]
    refine if_congr Iff.rfl rfl (bind_congr fun found => ?_)
    cases found with
    | error m => rfl
    | ok found => exact punctuatedRest_eq pair min max fuel _ _ _

theorem punctuated_eq (element separator : Cursor → Evaluation Outcome) (c : Cursor) (min : Int)
    (max : Option Int) (fuel : Nat) :
    punctuated element separator c min max fuel =
      Evaluation.punctuated element separator c min max fuel := by
  have hpair : separated element separator c = Evaluation.separated element separator c := rfl
  refine bind_congr fun outcome => ?_
  cases outcome with
  | mismatch m => rfl
  | success es =>
    refine bind_congr fun e => ?_
    rw [hpair, punctuatedRest_eq]

theorem optional_eq (body : Evaluation Outcome) :
    optional body = Evaluation.optional body := by
  refine bind_congr fun outcome => ?_
  cases outcome <;> rfl

theorem andWithArg_eq (first : Evaluation Outcome) (second : Value → Evaluation Outcome) :
    andWithArg first second = Evaluation.andWithArg first second := by
  refine bind_congr fun outcome => ?_
  cases outcome with
  | mismatch m => rfl
  | success vs =>
    refine bind_congr fun v => bind_congr fun outcome => ?_
    cases outcome <;> rfl

theorem mapRange_eq (body : Evaluation Outcome) (c : Cursor) (fn : Option Mapper) :
    mapRange body c fn = Evaluation.mapRange .suspending body c fn := by
  refine bind_congr fun first => bind_congr fun outcome => ?_
  cases outcome with
  | mismatch m => rfl
  | success vs => cases fn <;> rfl

theorem peek_eq (run : Cursor → Evaluation Outcome) (c : Cursor) :
    peek run c = Evaluation.peek run c := rfl

/-- An evaluation on the suspending path is the evaluation of the rule on that path. -/
theorem eval_eq (g : Grammar) : ∀ (fuel : Nat) (rule : Rule) (c : Cursor) (arg : Value),
    eval g fuel rule c arg = Evaluation.eval g .suspending fuel rule c arg
  | 0, _, _, _ => rfl
  | fuel + 1, rule, c, arg => by
    have ih := fun r c v => eval_eq g fuel r c v
    cases rule with
    | item m => exact item_eq c arg m
    | literal content => exact literal_eq c content
    | start => rfl
    | finish => exact finish_eq c
    | noOp => rfl
    | never n => rfl
    | reference target n =>
      rw [eval, Evaluation.eval]
      cases target.bind g.rule? with
      | none => rfl
      | some r => exact ih r c arg
    | and rules => simp only [eval, Evaluation.eval, sequence_eq, ih]
    | or rules => simp only [eval, Evaluation.eval, choice_eq, ih]
    | repetition r min max => simp only [eval, Evaluation.eval, repetition_eq, ih]
    | optional r => simp only [eval, Evaluation.eval, optional_eq, ih]
    | punctuated element separator min max =>
      simp only [eval, Evaluation.eval, punctuated_eq, ih]
    | andWithArg first second => simp only [eval, Evaluation.eval, andWithArg_eq, ih]
    | map conversion r fn withArg => simp only [eval, Evaluation.eval, ih]
    | mapRange r fn => simp only [eval, Evaluation.eval, mapRange_eq, ih]
    | discard r => simp only [eval, Evaluation.eval, ih]
    | expected r what => simp only [eval, Evaluation.eval, ih]
    | name r label => simp only [eval, Evaluation.eval, ih]
    | peek r => simp only [eval, Evaluation.eval, peek_eq, ih]
    | wrapper r => exact ih r c arg
    | abstract => rfl

theorem parse_eq (g : Grammar) (fuel : Nat) (rule : Rule) (c : Cursor) (arg : Value) :
    parse g fuel rule c arg = Evaluation.parse g .suspending fuel rule c arg := by
  simp only [parse, Evaluation.parse, eval_eq]

end Evaluation.Suspending
end Backtrack
