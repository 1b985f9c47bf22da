/-
The visits of an evaluation. Evaluating a rule evaluates parts of it, one after another, each at a
cursor, under an argument and from a state; such an evaluation of a rule is a visit. The parts of a
visit are listed in the order in which they are made, as the combinators make them, so that an
evaluation comes to exactly those visits that are parts of it, parts of these, and so on. A visit
raises a failure itself, and not in one of its parts, where it tests an item that it has read, hands
the values of its part to a mapper, expects what does not match, or reads a feed.
-/
import Backtrack.Proofs.Arity
namespace Backtrack

/-- The predicate that a test calls, if it calls one. -/
def Matcher.predicate? : Matcher → Option Predicate
  | is p | not p => some p
  | isMatch m | notMatch m => predicate? m
  | anyOf _ | one _ | abstract => none

/-- Whether a test passes what its predicate denies. -/
def Matcher.negates : Matcher → Bool
  | not _ => true
  | isMatch m => negates m
  | notMatch m => !negates m
  | is _ | anyOf _ | one _ | abstract => false

/-- What a test finds that looks the item up in a collection, if it is such a test. -/
def Matcher.lookup? (item : Value) : Matcher → Option (Except Failure Bool)
  | anyOf members => some (members.contains item)
  | one v => some (Members.ofList [v] >>= (·.contains item))
  | isMatch m | notMatch m => lookup? item m
  | is _ | not _ | abstract => none

namespace Evaluation

/-- A way of evaluating rules: each at a cursor and under an argument. -/
abbrev Runner := Rule → Cursor → Value → Evaluation Outcome

/-- One evaluation of a rule: with how much fuel, at which cursor, under which argument, and from
which state. -/
structure Visit where
  fuel : Nat
  rule : Rule
  cursor : Cursor
  arg : Value
  state : State

namespace Visit

/-- What the visit ends with if rules are evaluated by `run`. -/
def runBy (run : Runner) (J : Visit) : Except Halt Outcome × State :=
  (run J.rule J.cursor J.arg).runFrom J.state

/-- The visit of a part, with what fuel is left. -/
def part (K : Visit) (r : Rule) (c : Cursor) (arg : Value) (s : State) : Visit :=
  ⟨K.fuel - 1, r, c, arg, s⟩

/-! ## Visits one after another -/

/-- The visits that follow a run which gave something; none follow a halt. -/
def after {α : Type} : Except Halt α × State → (α → State → List Visit) → List Visit
  | (.ok a, t), next => next a t
  | (.error _, _), _ => []

/-- The visits that follow a run which succeeded; none follow a mismatch. -/
def onSuccess (ran : Except Halt Outcome × State) (next : List Value → State → List Visit) :
    List Visit :=
  after ran fun outcome t =>
    match outcome with
    | .success vs => next vs t
    | .mismatch _ => []

/-- The visits that follow a run which mismatched; none follow a success. -/
def onMismatch (ran : Except Halt Outcome × State) (next : State → List Visit) : List Visit :=
  after ran fun outcome t =>
    match outcome with
    | .success _ => []
    | .mismatch _ => next t

section

variable (run : Runner) (K : Visit)

/-- Of rules one after another each is visited if all before it succeeded. -/
def ofSequence : List Rule → State → List Visit
  | [], _ => []
  | r :: rs, s =>
    let J := K.part r K.cursor K.arg s
    J :: onSuccess (J.runBy run) fun _ t => ofSequence rs t

/-- Of alternatives each is visited in a fork of its own if all before it mismatched. -/
def ofChoice : List Rule → State → List Visit
  | [], _ => []
  | r :: rs, s =>
    after ((onSource (Source.fork K.cursor)).runFrom s) fun fork t =>
      let J := K.part r fork K.arg t
      J :: onMismatch (J.runBy run) fun u =>
        after ((onSource (Source.close fork)).runFrom u) fun _ v => ofChoice rs v

/-- The body of a repetition is visited until it is full or the body fails to succeed. -/
def ofRepetition (r : Rule) (max : Option Int) : (fuel : Nat) → (count : Int) → State → List Visit
  | 0, _, _ => []
  | fuel + 1, count, s =>
    if isFull max count then []
    else
      let J := K.part r K.cursor K.arg s
      J :: onSuccess (J.runBy run) fun vs t =>
        after ((firstValue vs).runFrom t) fun _ t => ofRepetition r max fuel (count + 1) t

/-- A separator is visited in a fork, and in the same fork the element if the separator
succeeded. -/
def ofSeparated (element separator : Rule) (s : State) : List Visit :=
  after ((onSource (Source.fork K.cursor)).runFrom s) fun fork t =>
    let J := K.part separator fork K.arg t
    J :: onSuccess (J.runBy run) fun _ u => [K.part element fork K.arg u]

/-- The pairs of separator and element as they are evaluated by `run`. -/
def pairBy (element separator : Rule) : Evaluation (Except Mismatch (Value × Value)) :=
  separated (fun c => run element c K.arg) (fun c => run separator c K.arg) K.cursor

/-- Pairs of separator and element are visited until the list is full or a pair is not found. -/
def ofPairs (element separator : Rule) (max : Option Int) :
    (fuel : Nat) → (count : Int) → State → List Visit
  | 0, _, _ => []
  | fuel + 1, count, s =>
    if isFull max count then []
    else
      K.ofSeparated run element separator s ++
        after ((K.pairBy run element separator).runFrom s) fun found t =>
          match found with
          | .ok _ => ofPairs element separator max fuel (count + 1) t
          | .error _ => []

/-- The first element is visited, and then pairs of separator and element. -/
def ofPunctuated (element separator : Rule) (max : Option Int) : List Visit :=
  let J := K.part element K.cursor K.arg K.state
  J :: onSuccess (J.runBy run) fun vs t =>
    after ((firstValue vs).runFrom t) fun _ t =>
      K.ofPairs run element separator max (K.fuel - 1) 1 t

/-- The first rule is visited, and then the second under the first value. -/
def ofAndWithArg (first second : Rule) : List Visit :=
  let J := K.part first K.cursor K.arg K.state
  J :: onSuccess (J.runBy run) fun vs t =>
    after ((firstValue vs).runFrom t) fun v t => [K.part second K.cursor v t]

/-- The rule looked ahead with is visited in a fork. -/
def ofPeek (r : Rule) : List Visit :=
  after ((onSource (Source.fork K.cursor)).runFrom K.state) fun fork t =>
    [K.part r fork K.arg t]

end

/-! ## The visits of a rule -/

/-- The visits that a visit makes itself if the parts of its rule are evaluated by `run`. -/
def partsBy (g : Grammar) (run : Runner) (K : Visit) : List Visit :=
  match K.rule with
  | .item _ | .literal _ | .start | .finish | .noOp | .never _ | .abstract => []
  | .reference target _ =>
    (target.bind g.rule?).toList.map fun r => K.part r K.cursor K.arg K.state
  | .and rules => K.ofSequence run rules K.state
  | .or rules => K.ofChoice run rules K.state
  | .repetition r _ max => K.ofRepetition run r max (K.fuel - 1) 0 K.state
  | .punctuated element separator _ max => K.ofPunctuated run element separator max
  | .andWithArg first second => K.ofAndWithArg run first second
  | .peek r => K.ofPeek r
  | .optional r | .map _ r _ _ | .mapRange r _ | .discard r | .expected r _ | .name r _
  | .wrapper r => [K.part r K.cursor K.arg K.state]

variable (g : Grammar) (path : Path)

/-- What the visit ends with. -/
def run (K : Visit) : Except Halt Outcome × State := K.runBy (eval g path K.fuel)

/-- The visits that the visit makes itself, in their order. -/
def parts (K : Visit) : List Visit :=
  match K.fuel with
  | 0 => []
  | fuel + 1 => K.partsBy g (eval g path fuel)

/-- In the course of the one visit the other is made. -/
def ComesTo : Visit → Visit → Prop :=
  Relation.ReflTransGen fun K J => J ∈ K.parts g path

/-! ### What is visited -/

variable {g path} {K J : Visit} {run : Runner}

/-- The visit is one of a rule among those given, under the argument of `K` itself. -/
def IsHeir (K : Visit) (rules : List Rule) (J : Visit) : Prop :=
  ∃ r ∈ rules, ∃ c s, J = K.part r c K.arg s

theorem IsHeir.mono {rules rules' : List Rule} (h : K.IsHeir rules J) (hsub : rules ⊆ rules') :
    K.IsHeir rules' J := by
  obtain ⟨r, hr, c, s, rfl⟩ := h
  exact ⟨r, hsub hr, c, s, rfl⟩

theorem isHeir_part {r : Rule} {rules : List Rule} (hr : r ∈ rules) (c : Cursor) (s : State) :
    K.IsHeir rules (K.part r c K.arg s) := ⟨r, hr, c, s, rfl⟩

theorem of_mem_after {α : Type} {ran : Except Halt α × State} {M : α → State → List Visit}
    (h : J ∈ after ran M) : ∃ a t, ran = (.ok a, t) ∧ J ∈ M a t := by
  rcases ran with ⟨e | a, t⟩
  · cases h
  · exact ⟨a, t, rfl, h⟩

theorem of_mem_onSuccess {ran : Except Halt Outcome × State} {M : List Value → State → List Visit}
    (h : J ∈ onSuccess ran M) : ∃ vs t, ran = (.ok (.success vs), t) ∧ J ∈ M vs t := by
  obtain ⟨o, t, hran, h⟩ := of_mem_after h
  cases o with
  | success vs => exact ⟨vs, t, hran, h⟩
  | mismatch m => cases h

theorem of_mem_onMismatch {ran : Except Halt Outcome × State} {M : State → List Visit}
    (h : J ∈ onMismatch ran M) : ∃ m t, ran = (.ok (.mismatch m), t) ∧ J ∈ M t := by
  obtain ⟨o, t, hran, h⟩ := of_mem_after h
  cases o with
  | success vs => cases h
  | mismatch m => exact ⟨m, t, hran, h⟩

theorem isHeir_of_mem_ofSequence : ∀ {rules : List Rule} {s : State},
    J ∈ K.ofSequence run rules s → K.IsHeir rules J
  | r :: rs, s, h => by
    rcases List.mem_cons.1 h with rfl | h
    · exact isHeir_part List.mem_cons_self _ _
    · obtain ⟨vs, t, -, h⟩ := of_mem_onSuccess h
      exact (isHeir_of_mem_ofSequence h).mono (List.subset_cons_self r rs)

theorem isHeir_of_mem_ofChoice : ∀ {rules : List Rule} {s : State},
    J ∈ K.ofChoice run rules s → K.IsHeir rules J
  | r :: rs, s, h => by
    obtain ⟨fork, t, -, h⟩ := of_mem_after h
    rcases List.mem_cons.1 h with rfl | h
    · exact isHeir_part List.mem_cons_self _ _
    · obtain ⟨m, u, -, h⟩ := of_mem_onMismatch h
      obtain ⟨_, v, -, h⟩ := of_mem_after h
      exact (isHeir_of_mem_ofChoice h).mono (List.subset_cons_self r rs)

theorem isHeir_of_mem_ofRepetition {r : Rule} {max : Option Int} :
    ∀ {fuel : Nat} {count : Int} {s : State},
    J ∈ K.ofRepetition run r max fuel count s → K.IsHeir [r] J
  | fuel + 1, count, s, h => by
    rw [ofRepetition] at h
    split at h
    · cases h
    · rcases List.mem_cons.1 h with rfl | h
      · exact isHeir_part (List.mem_singleton_self r) _ _
      · obtain ⟨vs, t, -, h⟩ := of_mem_onSuccess h
        obtain ⟨v, u, -, h⟩ := of_mem_after h
        exact isHeir_of_mem_ofRepetition h

theorem isHeir_of_mem_ofSeparated {element separator : Rule} {s : State}
    (h : J ∈ K.ofSeparated run element separator s) : K.IsHeir [element, separator] J := by
  obtain ⟨fork, t, -, h⟩ := of_mem_after h
  rcases List.mem_cons.1 h with rfl | h
  · exact isHeir_part (by simp) _ _
  · obtain ⟨vs, u, -, h⟩ := of_mem_onSuccess h
    rw [List.mem_singleton.1 h]
    exact isHeir_part (by simp) _ _

theorem isHeir_of_mem_ofPairs {element separator : Rule} {max : Option Int} :
    ∀ {fuel : Nat} {count : Int} {s : State},
    J ∈ K.ofPairs run element separator max fuel count s → K.IsHeir [element, separator] J
  | fuel + 1, count, s, h => by
    rw [ofPairs] at h
    split at h
    · cases h
    · rcases List.mem_append.1 h with h | h
      · exact isHeir_of_mem_ofSeparated h
      · obtain ⟨found, t, -, h⟩ := of_mem_after h
        cases found with
        | error m => cases h
        | ok pair => exact isHeir_of_mem_ofPairs h

/-- A part is made under the argument of the visit itself, or it is the second of two rules. -/
theorem of_mem_partsBy (h : J ∈ K.partsBy g run) :
    K.IsHeir (g.parts K.rule) J ∨
      ∃ first second v s, K.rule = .andWithArg first second ∧ J = K.part second K.cursor v s := by
  obtain ⟨fuel, rule, c, arg, s⟩ := K
  have hsingle : ∀ {K : Visit} {r : Rule}, J ∈ [K.part r K.cursor K.arg K.state] →
      K.IsHeir [r] J := by
    intro K r h
    rw [List.mem_singleton.1 h]
    exact isHeir_part (List.mem_singleton_self r) _ _
  cases rule with
  | item m => cases h
  | literal content => cases h
  | start => cases h
  | finish => cases h
  | noOp => cases h
  | never n => cases h
  | abstract => cases h
  | reference target n =>
    obtain ⟨r, hr, rfl⟩ := List.mem_map.1 h
    exact .inl (isHeir_part hr _ _)
  | and rules => exact .inl (isHeir_of_mem_ofSequence h)
  | or rules => exact .inl (isHeir_of_mem_ofChoice h)
  | repetition r min max => exact .inl (isHeir_of_mem_ofRepetition h)
  | punctuated element separator min max =>
    refine .inl ?_
    rcases List.mem_cons.1 h with rfl | h
    · exact isHeir_part (by simp [Grammar.parts]) _ _
    · obtain ⟨vs, t, -, h⟩ := of_mem_onSuccess h
      obtain ⟨v, u, -, h⟩ := of_mem_after h
      exact isHeir_of_mem_ofPairs h
  | andWithArg first second =>
    rcases List.mem_cons.1 h with rfl | h
    · exact .inl (isHeir_part (by simp [Grammar.parts]) _ _)
    · obtain ⟨vs, t, -, h⟩ := of_mem_onSuccess h
      obtain ⟨v, u, -, h⟩ := of_mem_after h
      exact .inr ⟨first, second, v, u, rfl, List.mem_singleton.1 h⟩
  | peek r =>
    obtain ⟨fork, t, -, h⟩ := of_mem_after h
    rw [List.mem_singleton.1 h]
    exact .inl (isHeir_part (List.mem_singleton_self r) _ _)
  | optional r => exact .inl (hsingle h)
  | map conversion r fn withArg => exact .inl (hsingle h)
  | mapRange r fn => exact .inl (hsingle h)
  | discard r => exact .inl (hsingle h)
  | expected r what => exact .inl (hsingle h)
  | name r label => exact .inl (hsingle h)
  | wrapper r => exact .inl (hsingle h)

theorem exists_fuel_of_mem_parts (h : J ∈ K.parts g path) :
    ∃ n, K.fuel = n + 1 ∧ J ∈ K.partsBy g (eval g path n) := by
  unfold parts at h
  cases hfuel : K.fuel with
  | zero =>
    rw [hfuel] at h
    cases h
  | succ n =>
    rw [hfuel] at h
    exact ⟨n, rfl, h⟩

/-- A part of a visit is of a part of its rule, with one unit of fuel less. -/
theorem of_mem_parts (h : J ∈ K.parts g path) :
    K.fuel = J.fuel + 1 ∧ J.rule ∈ g.parts K.rule := by
  obtain ⟨n, hfuel, h⟩ := exists_fuel_of_mem_parts h
  rcases of_mem_partsBy h with ⟨r, hr, c, s, rfl⟩ | ⟨first, second, v, s, hrule, rfl⟩
  · exact ⟨by rw [part, hfuel]; rfl, hr⟩
  · exact ⟨by rw [part, hfuel]; rfl, by simp [part, hrule, Grammar.parts]⟩

/-- An evaluation comes only to rules that its rule reaches. -/
theorem ComesTo.reaches (h : K.ComesTo g path J) : g.Reaches K.rule J.rule := by
  induction h with
  | refl => exact .refl
  | tail _ hmem ih => exact ih.tail (of_mem_parts hmem).2

end Visit

/-! ## What visits call -/

namespace Visit

section

variable (g : Grammar) (path : Path)

/-- The visit has read an item, and in the state `s` it tests it. -/
structure Tests (K : Visit) (m : Matcher) (item : Value) (s : State) : Prop where
  fuel : K.fuel ≠ 0
  rule : K.rule = .item m
  read : ∃ items, (onSource (Source.read path K.cursor 1)).runFrom K.state = (.ok items, s) ∧
    items.get? 0 = some item

/-- The part of the visit has succeeded, and in the state `s` the values are handed to a mapper, with
the argument behind them if the rule asks for it, or with the range of positions that they cover. -/
inductive Maps (K : Visit) : Conversion → Mapper → (args : List Value) → (s : State) → Prop where
  | values {conversion : Conversion} {r : Rule} {fn : Mapper} {withArg : Bool} {J : Visit}
    {vs : List Value} {s : State} (hrule : K.rule = .map conversion r fn withArg)
    (hpart : J ∈ K.parts g path) (hrun : J.run g path = (.ok (.success vs), s)) :
    Maps K conversion fn (vs ++ if withArg then [K.arg] else []) s
  | span {r : Rule} {fn : Mapper} {J : Visit} {vs : List Value} {s : State}
    (hrule : K.rule = .mapRange r (some fn)) (hpart : J ∈ K.parts g path)
    (hrun : J.run g path = (.ok (.success vs), s)) :
    Maps K .total fn (vs ++ [.range (K.state.source.positionOf K.cursor)
      (s.source.positionOf K.cursor) 1]) s

end

end Visit

/-! ## Raising -/

/-- Where a failure comes from. -/
inductive Origin where
  | predicate
  | lookup
  | mapper
  | expectation
  | feed
deriving DecidableEq, Repr

namespace Visit

variable (g : Grammar) (path : Path)

/-- The visit reads `n` items of its cursor from the state `s`: a rule for one item or for the end
reads one, and a literal one more than were found to be those expected. -/
inductive Reads (K : Visit) : (n : Int) → State → Prop where
  | item {m : Matcher} (hrule : K.rule = .item m) : Reads K 1 K.state
  | finish (hrule : K.rule = .finish) : Reads K 1 K.state
  | literal {content : Value} {expected : Sequence} {found : Nat} {s : State}
    (hrule : K.rule = .literal content) (hexpected : Sequence.ofElements content = .ok expected)
    (hfound : found < expected.size)
    (hahead : (lookAhead path K.cursor expected 0 found).runFrom K.state = (.ok true, s)) :
    Reads K (found + 1) s

/-- The visit itself raises `e`, which leaves the rule as `surface`; `t` is the state then. -/
inductive Raises (K : Visit) : Origin → (e surface : Failure) → State → Prop where
  | predicate {m : Matcher} {p : Predicate} {v : Value} {e : Failure} {s : State}
    (htests : K.Tests path m v s) (hpredicate : m.predicate? = some p)
    (hraise : p.run v K.arg = .error e) :
    Raises K .predicate e (path.surface e) ((passes path v K.arg m).runFrom s).2
  | lookup {m : Matcher} {v : Value} {e : Failure} {s : State} (htests : K.Tests path m v s)
    (hraise : m.lookup? v = some (.error e)) :
    Raises K .lookup e e ((passes path v K.arg m).runFrom s).2
  | mapper {conversion : Conversion} {fn : Mapper} {args : List Value} {e : Failure} {s : State}
    (hmaps : K.Maps g path conversion fn args s) (hraise : fn.run args = .error e) :
    Raises K .mapper e (path.surface (conversion.report e))
      ((call path conversion fn args).runFrom s).2
  | expectation {r : Rule} {what : Value} {J : Visit} {m : Mismatch} {e : Failure} {s : State}
    (hrule : K.rule = .expected r what) (hpart : J ∈ K.parts g path)
    (hrun : J.run g path = (.ok (.mismatch m), s))
    (hraise : e = incomplete (s.source.positionOf K.cursor) what m) :
    Raises K .expectation e e s
  | feed {n : Int} {e : Failure} {s : State} (hfuel : K.fuel ≠ 0) (hreads : K.Reads path n s)
    (hopen : s.source.isClosed K.cursor = false)
    (hfill : (s.source.buffer.fill path (s.source.offset K.cursor + n)).2.2 = some e) :
    Raises K .feed e e ((onSource (Source.read path K.cursor n)).runFrom s).2

end Visit

end Evaluation

end Backtrack
