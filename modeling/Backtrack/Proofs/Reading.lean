/-
What rules read. Over an input that is there as a whole, a rule reads from one index to another with
a result, if scanning by it ends so with all fuel from some amount on. Each way of combining rules
reads what its parts read, so what a rule reads is told part by part, without any mention of fuel:
also for a rule that refers to itself, which is read as deep as the input requires.
-/
import Backtrack.Proofs.Sequence
import Backtrack.Proofs.Scan
import Mathlib.Tactic
namespace Backtrack.Scan

variable {α β : Type} {i j k : Nat}

/-! ## Ends -/

/-- With all fuel from some amount on, the scan from `i` ends at `j` with the result. -/
def Ends (x : (fuel : Nat) → Scan Unit α) (i : Nat) (r : Except Failure α) (j : Nat) : Prop :=
  ∃ least, ∀ fuel ≥ least, (x fuel).runFrom ⟨i, ()⟩ = (r.mapError .failed, ⟨j, ()⟩)

namespace Ends

variable {x : Nat → Scan Unit α} {f : Nat → α → Scan Unit β} {a : α} {r : Except Failure β}

/-- A scan that needs no fuel. -/
theorem of_runFrom {x : Scan Unit α} {r : Except Failure α}
    (h : x.runFrom ⟨i, ()⟩ = (r.mapError .failed, ⟨j, ()⟩)) : Ends (fun _ => x) i r j :=
  ⟨0, fun _ _ => h⟩

protected theorem pure (a : α) : Ends (fun _ => pure a) i (.ok a) i := .of_runFrom rfl

protected theorem bind (hx : Ends x i (.ok a) j) (hf : Ends (fun fuel => f fuel a) j r k) :
    Ends (fun fuel => x fuel >>= f fuel) i r k := by
  obtain ⟨m, hm⟩ := hx
  obtain ⟨n, hn⟩ := hf
  refine ⟨max m n, fun fuel hfuel => ?_⟩
  rw [runFrom_bind, hm fuel (by omega)]
  exact hn fuel (by omega)

/-- A failure ends what was to go on. -/
theorem bind_of_error {e : Failure} (hx : Ends x i (.error e) j) :
    Ends (fun fuel => x fuel >>= f fuel) i (.error e) j := by
  obtain ⟨n, hn⟩ := hx
  refine ⟨n, fun fuel hfuel => ?_⟩
  rw [runFrom_bind, hn fuel hfuel]
  rfl

/-- Some fuel is used up on the way to what is scanned. -/
theorem of_succ {r : Except Failure α} (h : Ends (fun fuel => x (fuel + 1)) i r j) : Ends x i r j := by
  obtain ⟨n, hn⟩ := h
  refine ⟨n + 1, fun fuel hfuel => ?_⟩
  obtain ⟨fuel, rfl⟩ : ∃ fuel', fuel = fuel' + 1 := ⟨fuel - 1, by omega⟩
  exact hn fuel (by omega)

/-- A scan that is returned from, unless its result is one to keep the index for. -/
theorem keepIf {keep : Except Halt α → Bool} {r : Except Failure α} (h : Ends x i r j) :
    Ends (fun fuel => Scan.keepIf keep (x fuel)) i r (if keep (r.mapError .failed) then j else i) := by
  obtain ⟨n, hn⟩ := h
  refine ⟨n, fun fuel hfuel => ?_⟩
  rw [runFrom_keepIf, hn fuel hfuel]

end Ends

/-! ## Rules -/

variable {data : Sequence} {g : Grammar} {arg : Value}

/-- The rule reads from `i` to `j` with the outcome. -/
def Reads (data : Sequence) (g : Grammar) (arg : Value) (rule : Rule) (i : Nat) (o : Outcome)
    (j : Nat) : Prop :=
  Ends (fun fuel => eval (.fixed data) g fuel rule arg) i (.ok o) j

/-- The rule fails: it began at `i` and has got to `j`. -/
def Fails (data : Sequence) (g : Grammar) (arg : Value) (rule : Rule) (i : Nat) (e : Failure)
    (j : Nat) : Prop :=
  Ends (fun fuel => eval (.fixed data) g fuel rule arg) i (.error e) j

variable {r r' : Rule} {rs : List Rule} {o : Outcome} {m : Mismatch} {vs ws : List Value} {v : Value}
  {e : Failure}

/-! ### An item -/

section

variable {test : Matcher}

theorem reads_item (hget : data.get? i = some v) (haccepts : test.accepts v arg = .ok true) :
    Reads data g arg (.item test) i (.single v) (i + 1) := by
  refine .of_succ (.of_runFrom ?_)
  show (item (.fixed data) arg test).runFrom _ = _
  simp only [item, runFrom_bind, runFrom_look, Medium.fixed, Nat.add_zero, hget, Except.mapError,
    runFrom_ofExcept, haccepts]
  rfl

theorem reads_item_of_rejected (hget : data.get? i = some v)
    (haccepts : test.accepts v arg = .ok false) :
    Reads data g arg (.item test) i .noMatch i := by
  refine .of_succ (.of_runFrom ?_)
  show (item (.fixed data) arg test).runFrom _ = _
  simp only [item, runFrom_bind, runFrom_look, Medium.fixed, Nat.add_zero, hget, Except.mapError,
    runFrom_ofExcept, haccepts]
  rfl

theorem reads_item_of_end (hget : data.get? i = none) :
    Reads data g arg (.item test) i .noMatch i := by
  refine .of_succ (.of_runFrom ?_)
  show (item (.fixed data) arg test).runFrom _ = _
  simp only [item, runFrom_bind, runFrom_look, Medium.fixed, Nat.add_zero, hget, Except.mapError]
  rfl

end

/-! ### Wrapped rules -/

theorem Reads.reference {id : Nat} {arity : Int} (hg : g.rule? id = some r)
    (h : Reads data g arg r i o j) : Reads data g arg (.reference (some id) arity) i o j := by
  refine .of_succ ?_
  simp only [eval, Option.bind_some, hg]
  exact h

theorem Reads.discard (h : Reads data g arg r i o j) :
    Reads data g arg (.discard r) i (Evaluation.valueless o) j := by
  refine .of_succ ?_
  simp only [eval, map_eq_pure_bind]
  exact h.bind (f := fun _ o => pure (Evaluation.valueless o)) (.pure _)

theorem Reads.optional (h : Reads data g arg r i (.success (v :: vs)) j) :
    Reads data g arg (.optional r) i (.single v) j :=
  .of_succ (Ends.bind h (.pure _))

theorem Reads.optional_of_mismatch (h : Reads data g arg r i (.mismatch m) j) :
    Reads data g arg (.optional r) i (.single .none) j :=
  .of_succ (Ends.bind h (.pure _))

/-- Values that a mapper takes. -/
theorem Reads.map {conversion : Conversion} {fn : Mapper} (h : Reads data g arg r i (.success vs) j)
    (hfn : conversion.apply fn vs = .ok o) :
    Reads data g arg (.map conversion r fn false) i o j := by
  refine .of_succ (Ends.bind h (.of_runFrom ?_))
  simp [hfn, Except.mapError]

/-- Values that a mapper refuses. -/
theorem Reads.map_of_error {conversion : Conversion} {fn : Mapper}
    (h : Reads data g arg r i (.success vs) j) (hfn : conversion.apply fn vs = .error e) :
    Fails data g arg (.map conversion r fn false) i e j := by
  refine .of_succ (Ends.bind h (.of_runFrom ?_))
  simp [hfn, Except.mapError]

theorem Fails.map {conversion : Conversion} {fn : Mapper} {withArg : Bool}
    (h : Fails data g arg r i e j) : Fails data g arg (.map conversion r fn withArg) i e j :=
  .of_succ (Ends.bind_of_error h)

theorem Reads.map_of_mismatch {conversion : Conversion} {fn : Mapper} {withArg : Bool}
    (h : Reads data g arg r i (.mismatch m) j) :
    Reads data g arg (.map conversion r fn withArg) i (.mismatch m) j :=
  .of_succ (Ends.bind h (.pure _))

theorem Reads.name {label : Value} (h : Reads data g arg r i o j) :
    Reads data g arg (.name r label) i (Evaluation.labelled label o) j := by
  refine .of_succ ?_
  simp only [eval, map_eq_pure_bind]
  exact h.bind (f := fun _ o => pure (Evaluation.labelled label o)) (.pure _)

theorem Reads.expected {what : Value} (h : Reads data g arg r i (.success vs) j) :
    Reads data g arg (.expected r what) i (.success vs) j :=
  .of_succ (Ends.bind h (.pure _))

theorem Fails.expected {what : Value} (h : Fails data g arg r i e j) :
    Fails data g arg (.expected r what) i e j :=
  .of_succ (Ends.bind_of_error h)

/-- What must match fails where it mismatches. -/
theorem Reads.expected_of_mismatch {what : Value} (h : Reads data g arg r i (.mismatch m) j) :
    Fails data g arg (.expected r what) i (Evaluation.incomplete j what m) j :=
  .of_succ (Ends.bind h (.of_runFrom rfl))

/-! ### Rules one after another -/

/-- All rules read one after another, their values behind `values`. -/
def ReadsAll (data : Sequence) (g : Grammar) (arg : Value) (values : List Value) (rules : List Rule)
    (i : Nat) (o : Outcome) (j : Nat) : Prop :=
  Ends (fun fuel => sequence (fun r => eval (.fixed data) g fuel r arg) values rules) i (.ok o) j

theorem ReadsAll.nil : ReadsAll data g arg vs [] i (.success vs) i := Ends.pure _

theorem ReadsAll.cons (h : Reads data g arg r i (.success ws) j)
    (hrest : ReadsAll data g arg (vs ++ ws) rs j o k) : ReadsAll data g arg vs (r :: rs) i o k :=
  Ends.bind h hrest

theorem ReadsAll.cons_of_mismatch (h : Reads data g arg r i (.mismatch m) j) :
    ReadsAll data g arg vs (r :: rs) i (.mismatch m) j :=
  Ends.bind h (.pure _)

theorem ReadsAll.and (h : ReadsAll data g arg [] rs i o j) : Reads data g arg (.and rs) i o j :=
  .of_succ h

/-- One of the rules that are read one after another fails. -/
def FailsAll (data : Sequence) (g : Grammar) (arg : Value) (values : List Value) (rules : List Rule)
    (i : Nat) (e : Failure) (j : Nat) : Prop :=
  Ends (fun fuel => sequence (fun r => eval (.fixed data) g fuel r arg) values rules) i (.error e) j

theorem FailsAll.head (h : Fails data g arg r i e j) : FailsAll data g arg vs (r :: rs) i e j :=
  Ends.bind_of_error h

theorem FailsAll.cons (h : Reads data g arg r i (.success ws) j)
    (hrest : FailsAll data g arg (vs ++ ws) rs j e k) : FailsAll data g arg vs (r :: rs) i e k :=
  Ends.bind h hrest

theorem FailsAll.and (h : FailsAll data g arg [] rs i e j) : Fails data g arg (.and rs) i e j :=
  .of_succ h

/-! ### Alternatives -/

/-- The first rule that matches reads. -/
def ReadsFirst (data : Sequence) (g : Grammar) (arg : Value) (rules : List Rule) (i : Nat)
    (o : Outcome) (j : Nat) : Prop :=
  Ends (fun fuel => choice (fun r => eval (.fixed data) g fuel r arg) rules) i (.ok o) j

theorem ReadsFirst.nil : ReadsFirst data g arg [] i .noMatch i := Ends.pure _

theorem ReadsFirst.head (h : Reads data g arg r i (.success vs) j) :
    ReadsFirst data g arg (r :: rs) i (.success vs) j :=
  Ends.bind (Ends.keepIf h) (.pure _)

/-- An alternative that does not match is as if it were not there. -/
theorem ReadsFirst.tail (h : Reads data g arg r i (.mismatch m) j)
    (hrest : ReadsFirst data g arg rs i o k) : ReadsFirst data g arg (r :: rs) i o k :=
  Ends.bind (Ends.keepIf h) hrest

theorem ReadsFirst.append {before : List Rule}
    (h : ∀ r ∈ before, ∃ m, Reads data g arg r i (.mismatch m) i)
    (hrest : ReadsFirst data g arg rs i o j) : ReadsFirst data g arg (before ++ rs) i o j := by
  induction before with
  | nil => exact hrest
  | cons r before ih =>
    obtain ⟨m, hm⟩ := h r List.mem_cons_self
    exact .tail hm (ih fun r hr => h r (List.mem_cons_of_mem _ hr))

theorem ReadsFirst.or (h : ReadsFirst data g arg rs i o j) : Reads data g arg (.or rs) i o j :=
  .of_succ h

/-- An alternative fails, those before it having mismatched. -/
def FailsFirst (data : Sequence) (g : Grammar) (arg : Value) (rules : List Rule) (i : Nat)
    (e : Failure) (j : Nat) : Prop :=
  Ends (fun fuel => choice (fun r => eval (.fixed data) g fuel r arg) rules) i (.error e) j

/-- A hard failure ends the choice where it is. -/
theorem FailsFirst.head (h : Fails data g arg r i e j) (he : e.isHard = true) :
    FailsFirst data g arg (r :: rs) i e j := by
  have hkept : Ends (fun fuel => (eval (.fixed data) g fuel r arg).keepIf commits) i _ _ := h.keepIf
  rw [show commits ((Except.error e : Except Failure Outcome).mapError .failed) = true from he,
    if_pos rfl] at hkept
  exact Ends.bind_of_error hkept

theorem FailsFirst.tail (h : Reads data g arg r i (.mismatch m) j)
    (hrest : FailsFirst data g arg rs i e k) : FailsFirst data g arg (r :: rs) i e k :=
  Ends.bind (Ends.keepIf h) hrest

theorem FailsFirst.append {before : List Rule}
    (h : ∀ r ∈ before, ∃ m, Reads data g arg r i (.mismatch m) i)
    (hrest : FailsFirst data g arg rs i e j) : FailsFirst data g arg (before ++ rs) i e j := by
  induction before with
  | nil => exact hrest
  | cons r before ih =>
    obtain ⟨m, hm⟩ := h r List.mem_cons_self
    exact .tail hm (ih fun r hr => h r (List.mem_cons_of_mem _ hr))

theorem FailsFirst.or (h : FailsFirst data g arg rs i e j) : Fails data g arg (.or rs) i e j :=
  .of_succ h

section

variable {f : α → Rule} {x : α} {xs : List α}

/-- Of like alternatives one matches, and those for anything else do not. -/
theorem Reads.or_of_mem (hx : x ∈ xs)
    (hothers : ∀ y ∈ xs, y ≠ x → ∃ m, Reads data g arg (f y) i (.mismatch m) i)
    (h : Reads data g arg (f x) i (.success vs) j) :
    Reads data g arg (.or (xs.map f)) i (.success vs) j := by
  obtain ⟨before, after, rfl, hbefore⟩ := List.eq_append_cons_of_mem hx
  rw [List.map_append, List.map_cons]
  refine ReadsFirst.or (.append (fun r hr => ?_) (.head h))
  obtain ⟨y, hy, rfl⟩ := List.mem_map.1 hr
  exact hothers y (List.mem_append_left _ hy) fun heq => hbefore (heq ▸ hy)

theorem Fails.or_of_mem (hx : x ∈ xs)
    (hothers : ∀ y ∈ xs, y ≠ x → ∃ m, Reads data g arg (f y) i (.mismatch m) i)
    (h : Fails data g arg (f x) i e j) (he : e.isHard = true) :
    Fails data g arg (.or (xs.map f)) i e j := by
  obtain ⟨before, after, rfl, hbefore⟩ := List.eq_append_cons_of_mem hx
  rw [List.map_append, List.map_cons]
  refine FailsFirst.or (.append (fun r hr => ?_) (.head h he))
  obtain ⟨y, hy, rfl⟩ := List.mem_map.1 hr
  exact hothers y (List.mem_append_left _ hy) fun heq => hbefore (heq ▸ hy)

/-- None of like alternatives matches. -/
theorem Reads.or_of_mismatch (h : ∀ y ∈ xs, ∃ m, Reads data g arg (f y) i (.mismatch m) i) :
    Reads data g arg (.or (xs.map f)) i .noMatch i := by
  rw [← List.append_nil (xs.map f)]
  refine ReadsFirst.or (.append (fun r hr => ?_) .nil)
  obtain ⟨y, hy, rfl⟩ := List.mem_map.1 hr
  exact h y hy

end

/-! ### Loops -/

/-- A rule read again and again from `i` to `j`, the first values of its successes being `vs`. -/
inductive ReadsMany (data : Sequence) (g : Grammar) (arg : Value) (r : Rule) :
    Nat → List Value → Nat → Prop where
  | nil (i : Nat) : ReadsMany data g arg r i [] i
  | cons {i j k : Nat} {v : Value} {ws vs : List Value}
    (h : Reads data g arg r i (.success (v :: ws)) j) (hrest : ReadsMany data g arg r j vs k) :
    ReadsMany data g arg r i (v :: vs) k

section

variable {min : Int} {max : Option Int}

theorem isFull_of_lt {count : Int} (h : ∀ most ∈ max, count < most) :
    Evaluation.isFull max count = false := by
  cases max with
  | none => rfl
  | some most => exact decide_eq_false (not_le.2 (h most rfl))

/-- A loop that has not come to its bound makes its rounds, and goes on with the values behind those
that it has. -/
theorem ReadsMany.passes (min : Int) (max : Option Int) (h : ReadsMany data g arg r i vs j) :
    ∃ least, ∀ fuel ≥ least, ∀ (left : Nat) (count : Int) (reversed : List Value),
      (∀ most ∈ max, count + vs.length ≤ most) →
      (Scan.repetition (eval (.fixed data) g fuel r arg) min max (left + vs.length) count
          reversed).runFrom ⟨i, ()⟩ =
        (Scan.repetition (eval (.fixed data) g fuel r arg) min max left (count + vs.length)
          (vs.reverse ++ reversed)).runFrom ⟨j, ()⟩ := by
  induction h with
  | nil i => exact ⟨0, fun fuel _ left count reversed _ => by simp⟩
  | @cons i j k v ws vs h _ ih =>
    obtain ⟨m, hm⟩ := h
    obtain ⟨n, hn⟩ := ih
    refine ⟨Nat.max m n, fun fuel hfuel left count reversed hmax => ?_⟩
    simp only [List.length_cons, Nat.cast_add, Nat.cast_one] at hmax ⊢
    have hround := hn fuel (le_of_max_le_right hfuel) left (count + 1) (v :: reversed)
      fun most hmost => by have := hmax most hmost; omega
    have hopen : Evaluation.isFull max count = false :=
      isFull_of_lt fun most hmost => by have := hmax most hmost; omega
    rw [← Nat.add_assoc, Scan.repetition, hopen]
    simp only [Bool.false_eq_true, if_false, runFrom_bind, hm fuel (le_of_max_le_left hfuel),
      Except.mapError, firstValue, runFrom_pure]
    rw [hround]
    simp [add_comm, add_left_comm]

/-- A loop ends as what is left of it behind its first rounds. -/
theorem ReadsMany.ends {res : Except Failure Outcome} (h : ReadsMany data g arg r i vs j)
    (hmax : ∀ most ∈ max, vs.length ≤ most)
    (hrest : ∃ least, ∀ fuel ≥ least, ∀ left,
      (Scan.repetition (eval (.fixed data) g fuel r arg) min max (left + 1) vs.length
        vs.reverse).runFrom ⟨j, ()⟩ = (res.mapError .failed, ⟨k, ()⟩)) :
    Ends (fun fuel => eval (.fixed data) g fuel (.repetition r min max) arg) i res k := by
  obtain ⟨m, hm⟩ := h.passes min max
  obtain ⟨n, hn⟩ := hrest
  -- the fuel of the rule also bounds the rounds of the loop
  refine .of_succ ⟨Nat.max (Nat.max m n) (vs.length + 1), fun fuel hfuel => ?_⟩
  have hrounds : vs.length + 1 ≤ fuel := le_of_max_le_right hfuel
  obtain ⟨left, hleft⟩ : ∃ left, fuel = left + 1 + vs.length := ⟨fuel - 1 - vs.length, by omega⟩
  have hends := hm fuel (le_of_max_le_left (le_of_max_le_left hfuel)) (left + 1) 0 []
    fun most hmost => by have := hmax most hmost; omega
  rw [zero_add, List.append_nil, hn fuel (le_of_max_le_right (le_of_max_le_left hfuel)), ← hleft] at hends
  exact hends

/-- The rule mismatches behind some rounds. -/
theorem ReadsMany.repeated (h : ReadsMany data g arg r i vs j) (hmax : ∀ most ∈ max, vs.length < most)
    (hend : Reads data g arg r j (.mismatch m) k) :
    Reads data g arg (.repetition r min max) i
      (Evaluation.repeated min vs.length (some m) vs.reverse) k := by
  obtain ⟨n, hn⟩ := hend
  refine h.ends (fun most hmost => (hmax most hmost).le) ⟨n, fun fuel hfuel left => ?_⟩
  simp [Scan.repetition, isFull_of_lt hmax, runFrom_bind, hn fuel hfuel, Except.mapError]

/-- A loop makes no more rounds than its bound. -/
theorem ReadsMany.repetition_of_full (h : ReadsMany data g arg r i vs j) (hmin : min ≤ vs.length) :
    Reads data g arg (.repetition r min (some vs.length)) i (.single (.list vs)) j := by
  refine h.ends (fun most hmost => (Option.some.inj hmost).le) ⟨0, fun fuel _ left => ?_⟩
  simp [Scan.repetition, Evaluation.isFull, Evaluation.repeated, not_lt.2 hmin, Except.mapError]

/-- The rule fails behind some rounds. -/
theorem ReadsMany.fails (h : ReadsMany data g arg r i vs j) (hmax : ∀ most ∈ max, vs.length < most)
    (hend : Fails data g arg r j e k) : Fails data g arg (.repetition r min max) i e k := by
  obtain ⟨n, hn⟩ := hend
  refine h.ends (fun most hmost => (hmax most hmost).le) ⟨n, fun fuel hfuel left => ?_⟩
  simp [Scan.repetition, isFull_of_lt hmax, runFrom_bind, hn fuel hfuel, Except.mapError]

end

/-- A rule that mismatches in the end has been read as often as it matches. -/
theorem ReadsMany.repetition {min : Int} (h : ReadsMany data g arg r i vs j)
    (hend : Reads data g arg r j (.mismatch m) k) (hmin : min ≤ vs.length) :
    Reads data g arg (.repetition r min none) i (.single (.list vs)) k := by
  have hread : Reads data g arg (.repetition r min none) i
      (Evaluation.repeated min vs.length (some m) vs.reverse) k := h.repeated (by simp) hend
  rwa [Evaluation.repeated, if_neg (by omega), List.reverse_reverse] at hread

theorem ReadsMany.repetition_of_few {min : Int} (h : ReadsMany data g arg r i vs j)
    (hend : Reads data g arg r j (.mismatch m) k) (hmin : vs.length < min) :
    Reads data g arg (.repetition r min none) i (.mismatch m) k := by
  have hread : Reads data g arg (.repetition r min none) i
      (Evaluation.repeated min vs.length (some m) vs.reverse) k := h.repeated (by simp) hend
  rwa [Evaluation.repeated, if_pos hmin] at hread

/-- Separators and elements read in turn from `i` to `j`, the first values of their successes being
`ss` and `vs`. -/
inductive ReadsPairs (data : Sequence) (g : Grammar) (arg : Value) (element separator : Rule) :
    Nat → List Value → List Value → Nat → Prop where
  | nil (i : Nat) : ReadsPairs data g arg element separator i [] [] i
  | cons {i j k l : Nat} {s v : Value} {ss vs ts ws : List Value}
    (hs : Reads data g arg separator i (.success (s :: ts)) j)
    (hv : Reads data g arg element j (.success (v :: ws)) k)
    (hrest : ReadsPairs data g arg element separator k ss vs l) :
    ReadsPairs data g arg element separator i (s :: ss) (v :: vs) l

variable {element separator : Rule} {ss : List Value} {l : Nat}

theorem ends_separated {s : Value} {ts : List Value}
    (hs : Reads data g arg separator i (.success (s :: ts)) j)
    (hv : Reads data g arg element j (.success (v :: ws)) k) :
    Ends (fun fuel => separated (eval (.fixed data) g fuel element arg)
      (eval (.fixed data) g fuel separator arg)) i (.ok (.ok (s, v))) k :=
  Ends.bind (Ends.keepIf (Ends.bind hs (Ends.bind hv (.pure _)))) (.pure _)

theorem ends_separated_of_mismatch (hs : Reads data g arg separator i (.mismatch m) j) :
    Ends (fun fuel => separated (eval (.fixed data) g fuel element arg)
      (eval (.fixed data) g fuel separator arg)) i (.ok (.error m)) i :=
  Ends.bind (Ends.keepIf (Ends.bind hs (.pure _))) (.pure _)

/-- Elements with separators between them end where no separator follows. -/
theorem ReadsPairs.punctuated (hv : Reads data g arg element i (.success (v :: ws)) j)
    (h : ReadsPairs data g arg element separator j ss vs k)
    (hend : Reads data g arg separator k (.mismatch m) l) :
    Reads data g arg (.punctuated element separator 0 none) i
      (.success [.list (v :: vs), .list ss]) k := by
  -- as for a repetition, with both lists in front
  have hloop : ∃ least, ∀ fuel ≥ least, ∀ left > vs.length,
      ∀ (count : Int) (elements separators : List Value), 0 ≤ count →
      (punctuatedRest (separated (eval (.fixed data) g fuel element arg)
          (eval (.fixed data) g fuel separator arg)) 0 none left count elements separators).runFrom
          ⟨j, ()⟩ =
        (.ok (.success [.list (elements.reverse ++ vs), .list (separators.reverse ++ ss)]),
          ⟨k, ()⟩) := by
    clear hv
    induction h with
    | nil j =>
      have hnone : Ends (fun fuel => separated (eval (.fixed data) g fuel element arg)
          (eval (.fixed data) g fuel separator arg)) j (.ok (.error m)) j :=
        ends_separated_of_mismatch hend
      obtain ⟨n, hn⟩ := hnone
      refine ⟨n, fun fuel hfuel left hleft count elements separators hcount => ?_⟩
      obtain ⟨left, rfl⟩ : ∃ left', left = left' + 1 := ⟨left - 1, by omega⟩
      simp [punctuatedRest, Evaluation.isFull, runFrom_bind, hn fuel hfuel, Except.mapError,
        Evaluation.punctuatedResult, not_lt.2 hcount]
    | cons hs hv _ ih =>
      obtain ⟨m, hm⟩ := ends_separated hs hv
      obtain ⟨n, hn⟩ := ih hend
      refine ⟨max m n, fun fuel hfuel left hleft count elements separators hcount => ?_⟩
      obtain ⟨left, rfl⟩ : ∃ left', left = left' + 1 := ⟨left - 1, by omega⟩
      simp only [List.length_cons] at hleft
      simp only [punctuatedRest, Evaluation.isFull, Bool.false_eq_true, if_false, runFrom_bind,
        hm fuel (by omega), Except.mapError]
      rw [hn fuel (by omega) left (by omega) _ _ _ (by omega)]
      simp
  obtain ⟨n, hn⟩ := hloop
  refine .of_succ (Ends.bind hv ⟨max n (vs.length + 1), fun fuel hfuel => ?_⟩)
  exact hn fuel (by omega) fuel (by omega) 1 [v] [] (by omega)

/-- No element is found, and none is asked for. -/
theorem Reads.punctuated_of_mismatch (h : Reads data g arg element i (.mismatch m) j) :
    Reads data g arg (.punctuated element separator 0 none) i (.success [.list [], .list []]) j :=
  .of_succ (Ends.bind h (.pure _))

end Backtrack.Scan
