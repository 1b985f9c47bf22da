/-
Termination. A part of a rule is at a left place if it may be evaluated before anything was consumed.
Where unbounded loops go round only by consuming, and definitions can be ranked so that those at
left places of a body rank below its own, evaluation ends: from one consumed item to the next only
left places are visited, along which first the rank and then the rule gets smaller, and no more
items are consumed than the input has.
-/
import Backtrack.Proofs.Consuming
import Backtrack.Proofs.Fuel
import Backtrack.Proofs.Arity
namespace Backtrack

/-! ## Left places -/

namespace Rule

/-- Of rules one after another those that have no consuming one before them. -/
def leading (consuming : Nat → Bool) : List Rule → List Rule
  | [] => []
  | r :: rs => r :: if r.isConsuming consuming then [] else leading consuming rs

/-- The parts of a rule that may be evaluated before anything was consumed. -/
def leftParts (consuming : Nat → Bool) : Rule → List Rule
  | and rules => leading consuming rules
  | andWithArg first second | punctuated first second _ _ => leading consuming [first, second]
  | or rules => rules
  | repetition r _ _ | optional r | map _ r _ _ | mapRange r _ | discard r | expected r _
  | name r _ | peek r | wrapper r => [r]
  | item _ | literal _ | start | finish | noOp | never _ | reference .. | abstract => []

/-- The part stands at a left place of the rule. -/
def Left (consuming : Nat → Bool) : Rule → Rule → Prop :=
  Relation.ReflTransGen fun r part => part ∈ r.leftParts consuming

/-- A loop without an upper bound goes round only by consuming. -/
def LoopConsumes (consuming : Nat → Bool) : Rule → Prop
  | repetition r _ none => r.isConsuming consuming = true
  | punctuated element separator _ none =>
    separator.isConsuming consuming = true ∨ element.isConsuming consuming = true
  | _ => True

variable {consuming : Nat → Bool}

theorem mem_of_mem_leading {part : Rule} : ∀ {rules : List Rule},
    part ∈ leading consuming rules → part ∈ rules
  | r :: rs, h => by
    rw [leading] at h
    rcases List.mem_cons.1 h with rfl | h
    · exact List.mem_cons_self
    · split at h
      · cases h
      · exact List.mem_cons_of_mem _ (mem_of_mem_leading h)

/-- What is at a left place is a part. -/
theorem mem_parts_of_mem_leftParts {g : Grammar} {rule part : Rule}
    (h : part ∈ rule.leftParts consuming) : part ∈ g.parts rule := by
  cases rule with
  | and rules => exact mem_of_mem_leading h
  | andWithArg first second => exact mem_of_mem_leading h
  | punctuated element separator min max => exact mem_of_mem_leading h
  | _ => first | exact h | cases h

theorem Left.reaches {g : Grammar} {rule part : Rule} (h : rule.Left consuming part) :
    g.Reaches rule part :=
  Relation.ReflTransGen.mono (fun _ _ => mem_parts_of_mem_leftParts) _ _ h

end Rule

/-- Evaluating the rule goes down in the grammar until it consumes: definitions annotated as
consuming have consuming rules, those at left places of a definition's rule rank below it, and all
unbounded loops consume. -/
structure Grammar.Descends (g : Grammar) (consuming : Nat → Bool) (rank : Nat → Nat)
    (rule : Rule) : Prop where
  consumes : ∀ id body, g.rule? id = some body → consuming id = true →
    body.isConsuming consuming = true
  ranked : ∀ id body, g.rule? id = some body → ∀ other n,
    body.Left consuming (.reference (some other) n) → rank other < rank id
  loops : ∀ r, g.Reaches rule r → r.LoopConsumes consuming

theorem Grammar.Descends.of_reaches {g : Grammar} {consuming : Nat → Bool} {rank : Nat → Nat}
    {rule part : Rule} (h : g.Descends consuming rank rule) (hpart : g.Reaches rule part) :
    g.Descends consuming rank part :=
  ⟨h.consumes, h.ranked, fun r hr => h.loops r (hpart.trans hr)⟩

/-! ## What lies ahead -/

namespace Source

variable {c : Cursor} {s t u : Source}

/-- How many items may still lie ahead of a cursor. -/
def rest (s : Source) (c : Cursor) : Nat := (s.limit - s.positionOf c).toNat

theorem Moved.rest_le (h : Moved c s u) : u.rest c ≤ s.rest c := by
  have := h.position_le
  have := h.limit_le
  simp only [rest]
  omega

theorem Moved.rest_lt (h : Moved c s u) (h' : Beyond c s u) : u.rest c < s.rest c := by
  have := h'.position_lt
  have := h'.within
  have := h.limit_le
  simp only [rest, limit, positionOf] at *
  omega

/-- No more lies ahead of a fork than of its parent. -/
theorem Inside.rest_fork_le (h : Inside c s u) : u.rest (.fork s.forks.size) ≤ s.rest c := by
  have hposition := h.position_le
  have hlimit : u.limit ≤ s.limit := h.moved.limit_le
  simp only [rest]
  omega

end Source

namespace Evaluation

open Source (Moved Inside)

variable {α β : Type} {c : Cursor} {s : State}

/-! ## Computations without fuel -/

/-- The computation never runs out of fuel. -/
def Fuelless (x : Evaluation α) : Prop := ∀ s, (x.runFrom s).1 ≠ .error .outOfFuel

namespace Fuelless

protected theorem pure (a : α) : Fuelless (pure a) := by
  rintro s ⟨⟩

protected theorem fail (f : Failure) : Fuelless (fail f : Evaluation α) := by
  rintro s ⟨⟩

protected theorem bind {x : Evaluation α} {f : α → Evaluation β} (hx : Fuelless x)
    (hf : ∀ a, Fuelless (f a)) : Fuelless (x >>= f) := by
  intro s
  have h := hx s
  rw [runFrom_bind]
  rcases hrun : x.runFrom s with ⟨e | a, t⟩
  · rw [hrun] at h
    rintro ⟨⟩
    exact h rfl
  · exact hf a t

protected theorem ite {p : Prop} [Decidable p] {x y : Evaluation α} (hx : Fuelless x)
    (hy : Fuelless y) : Fuelless (if p then x else y) := by
  split
  · exact hx
  · exact hy

theorem of_still {x : Evaluation α} {r : Except Failure α} (h : x.Still r) : Fuelless x := by
  intro s
  rw [(h s).1]
  cases r with
  | error f => rintro ⟨⟩
  | ok a => rintro ⟨⟩

protected theorem onSource (op : SourceM α) : Fuelless (onSource op) := by
  intro s
  rw [runFrom_onSource]
  rcases (op.runOn s.source).1 with f | a
  · rintro ⟨⟩
  · rintro ⟨⟩

protected theorem note (n : Note) : Fuelless (note n) := by
  rintro s ⟨⟩

protected theorem positionOf (c : Cursor) : Fuelless (positionOf c) := by
  rintro s ⟨⟩

protected theorem firstValue (vs : List Value) : Fuelless (firstValue vs) := by
  cases vs with
  | nil => exact .fail _
  | cons v vs => exact .pure v

protected theorem item (path : Path) (c : Cursor) (arg : Value) (m : Matcher) :
    Fuelless (item path c arg m) := by
  refine (Fuelless.onSource _).bind fun items => ?_
  cases items.get? 0 with
  | none => exact .pure _
  | some v =>
    refine (Fuelless.of_still (.passes path v arg m)).bind fun passed => ?_
    exact .ite ((Fuelless.onSource _).bind fun _ => .pure _) (.pure _)

protected theorem lookAhead (path : Path) (c : Cursor) (expected : Sequence) :
    ∀ left index : Nat, Fuelless (lookAhead path c expected index left)
  | 0, _ => .pure true
  | left + 1, index => by
    refine (Fuelless.onSource _).bind fun items => ?_
    cases items.get? index with
    | none => exact .pure false
    | some v =>
      cases expected.get? index with
      | none => exact .pure false
      | some w => exact .ite (Fuelless.lookAhead path c expected left (index + 1)) (.pure false)

protected theorem literal (path : Path) (c : Cursor) (content : Value) :
    Fuelless (literal path c content) := by
  refine (Fuelless.of_still (.ofExcept _)).bind fun expected => ?_
  refine (Fuelless.lookAhead path c expected _ 0).bind fun found => ?_
  exact .ite ((Fuelless.onSource _).bind fun _ => .pure _) (.pure _)

protected theorem start (c : Cursor) : Fuelless (start c) :=
  (Fuelless.positionOf c).bind fun _ => .ite (.pure _) (.pure _)

protected theorem finish (path : Path) (c : Cursor) : Fuelless (finish path c) :=
  (Fuelless.onSource _).bind fun _ => .pure _

end Fuelless

/-! ## Settling -/

/-- With enough fuel the evaluation ends, and always in the same way. -/
def Settles (x : Nat → Evaluation α) (s : State) : Prop :=
  ∃ n r t, r ≠ .error .outOfFuel ∧ ∀ fuel ≥ n, (x fuel).runFrom s = (r, t)

namespace Settles

theorem of_fuelless {x : Evaluation α} (h : Fuelless x) (s : State) : Settles (fun _ => x) s :=
  ⟨0, _, _, h s, fun _ _ => rfl⟩

/-- More fuel to begin with does no harm. -/
theorem shift {x : Nat → Evaluation α} (h : Settles x s) (k : Nat) :
    Settles (fun fuel => x (fuel + k)) s := by
  obtain ⟨n, r, t, hr, hrun⟩ := h
  exact ⟨n, r, t, hr, fun fuel hfuel => hrun (fuel + k) (by omega)⟩

/-- One unit of fuel may go to reach the evaluation. -/
theorem of_succ {x : Nat → Evaluation α} (h : Settles (fun fuel => x (fuel + 1)) s) :
    Settles x s := by
  obtain ⟨n, r, t, hr, hrun⟩ := h
  refine ⟨n + 1, r, t, hr, fun fuel hfuel => ?_⟩
  obtain ⟨k, rfl⟩ : ∃ k, fuel = k + 1 := ⟨fuel - 1, by omega⟩
  exact hrun k (by omega)

protected theorem bind {x : Nat → Evaluation α} {f : Nat → α → Evaluation β} (hx : Settles x s)
    (hf : ∀ a t, (∃ fuel, (x fuel).runFrom s = (.ok a, t)) → Settles (fun fuel => f fuel a) t) :
    Settles (fun fuel => x fuel >>= f fuel) s := by
  obtain ⟨n, r, t, hr, hrun⟩ := hx
  cases r with
  | error e =>
    refine ⟨n, .error e, t, ?_, fun fuel hfuel => by rw [runFrom_bind, hrun fuel hfuel]⟩
    rintro ⟨⟩
    exact hr rfl
  | ok a =>
    obtain ⟨m, r', u, hr', hrun'⟩ := hf a t ⟨n, hrun n (le_refl n)⟩
    refine ⟨max n m, r', u, hr', fun fuel hfuel => ?_⟩
    rw [runFrom_bind, hrun fuel (le_trans (Nat.le_max_left n m) hfuel)]
    exact hrun' fuel (le_trans (Nat.le_max_right n m) hfuel)

protected theorem map {x : Nat → Evaluation α} (f : α → β) (hx : Settles x s) :
    Settles (fun fuel => f <$> x fuel) s := by
  simp only [map_eq_pure_bind]
  exact hx.bind fun a t _ => .of_fuelless (.pure (f a)) t

protected theorem onFailure {x : Nat → Evaluation α} (hx : Settles x s)
    {handle : Failure → Evaluation Unit} (hhandle : ∀ f, Fuelless (handle f)) :
    Settles (fun fuel => onFailure (x fuel) handle) s := by
  obtain ⟨n, r, t, hr, hrun⟩ := hx
  have hended : (afterFailure handle (r, t)).1 ≠ .error .outOfFuel := by
    rcases r with (f | _) | a
    · have h := hhandle f t
      simp only [afterFailure]
      generalize (handle f).runFrom t = ended at h ⊢
      rcases ended with ⟨e | _, u⟩
      · rintro ⟨⟩
        exact h rfl
      · rintro ⟨⟩
    · exact absurd rfl hr
    · rintro ⟨⟩
  refine ⟨n, (afterFailure handle (r, t)).1, (afterFailure handle (r, t)).2, hended, ?_⟩
  intro fuel hfuel
  rw [runFrom_onFailure, hrun fuel hfuel]

theorem firstValue_bind {vs : List Value} {f : Nat → Value → Evaluation β}
    (h : ∀ v, Settles (fun fuel => f fuel v) s) :
    Settles (fun fuel => firstValue vs >>= f fuel) s := by
  cases vs with
  | nil => exact .of_fuelless (.fail _) s
  | cons v vs => exact h v

/-- What follows the making of a fork goes on inside it. -/
theorem fork_bind {f : Nat → Cursor → Evaluation β}
    (h : ∀ t, Inside c s.source t.source →
      Settles (fun fuel => f fuel (.fork s.source.forks.size)) t) :
    Settles (fun fuel => onSource (Source.fork c) >>= f fuel) s := by
  refine (Settles.of_fuelless (.onSource _) s).bind fun fork t hfork => ?_
  obtain ⟨-, hfork⟩ := hfork
  obtain ⟨rfl, ht⟩ := Inside.of_onSource_fork_eq_ok hfork
  exact h t ht

/-- After a success no more lies ahead than before, and less if the evaluation advances. -/
theorem bind_outcome {x : Nat → Evaluation Outcome} {f : Nat → Outcome → Evaluation β}
    {advances : Prop} (hmoves : ∀ fuel, Moves c (x fuel))
    (hadvances : advances → ∀ fuel, Advances c (x fuel)) (hx : Settles x s)
    (hmismatch : ∀ m t, Settles (fun fuel => f fuel (.mismatch m)) t)
    (hsuccess : ∀ vs t, t.source.rest c ≤ s.source.rest c →
      (advances → t.source.rest c < s.source.rest c) →
      Settles (fun fuel => f fuel (.success vs)) t) :
    Settles (fun fuel => x fuel >>= f fuel) s := by
  refine hx.bind fun o t hrun => ?_
  cases o with
  | mismatch m => exact hmismatch m t
  | success vs =>
    obtain ⟨fuel, hrun⟩ := hrun
    have hmoved := hmoves fuel s
    rw [hrun] at hmoved
    exact hsuccess vs t hmoved.rest_le fun h => hmoved.rest_lt (hadvances h fuel s vs t hrun)

/-! ### Rules with parts -/

variable {consuming : Nat → Bool}

/-- A sequence settles if its parts do, those behind a consuming one where less lies ahead. -/
protected theorem sequence {run : Nat → Rule → Evaluation Outcome}
    (hmoves : ∀ fuel r, Moves c (run fuel r)) : ∀ {rules : List Rule} {ρ : Nat},
    (∀ r ∈ rules, r.isConsuming consuming = true → ∀ fuel, Advances c (run fuel r)) →
    (∀ r ∈ rules, ∀ s : State, s.source.rest c < ρ → Settles (fun fuel => run fuel r) s) →
    (∀ r ∈ Rule.leading consuming rules, ∀ s : State, s.source.rest c ≤ ρ →
      Settles (fun fuel => run fuel r) s) →
    ∀ (values : List Value) (s : State), s.source.rest c ≤ ρ →
      Settles (fun fuel => sequence (run fuel) values rules) s
  | [], ρ, _, _, _, values, s, _ => .of_fuelless (.pure _) s
  | r :: rs, ρ, hadvances, hbelow, hleft, values, s, hs => by
    have hadvances' := fun p hp => hadvances p (List.mem_cons_of_mem r hp)
    have hbelow' := fun p hp => hbelow p (List.mem_cons_of_mem r hp)
    refine .bind_outcome (fun fuel => hmoves fuel r) (hadvances r List.mem_cons_self)
      (hleft r List.mem_cons_self s hs) (fun m t => .of_fuelless (.pure _) t) fun vs t hle hlt => ?_
    by_cases hr : r.isConsuming consuming = true
    · -- all that follows is evaluated where less lies ahead
      have ht := lt_of_lt_of_le (hlt hr) hs
      exact Settles.sequence hmoves hadvances'
        (fun p hp u hu => hbelow' p hp u (lt_trans hu ht))
        (fun p hp u hu => hbelow' p (Rule.mem_of_mem_leading hp) u (lt_of_le_of_lt hu ht))
        (values ++ vs) t (le_refl _)
    · refine Settles.sequence hmoves hadvances' hbelow' (fun p hp => hleft p ?_) (values ++ vs) t
        (le_trans hle hs)
      rw [Rule.leading, if_neg hr]
      exact List.mem_cons_of_mem r hp

/-- A choice settles if each alternative does, wherever no more lies ahead. -/
protected theorem choice {run : Nat → Cursor → Rule → Evaluation Outcome}
    (hmoves : ∀ fuel c r, Moves c (run fuel c r)) {ρ : Nat} (c : Cursor) :
    ∀ {rules : List Rule}, (∀ r ∈ rules, ∀ (d : Cursor) (s : State), s.source.rest d ≤ ρ →
      Settles (fun fuel => run fuel d r) s) →
    ∀ s : State, s.source.rest c ≤ ρ → Settles (fun fuel => choice (run fuel) c rules) s
  | [], _, s, _ => .of_fuelless (.pure _) s
  | r :: rs, h, s, hs => by
    refine .fork_bind fun t ht => ?_
    have hr := h r List.mem_cons_self (.fork s.source.forks.size) t (le_trans ht.rest_fork_le hs)
    refine (hr.onFailure fun f => ?_).bind fun o u hrun => ?_
    · exact .ite ((Fuelless.onSource _).bind fun _ => .note _) (.pure _)
    · cases o with
      | success vs => exact .of_fuelless ((Fuelless.onSource _).bind fun _ => .pure _) u
      | mismatch m =>
        -- the next alternative begins where this one began
        obtain ⟨fuel, hrun⟩ := hrun
        have hu := ht.run (hmoves fuel (.fork s.source.forks.size) r)
        rw [of_onFailure_eq_ok hrun] at hu
        obtain ⟨v, hclose, hmoved⟩ := hu.onSource_close
        refine (Settles.of_fuelless (.onSource _) u).bind fun a w hw => ?_
        obtain ⟨-, hw⟩ := hw
        rw [hclose] at hw
        cases hw
        exact Settles.choice hmoves c (fun p hp => h p (List.mem_cons_of_mem r hp)) v
          (le_trans hmoved.rest_le hs)

/-- How many rounds a loop has left: as many as its upper bound allows, or without one as many as
items lie ahead. -/
def roundsLeft (max : Option Int) (count : Int) (rest : Nat) : Nat :=
  match max with
  | none => rest
  | some most => (most - count).toNat

theorem roundsLeft_lt {max : Option Int} {count : Int} {rest rest' : Nat}
    (hfull : ¬isFull max count = true) (hlt : max = none → rest' < rest) :
    roundsLeft max (count + 1) rest' < roundsLeft max count rest := by
  cases max with
  | none => exact hlt rfl
  | some most =>
    simp only [isFull, decide_eq_true_eq] at hfull
    simp only [roundsLeft]
    omega

/-- A loop settles if its body does and either its rounds are bounded or its body advances. The
body may have more fuel than the loop. -/
protected theorem repetition {body : Nat → Evaluation Outcome} (hmoves : ∀ fuel, Moves c (body fuel))
    {max : Option Int} (hadvances : max = none → ∀ fuel, Advances c (body fuel)) {ρ : Nat}
    (hbody : ∀ s : State, s.source.rest c ≤ ρ → Settles body s) (min : Int) :
    ∀ (rounds extra : Nat) (count : Int) (reversed : List Value) (s : State),
      s.source.rest c ≤ ρ → roundsLeft max count (s.source.rest c) ≤ rounds →
      Settles (fun fuel => repetition (body (fuel + extra)) min max fuel count reversed) s := by
  intro rounds
  induction rounds using Nat.strong_induction_on with
  | _ rounds ih =>
    intro extra count reversed s hs hrounds
    by_cases hfull : isFull max count = true
    · simp only [repetition_of_isFull hfull]
      exact .of_fuelless (.pure _) s
    · refine .of_succ ?_
      simp only [repetition, if_neg hfull, show ∀ fuel, fuel + 1 + extra = fuel + (extra + 1) by omega]
      refine .bind_outcome (fun fuel => hmoves _) (fun h fuel => hadvances h _)
        ((hbody s hs).shift (extra + 1)) (fun m t => .of_fuelless (.pure _) t) fun vs t hle hlt => ?_
      have hlt' := roundsLeft_lt hfull hlt
      exact .firstValue_bind fun v => ih _ (lt_of_lt_of_le hlt' hrounds) (extra + 1) (count + 1)
        (v :: reversed) t (le_trans hle hs) (le_refl _)

/-- A pair of separator and element settles if both do, wherever no more lies ahead. -/
protected theorem separated {element separator : Nat → Cursor → Evaluation Outcome}
    (hs : ∀ fuel c, Moves c (separator fuel c)) {ρ : Nat}
    (helement : ∀ (d : Cursor) (s : State), s.source.rest d ≤ ρ →
      Settles (fun fuel => element fuel d) s)
    (hseparator : ∀ (d : Cursor) (s : State), s.source.rest d ≤ ρ →
      Settles (fun fuel => separator fuel d) s) (s : State) (hρ : s.source.rest c ≤ ρ) :
    Settles (fun fuel => separated (element fuel) (separator fuel) c) s := by
  refine .fork_bind fun t ht => ?_
  refine (hseparator _ t (le_trans ht.rest_fork_le hρ)).bind fun o u hrun => ?_
  obtain ⟨fuel, hrun⟩ := hrun
  have hu := ht.run (hs fuel (.fork s.source.forks.size))
  rw [hrun] at hu
  cases o with
  | mismatch m => exact .of_fuelless ((Fuelless.onSource _).bind fun _ => .pure _) u
  | success ss =>
    refine (helement _ u (le_trans hu.rest_fork_le hρ)).bind fun o v _ => ?_
    cases o with
    | mismatch m => exact .of_fuelless ((Fuelless.onSource _).bind fun _ => .pure _) v
    | success es =>
      exact .of_fuelless ((Fuelless.onSource _).bind fun _ => (Fuelless.firstValue ss).bind
        fun _ => (Fuelless.firstValue es).bind fun _ => .pure _) v

/-- Further pairs settle as the rounds of a repetition do. -/
protected theorem punctuatedRest {element separator : Nat → Cursor → Evaluation Outcome}
    (he : ∀ fuel c, Moves c (element fuel c)) (hs : ∀ fuel c, Moves c (separator fuel c))
    {max : Option Int} (hadvances : max = none → ∀ fuel,
      (∀ c, Advances c (separator fuel c)) ∨ ∀ c, Advances c (element fuel c)) {ρ : Nat}
    (helement : ∀ (d : Cursor) (s : State), s.source.rest d ≤ ρ →
      Settles (fun fuel => element fuel d) s)
    (hseparator : ∀ (d : Cursor) (s : State), s.source.rest d ≤ ρ →
      Settles (fun fuel => separator fuel d) s) (min : Int) :
    ∀ (rounds extra : Nat) (count : Int) (elements separators : List Value) (s : State),
      s.source.rest c ≤ ρ → roundsLeft max count (s.source.rest c) ≤ rounds →
      Settles (fun fuel => punctuatedRest
        (separated (element (fuel + extra)) (separator (fuel + extra)) c) min max fuel count elements
        separators) s := by
  intro rounds
  induction rounds using Nat.strong_induction_on with
  | _ rounds ih =>
    intro extra count elements separators s hρ hrounds
    by_cases hfull : isFull max count = true
    · simp only [punctuatedRest_of_isFull hfull]
      exact .of_fuelless (.pure _) s
    · refine .of_succ ?_
      simp only [punctuatedRest, if_neg hfull,
        show ∀ fuel, fuel + 1 + extra = fuel + (extra + 1) by omega]
      refine ((Settles.separated hs helement hseparator s hρ).shift (extra + 1)).bind fun o t hrun => ?_
      cases o with
      | error m => exact .of_fuelless (.pure _) t
      | ok pair =>
        obtain ⟨fuel, hrun⟩ := hrun
        have hmoved := Keeps.separated (c := c) (he (fuel + (extra + 1))) (hs (fuel + (extra + 1))) s
        rw [hrun] at hmoved
        have hlt' := roundsLeft_lt hfull fun h => hmoved.rest_lt
          (Advances.beyond_of_separated (he _) (hs _) (hadvances h _) hrun)
        exact ih _ (lt_of_lt_of_le hlt' hrounds) (extra + 1) (count + 1) (pair.2 :: elements)
          (pair.1 :: separators) t (le_trans hmoved.rest_le hρ) (le_refl _)

/-- Elements with separators between them settle if both do, the separators, if the elements are
consuming, where less lies ahead. -/
protected theorem punctuated {element separator : Nat → Cursor → Evaluation Outcome}
    (he : ∀ fuel c, Moves c (element fuel c)) (hs : ∀ fuel c, Moves c (separator fuel c))
    {max : Option Int} (hadvances : max = none → ∀ fuel,
      (∀ c, Advances c (separator fuel c)) ∨ ∀ c, Advances c (element fuel c)) {ρ : Nat}
    (helement : ∀ (d : Cursor) (s : State), s.source.rest d ≤ ρ →
      Settles (fun fuel => element fuel d) s) {advances : Prop} [Decidable advances]
    (helement' : advances → ∀ fuel c, Advances c (element fuel c))
    (hbelow : ∀ (d : Cursor) (s : State), s.source.rest d < ρ →
      Settles (fun fuel => separator fuel d) s)
    (hseparator : ¬advances → ∀ (d : Cursor) (s : State), s.source.rest d ≤ ρ →
      Settles (fun fuel => separator fuel d) s) (min : Int) (s : State)
    (hρ : s.source.rest c ≤ ρ) :
    Settles (fun fuel => punctuated (element fuel) (separator fuel) c min max fuel) s := by
  refine .bind_outcome (fun fuel => he fuel c) (fun h fuel => helement' h fuel c) (helement c s hρ)
    (fun m t => .of_fuelless (.pure _) t) fun vs t hle hlt => .firstValue_bind fun v => ?_
  by_cases h : advances
  · have ht := lt_of_lt_of_le (hlt h) hρ
    exact Settles.punctuatedRest he hs hadvances
      (fun d u hu => helement d u (le_of_lt (lt_of_le_of_lt hu ht)))
      (fun d u hu => hbelow d u (lt_of_le_of_lt hu ht)) min _ 0 1 [v] [] t (le_refl _) (le_refl _)
  · exact Settles.punctuatedRest he hs hadvances helement (hseparator h) min _ 0 1 [v] [] t
      (le_trans hle hρ) (le_refl _)

protected theorem mapRange {body : Nat → Evaluation Outcome} {ρ : Nat}
    (h : ∀ s : State, s.source.rest c ≤ ρ → Settles body s) (path : Path) (fn : Option Mapper)
    (s : State) (hρ : s.source.rest c ≤ ρ) : Settles (fun fuel => mapRange path (body fuel) c fn) s := by
  refine (Settles.of_fuelless (.positionOf c) s).bind fun first t ht => ?_
  obtain ⟨-, ht⟩ := ht
  cases ht
  refine (h s hρ).bind fun o t _ => ?_
  cases o with
  | mismatch m => exact .of_fuelless (.pure _) t
  | success vs =>
    refine .of_fuelless ((Fuelless.positionOf c).bind fun last => ?_) t
    cases fn with
    | none => exact .pure _
    | some fn => exact .of_still (.call path .total fn _)

protected theorem peek {run : Nat → Cursor → Evaluation Outcome} {ρ : Nat}
    (h : ∀ (d : Cursor) (s : State), s.source.rest d ≤ ρ → Settles (fun fuel => run fuel d) s)
    (s : State) (hρ : s.source.rest c ≤ ρ) : Settles (fun fuel => peek (run fuel) c) s := by
  refine .fork_bind fun t ht => ?_
  refine ((h _ t (le_trans ht.rest_fork_le hρ)).onFailure fun f => .onSource _).bind fun o u _ => ?_
  exact .of_fuelless ((Fuelless.onSource _).bind fun _ => .pure _) u

end Settles

/-! ## All rules -/

/-- Where no more than `ρ` items lie ahead of its cursor, the rule is evaluated to an end. -/
def Ends (g : Grammar) (path : Path) (ρ : Nat) (rule : Rule) : Prop :=
  ∀ (c : Cursor) (arg : Value) (s : State), s.source.rest c ≤ ρ →
    Settles (fun fuel => eval g path fuel rule c arg) s

section

variable {g : Grammar} {path : Path} {consuming : Nat → Bool} {rank : Nat → Nat} {ρ : Nat}

/-- Rules without parts are evaluated to an end at once. -/
theorem ends_of_fuelless {rule : Rule} (h : ∀ fuel c arg, Fuelless (eval g path (fuel + 1) rule c arg))
    (hsame : ∀ fuel c arg, eval g path (fuel + 1) rule c arg = eval g path 1 rule c arg) :
    Ends g path ρ rule := by
  intro c arg s _
  refine .of_succ ?_
  simp only [hsame]
  exact .of_fuelless (h 0 c arg) s

/-- A rule is evaluated to an end if the definitions at its left places are, and all its parts are
where less lies ahead. -/
theorem ends_of_left (hg : g.WellFormed) {rule : Rule} (hrule : rule.WellFormed g)
    (hdescends : g.Descends consuming rank rule)
    (hbelow : ∀ r, r.WellFormed g → g.Descends consuming rank r → ∀ ρ' < ρ, Ends g path ρ' r)
    (hleft : ∀ id n, rule.Left consuming (.reference (some id) n) →
      Ends g path ρ (.reference (some id) n)) : Ends g path ρ rule := by
  have hmoves := fun fuel r (c : Cursor) v => eval_moves g path fuel r c v
  have hadvances : ∀ {r : Rule}, r.WellFormed g → r.isConsuming consuming = true →
      ∀ fuel (c : Cursor) (arg : Value), Advances c (eval g path fuel r c arg) :=
    fun hr hc fuel c arg => eval_advances hg hdescends.consumes path fuel hr hc c arg
  have hinner : ∀ {rule part : Rule}, g.Descends consuming rank rule →
      (∀ id n, rule.Left consuming (.reference (some id) n) →
        Ends g path ρ (.reference (some id) n)) →
      (g.Descends consuming rank part → (∀ id n, part.Left consuming (.reference (some id) n) →
        Ends g path ρ (.reference (some id) n)) → Ends g path ρ part) →
      part ∈ rule.leftParts consuming → Ends g path ρ part :=
    fun hdescends hleft ih hmem =>
      ih (hdescends.of_reaches (.single (Rule.mem_parts_of_mem_leftParts hmem)))
        fun id n h => hleft id n (.head hmem h)
  induction hrule with
  | item m => exact ends_of_fuelless (fun _ c arg => .item path c arg m) fun _ _ _ => rfl
  | literal _ _ => exact ends_of_fuelless (fun _ c arg => .literal path c _) fun _ _ _ => rfl
  | start => exact ends_of_fuelless (fun _ c arg => .start c) fun _ _ _ => rfl
  | finish => exact ends_of_fuelless (fun _ c arg => .finish path c) fun _ _ _ => rfl
  | noOp => exact ends_of_fuelless (fun _ c arg => .pure _) fun _ _ _ => rfl
  | never n => exact ends_of_fuelless (fun _ c arg => .pure _) fun _ _ _ => rfl
  | fresh n => exact ends_of_fuelless (fun _ c arg => .fail _) fun _ _ _ => rfl
  | abstract => exact ends_of_fuelless (fun _ c arg => .fail _) fun _ _ _ => rfl
  | @reference id d _ => exact hleft id d.arity .refl
  | @and rules _ hparts ih =>
    intro c arg s hs
    have hconsuming : ∀ r ∈ rules, r.isConsuming consuming = true → ∀ fuel,
        Advances c (eval g path fuel r c arg) :=
      fun r hr hconsuming fuel => hadvances (hparts r hr) hconsuming fuel c arg
    refine .of_succ (Settles.sequence (fun fuel r => hmoves fuel r c arg) hconsuming
      (fun r hr t ht => ?_) (fun r hr t ht => ?_) [] s hs)
    · exact hbelow r (hparts r hr) (hdescends.of_reaches (.single hr)) _ ht c arg t (le_refl _)
    · exact hinner hdescends hleft (ih r (Rule.mem_of_mem_leading hr)) hr c arg t ht
  | @or rules _ hparts _ ih =>
    intro c arg s hs
    refine .of_succ (Settles.choice (fun fuel c r => hmoves fuel r c arg) c (fun r hr d t ht => ?_) s hs)
    exact hinner hdescends hleft (ih r hr) hr d arg t ht
  | @repetition r min max hpart _ _ ih =>
    intro c arg s hs
    have hbody := hinner hdescends hleft ih List.mem_cons_self
    have hloop : max = none → ∀ fuel, Advances c (eval g path fuel r c arg) := by
      rintro rfl
      exact fun fuel => hadvances hpart (hdescends.loops _ .refl) fuel c arg
    exact .of_succ (Settles.repetition (fun fuel => hmoves fuel r c arg) hloop (hbody c arg) min _ 0
      0 [] s hs (le_refl _))
  | @punctuated element separator min max he hsep _ _ _ _ ihe ihs =>
    intro c arg s hs
    have hmem : separator ∈ [element, separator] := List.mem_cons_of_mem _ List.mem_cons_self
    have helement := hinner hdescends hleft ihe List.mem_cons_self
    have hloop : max = none → ∀ fuel, (∀ d, Advances d (eval g path fuel separator d arg)) ∨
        ∀ d, Advances d (eval g path fuel element d arg) := by
      rintro rfl fuel
      rcases hdescends.loops _ .refl with h | h
      · exact .inl fun d => hadvances hsep h fuel d arg
      · exact .inr fun d => hadvances he h fuel d arg
    have hconsumes : element.isConsuming consuming = true →
        ∀ fuel d, Advances d (eval g path fuel element d arg) :=
      fun h fuel d => hadvances he h fuel d arg
    refine .of_succ (Settles.punctuated (fun fuel d => hmoves fuel element d arg)
      (fun fuel d => hmoves fuel separator d arg) hloop (fun d t ht => helement d arg t ht) hconsumes
      (fun d t ht => ?_) (fun h d t ht => ?_) min s hs)
    · exact hbelow separator hsep (hdescends.of_reaches (.single hmem)) _ ht d arg t (le_refl _)
    · -- where elements need not consume, the separator stands at a left place too
      have hleading : separator ∈ Rule.leading consuming [element, separator] := by
        rw [Rule.leading, if_neg h]
        exact List.mem_cons_of_mem _ List.mem_cons_self
      exact hinner hdescends hleft ihs hleading d arg t ht
  | @andWithArg first second hf hsec _ ihf ihs =>
    intro c arg s hs
    have hmem : second ∈ [first, second] := List.mem_cons_of_mem _ List.mem_cons_self
    have hfirst := hinner hdescends hleft ihf List.mem_cons_self
    have hconsumes : first.isConsuming consuming = true →
        ∀ fuel, Advances c (eval g path fuel first c arg) :=
      fun h fuel => hadvances hf h fuel c arg
    refine .of_succ (Settles.bind_outcome (fun fuel => hmoves fuel first c arg) hconsumes
      (hfirst c arg s hs) (fun m t => .of_fuelless (.pure _) t)
      fun vs t hle hlt => .firstValue_bind fun v => ?_)
    have hsecond : Settles (fun fuel => eval g path fuel second c v) t := by
      by_cases h : first.isConsuming consuming = true
      · exact hbelow second hsec (hdescends.of_reaches (.single hmem)) _
          (lt_of_lt_of_le (hlt h) hs) c v t (le_refl _)
      · have hleading : second ∈ Rule.leading consuming [first, second] := by
          rw [Rule.leading, if_neg h]
          exact List.mem_cons_of_mem _ List.mem_cons_self
        exact hinner hdescends hleft ihs hleading c v t (le_trans hle hs)
    refine hsecond.bind fun o u _ => ?_
    cases o with
    | mismatch m => exact .of_fuelless (.pure _) u
    | success ws => exact .of_fuelless (.pure _) u
  | @optional r hpart _ ih =>
    intro c arg s hs
    have hbody := hinner hdescends hleft ih List.mem_cons_self
    refine .of_succ ((hbody c arg s hs).bind fun o t _ => ?_)
    cases o with
    | success vs => exact .of_fuelless ((Fuelless.firstValue vs).bind fun _ => .pure _) t
    | mismatch m => exact .of_fuelless (.pure _) t
  | map _ _ ih =>
    intro c arg s hs
    have hbody := hinner hdescends hleft ih List.mem_cons_self
    refine .of_succ ((hbody c arg s hs).bind fun o t _ => ?_)
    cases o with
    | mismatch m => exact .of_fuelless (.pure _) t
    | success vs => exact .of_fuelless (.of_still (.call path _ _ _)) t
  | mapRange _ ih =>
    intro c arg s hs
    have hbody := hinner hdescends hleft ih List.mem_cons_self
    exact .of_succ (Settles.mapRange (hbody c arg) path none s hs)
  | @mapRangeWith r fn _ _ ih =>
    intro c arg s hs
    have hbody := hinner hdescends hleft ih List.mem_cons_self
    exact .of_succ (Settles.mapRange (hbody c arg) path (some fn) s hs)
  | expected _ what ih =>
    intro c arg s hs
    have hbody := hinner hdescends hleft ih List.mem_cons_self
    refine .of_succ ((hbody c arg s hs).bind fun o t _ => ?_)
    cases o with
    | success vs => exact .of_fuelless (.pure _) t
    | mismatch m =>
      exact .of_fuelless ((Fuelless.positionOf c).bind fun _ => (Fuelless.note _).bind fun _ =>
        .fail _) t
  | discard _ ih =>
    intro c arg s hs
    exact .of_succ ((hinner hdescends hleft ih List.mem_cons_self c arg s hs).map valueless)
  | name _ label ih =>
    intro c arg s hs
    exact .of_succ ((hinner hdescends hleft ih List.mem_cons_self c arg s hs).map (labelled label))
  | peek _ ih =>
    intro c arg s hs
    have hbody := hinner hdescends hleft ih List.mem_cons_self
    exact .of_succ (Settles.peek (fun d t ht => hbody d arg t ht) s hs)
  | wrapper _ ih =>
    intro c arg s hs
    exact .of_succ (hinner hdescends hleft ih List.mem_cons_self c arg s hs)

/-- A definition is evaluated to an end if all rules are where less lies ahead. -/
theorem ends_reference (hg : g.WellFormed) (hbelow : ∀ r, r.WellFormed g →
      g.Descends consuming rank r → ∀ ρ' < ρ, Ends g path ρ' r) : ∀ (k id : Nat) (n : Int),
    rank id = k → g.Descends consuming rank (.reference (some id) n) →
    Ends g path ρ (.reference (some id) n) := by
  intro k
  induction k using Nat.strong_induction_on with
  | _ k ih =>
    rintro id n rfl hdescends c arg s hs
    refine .of_succ ?_
    simp only [eval]
    cases hbody : g.rule? id with
    | none =>
      simp only [Option.bind_some, hbody]
      exact .of_fuelless (.fail _) s
    | some body =>
      simp only [Option.bind_some, hbody]
      have hpart : body ∈ g.parts (.reference (some id) n) := by simp [Grammar.parts, hbody]
      have hbody' := hdescends.of_reaches (.single hpart)
      exact ends_of_left hg (hg.of_rule? hbody) hbody' hbelow
        (fun other m h => ih _ (hdescends.ranked id body hbody other m h) other m rfl
          (hbody'.of_reaches h.reaches)) c arg s hs

/-- A rule from which the grammar descends is evaluated to an end, however many items lie ahead. -/
theorem ends_of_descends (hg : g.WellFormed) : ∀ (ρ : Nat) {rule : Rule}, rule.WellFormed g →
    g.Descends consuming rank rule → Ends g path ρ rule := by
  intro ρ
  induction ρ using Nat.strong_induction_on with
  | _ ρ ih =>
    intro rule hrule hdescends
    have hbelow : ∀ r, r.WellFormed g → g.Descends consuming rank r → ∀ ρ' < ρ, Ends g path ρ' r :=
      fun r hr hd ρ' hρ' => ih ρ' hρ' hr hd
    exact ends_of_left hg hrule hdescends hbelow fun id n h =>
      ends_reference hg hbelow _ id n rfl (hdescends.of_reaches h.reaches)

end

/-- Evaluating a rule from which the grammar descends ends at every cursor over every source: with
enough fuel, in one way, and with less fuel in no other way. -/
theorem eval_terminates {g : Grammar} (hg : g.Accepted) {rule : Rule} (hrule : rule.Accepted g)
    {consuming : Nat → Bool} {rank : Nat → Nat} (hdescends : g.Descends consuming rank rule)
    (path : Path) (c : Cursor) (arg : Value) (s : State) :
    ∃ n r t, r ≠ .error .outOfFuel ∧
      (∀ fuel ≥ n, (eval g path fuel rule c arg).runFrom s = (r, t)) ∧
      ∀ fuel, ((eval g path fuel rule c arg).runFrom s).1 = .error .outOfFuel ∨
        (eval g path fuel rule c arg).runFrom s = (r, t) := by
  obtain ⟨n, r, t, hr, hrun⟩ :=
    ends_of_descends hg.wellFormed (s.source.rest c) hrule.wellFormed hdescends c arg s (le_refl _)
  refine ⟨n, r, t, hr, hrun, fun fuel => ?_⟩
  have hmore := eval_approximates g path (Nat.le_max_left fuel n) rule c arg s
  rw [hrun (max fuel n) (Nat.le_max_right fuel n)] at hmore
  exact hmore.imp_right Eq.symm

/-- In the grammar of dots the definition consumes a dot before it comes to itself. -/
theorem descends_dots : dots.Descends (fun _ => true) (fun _ => 0) dotted := by
  have hbody : ∀ id body, dots.rule? id = some body → body = dotted := by
    intro id body h
    cases id with
    | zero => exact (Option.some.inj h).symm
    | succ id => cases h
  have hleft : ∀ r, dotted.Left (fun _ => true) r → r = dotted ∨ r = .discard dot ∨ r = dot := by
    intro r h
    induction h with
    | refl => exact .inl rfl
    | tail _ hmem ih =>
      rcases ih with rfl | rfl | rfl
      · exact .inr (.inl (List.mem_singleton.1 hmem))
      · exact .inr (.inr (List.mem_singleton.1 hmem))
      · cases hmem
  refine ⟨fun id body h _ => ?_, fun id body h other n hother => ?_, fun r hr => ?_⟩
  · rw [hbody id body h]
    rfl
  · rw [hbody id body h] at hother
    rcases hleft _ hother with h | h | h
    · cases h
    · cases h
    · cases h
  · rcases of_reaches_dotted hr with rfl | rfl | rfl | rfl | rfl
    · trivial
    · trivial
    · trivial
    · trivial
    · trivial

theorem eval_terminates_dots :
    dots.Accepted ∧ dotted.Accepted dots ∧ dots.Descends (fun _ => true) (fun _ => 0) dotted ∧
    ∃ n r t, r ≠ .error .outOfFuel ∧
      (∀ fuel ≥ n, (eval dots .blocking fuel dotted .root .none).runFrom
        (.ofSource (.ofData (.str [46, 46]))) = (r, t)) ∧
      ∀ fuel, ((eval dots .blocking fuel dotted .root .none).runFrom
          (.ofSource (.ofData (.str [46, 46])))).1 = .error .outOfFuel ∨
        (eval dots .blocking fuel dotted .root .none).runFrom
          (.ofSource (.ofData (.str [46, 46]))) = (r, t) := by
  have hdotted : dotted.Accepted dots := accepted_dotted (d := ⟨1, some dotted⟩) rfl rfl
  exact ⟨accepted_dots, hdotted, descends_dots,
    eval_terminates accepted_dots hdotted descends_dots .blocking .root .none _⟩

end Evaluation

end Backtrack
