/-
Clean rules, whose mismatches leave the cursor where it stood. A sequence that breaks off keeps what
its parts consumed, and so does a loop; so what may consume something before it mismatches has to be
told apart by structure. `Rule.isTotal` finds rules that never mismatch at all, and `Rule.isClean`
lets only such rules follow a part that may have consumed something.
-/
import Backtrack.Proofs.Extent
import Backtrack.Proofs.Arity
import Backtrack.Lexeme.Quotation
import Mathlib
namespace Backtrack

/-! ## Total rules and clean rules -/

namespace Rule

mutual

/-- Whether the structure of a rule rules mismatches out, the definitions being annotated. What
never has an outcome is total. -/
def isTotal (total : Nat → Bool) : Rule → Bool
  | noOp | optional _ | expected .. | reference none _ | abstract => true
  | item _ | literal _ | start | finish | never _ => false
  | reference (some id) _ => total id
  | and rules => areAllTotal total rules
  | or rules => isAnyTotal total rules
  | repetition _ min _ | punctuated _ _ min _ => decide (min ≤ 0)
  | andWithArg first second => isTotal total first && isTotal total second
  | map .total r _ _ | mapRange r _ | discard r | name r _ | peek r | wrapper r => isTotal total r
  | map (.attempt _) .. | map .optional .. => false

/-- Whether all of several rules are total. -/
def areAllTotal (total : Nat → Bool) : List Rule → Bool
  | [] => true
  | r :: rs => isTotal total r && areAllTotal total rs

/-- Whether one of several rules is total. -/
def isAnyTotal (total : Nat → Bool) : List Rule → Bool
  | [] => false
  | r :: rs => isTotal total r || isAnyTotal total rs

end

mutual

/-- Whether the structure of a rule keeps its mismatches from consuming anything, the definitions
being annotated. -/
def isClean (total clean : Nat → Bool) : Rule → Bool
  | item _ | literal _ | start | finish | never _ | or _ | peek _ => true
  | noOp | optional _ | expected .. | reference none _ | abstract => true
  | reference (some id) _ => total id || clean id
  | and rules => isLedCleanly total clean rules
  | repetition r min _ | punctuated r _ min _ =>
    decide (min ≤ 0) || decide (min ≤ 1) && isClean total clean r
  | andWithArg first second => isClean total clean first && isTotal total second
  | map .total r _ _ | mapRange r _ | discard r | name r _ | wrapper r => isClean total clean r
  | map (.attempt _) .. | map .optional .. => false

/-- Whether of several rules the first is clean and all others are total. -/
def isLedCleanly (total clean : Nat → Bool) : List Rule → Bool
  | [] => true
  | r :: rs => isClean total clean r && areAllTotal total rs

end

variable {total clean : Nat → Bool}

theorem areAllTotal_iff : ∀ {rules : List Rule},
    areAllTotal total rules = true ↔ ∀ r ∈ rules, r.isTotal total = true
  | [] => by simp [areAllTotal]
  | r :: rs => by simp [areAllTotal, areAllTotal_iff]

theorem isAnyTotal_iff : ∀ {rules : List Rule},
    isAnyTotal total rules = true ↔ ∃ r ∈ rules, r.isTotal total = true
  | [] => by simp [isAnyTotal]
  | r :: rs => by simp [isAnyTotal, isAnyTotal_iff]

/-- A total rule is clean. -/
theorem isClean_of_isTotal : ∀ {rule : Rule}, rule.isTotal total = true →
    rule.isClean total clean = true
  | item _, h | literal _, h | start, h | finish, h | never _, h | map (.attempt _) .., h
  | map .optional .., h => nomatch h
  | noOp, _ | optional _, _ | expected .., _ | abstract, _ | reference none _, _ | or _, _
  | peek _, _ => rfl
  | reference (some id) _, h => Bool.or_eq_true_iff.2 (.inl h)
  | and [], _ => rfl
  | and (r :: rs), h => by
    obtain ⟨hr, hrs⟩ := Bool.and_eq_true_iff.1 h
    exact Bool.and_eq_true_iff.2 ⟨isClean_of_isTotal hr, hrs⟩
  | repetition .., h | punctuated .., h => Bool.or_eq_true_iff.2 (.inl h)
  | andWithArg first second, h => by
    obtain ⟨hfirst, hsecond⟩ := Bool.and_eq_true_iff.1 h
    exact Bool.and_eq_true_iff.2 ⟨isClean_of_isTotal hfirst, hsecond⟩
  | map .total r _ _, h | mapRange r _, h | discard r, h | name r _, h | wrapper r, h => by
    rw [isTotal] at h
    rw [isClean]
    exact isClean_of_isTotal h

end Rule

/-- Something matched. -/
def Outcome.IsSuccess : Outcome → Prop
  | success _ => True
  | mismatch _ => False

namespace Evaluation

open Source (Inside)

variable {α β : Type} {c : Cursor}

/-! ## Total rules never mismatch -/

namespace Gives

/-- What is given is a success. -/
theorem success (vs : List Value) : Gives Outcome.IsSuccess (pure (.success vs)) := .pure trivial

/-- What follows a success alone decides, a mismatch being ruled out. -/
theorem bind_success {P : β → Prop} {x : Evaluation Outcome} {f : Outcome → Evaluation β}
    (hx : Gives Outcome.IsSuccess x) (hf : ∀ vs, Gives P (f (.success vs))) : Gives P (x >>= f) := by
  refine hx.bind fun o ho => ?_
  cases o with
  | success vs => exact hf vs
  | mismatch m => exact ho.elim

theorem sequence_success {run : Rule → Evaluation Outcome} : ∀ {rules : List Rule},
    (∀ r ∈ rules, Gives Outcome.IsSuccess (run r)) → ∀ values,
      Gives Outcome.IsSuccess (sequence run values rules)
  | [], _, values => .success values
  | r :: _, h, values =>
    bind_success (h r List.mem_cons_self) fun vs =>
      sequence_success (fun p hp => h p (List.mem_cons_of_mem r hp)) (values ++ vs)

/-- The alternative that never mismatches ends the choice, unless an earlier one does. -/
theorem choice_success {run : Cursor → Rule → Evaluation Outcome} (c : Cursor) :
    ∀ {rules : List Rule}, (∃ r ∈ rules, ∀ c, Gives Outcome.IsSuccess (run c r)) →
      Gives Outcome.IsSuccess (choice run c rules)
  | [], h => by
    obtain ⟨r, hr, -⟩ := h
    cases hr
  | r :: rs, h => by
    refine .bind_right fun fork => ?_
    by_cases hr : Gives Outcome.IsSuccess (run fork r)
    · exact .bind_success (.onFailure hr) fun vs => .bind_right fun _ => .success vs
    · -- the alternative that never mismatches comes later
      have hrs : ∃ p ∈ rs, ∀ c, Gives Outcome.IsSuccess (run c p) := by
        obtain ⟨p, hp, htotal⟩ := h
        rcases List.mem_cons.1 hp with rfl | hp
        · exact absurd (htotal fork) hr
        · exact ⟨p, hp, htotal⟩
      refine .bind_right fun o => ?_
      cases o with
      | success vs => exact .bind_right fun _ => .success vs
      | mismatch m => exact .bind_right fun _ => choice_success c hrs

/-- A loop that has gone round often enough succeeds however it ends. -/
theorem repetition_success (body : Evaluation Outcome) {min : Int} (max : Option Int) :
    ∀ (fuel : Nat) {count : Int} (reversed : List Value), min ≤ count →
      Gives Outcome.IsSuccess (repetition body min max fuel count reversed) := by
  have hrepeated : ∀ {count : Int} last reversed, min ≤ count →
      Gives Outcome.IsSuccess (pure (repeated min count last reversed)) := by
    intro count last reversed hcount
    rw [repeated, if_neg (by omega)]
    exact .success _
  intro fuel
  induction fuel with
  | zero => exact fun reversed hcount => .ite (hrepeated _ _ hcount) (.throw _)
  | succ fuel ih =>
    intro count reversed hcount
    refine .ite (hrepeated _ _ hcount) (.bind_right fun o => ?_)
    cases o with
    | mismatch m => exact hrepeated _ _ hcount
    | success vs => exact .bind_right fun v => ih _ (by omega)

theorem punctuatedResult_success {min count : Int} (last : Option Mismatch)
    (elements separators : List Value) (hcount : min ≤ count) :
    Gives Outcome.IsSuccess (pure (Evaluation.punctuatedResult min count last elements separators)) := by
  rw [Evaluation.punctuatedResult, if_neg (by omega)]
  exact .success _

theorem punctuatedRest_success (pair : Evaluation (Except Mismatch (Value × Value))) {min : Int}
    (max : Option Int) : ∀ (fuel : Nat) {count : Int} (elements separators : List Value),
      min ≤ count → Gives Outcome.IsSuccess
        (punctuatedRest pair min max fuel count elements separators) := by
  intro fuel
  induction fuel with
  | zero => exact fun _ _ hcount => .ite (punctuatedResult_success _ _ _ hcount) (.throw _)
  | succ fuel ih =>
    intro count elements separators hcount
    refine .ite (punctuatedResult_success _ _ _ hcount) (.bind_right fun found => ?_)
    cases found with
    | error m => exact punctuatedResult_success _ _ _ hcount
    | ok found => exact ih _ _ (by omega)

theorem punctuated_success (element separator : Cursor → Evaluation Outcome) (c : Cursor) {min : Int}
    (max : Option Int) (fuel : Nat) (hmin : min ≤ 0) :
    Gives Outcome.IsSuccess (punctuated element separator c min max fuel) := by
  refine .bind_right fun o => ?_
  cases o with
  | mismatch m => exact punctuatedResult_success _ _ _ hmin
  | success es => exact .bind_right fun e => .punctuatedRest_success _ max fuel _ _ (by omega)

theorem optional_success (body : Evaluation Outcome) :
    Gives Outcome.IsSuccess (optional body) := by
  refine .bind_right fun o => ?_
  cases o with
  | mismatch m => exact .success _
  | success vs => exact .bind_right fun v => .success _

theorem andWithArg_success {first : Evaluation Outcome} {second : Value → Evaluation Outcome}
    (hfirst : Gives Outcome.IsSuccess first) (hsecond : ∀ v, Gives Outcome.IsSuccess (second v)) :
    Gives Outcome.IsSuccess (andWithArg first second) :=
  .bind_success hfirst fun _ => .bind_right fun v => .bind_success (hsecond v) fun _ => .success _

/-- A mapper whose result is a value in any case makes a success. -/
theorem call_success (path : Path) (fn : Mapper) (args : List Value) :
    Gives Outcome.IsSuccess (call path .total fn args) := by
  refine .bind_right fun _ => ?_
  cases fn.run args with
  | ok v => exact .success _
  | error f => exact .fail _

theorem map_success {body : Evaluation Outcome} (h : Gives Outcome.IsSuccess body) (path : Path)
    (fn : Mapper) (extra : List Value) :
    Gives Outcome.IsSuccess (Evaluation.map path .total body fn extra) :=
  .bind_success h fun _ => .call_success path fn _

theorem mapRange_success {body : Evaluation Outcome} (h : Gives Outcome.IsSuccess body) (path : Path)
    (c : Cursor) (fn : Option Mapper) : Gives Outcome.IsSuccess (mapRange path body c fn) := by
  refine .bind_right fun first => .bind_success h fun vs => .bind_right fun last => ?_
  cases fn with
  | none => exact .success _
  | some fn => exact .call_success path fn _

theorem expected_success (body : Evaluation Outcome) (c : Cursor) (what : Value) :
    Gives Outcome.IsSuccess (expected body c what) := by
  refine .bind_right fun o => ?_
  cases o with
  | success vs => exact .success vs
  | mismatch m => exact .bind_right fun _ => .bind_right fun _ => .fail _

theorem peek_success {run : Cursor → Evaluation Outcome} (h : ∀ c, Gives Outcome.IsSuccess (run c))
    (c : Cursor) : Gives Outcome.IsSuccess (peek run c) :=
  .bind_right fun fork => .bind_success (.onFailure (h fork)) fun vs =>
    .bind_right fun _ => .success vs

end Gives

/-- A total rule never mismatches. -/
theorem gives_success {g : Grammar} {total : Nat → Bool}
    (htotal : ∀ id body, g.rule? id = some body → total id = true → body.isTotal total = true)
    (path : Path) : ∀ (fuel : Nat) {rule : Rule}, rule.isTotal total = true →
      ∀ (c : Cursor) (arg : Value), Gives Outcome.IsSuccess (eval g path fuel rule c arg)
  | 0, _, _, _, _ => .throw _
  | fuel + 1, rule, h, c, arg => by
    have ih := fun {r : Rule} (hr : r.isTotal total = true) c v =>
      gives_success htotal path fuel hr c v
    cases rule with
    | item m => cases h
    | literal content => cases h
    | start => cases h
    | finish => cases h
    | never n => cases h
    | noOp => exact .success []
    | reference target n =>
      cases target with
      | none => exact .throw _
      | some id =>
        rw [eval, Option.bind_some]
        cases hbody : g.rule? id with
        | none => exact .throw _
        | some body => exact ih (htotal id body hbody h) c arg
    | and rules =>
      have hall := Rule.areAllTotal_iff.1 h
      exact .sequence_success (fun r hr => ih (hall r hr) c arg) []
    | or rules =>
      obtain ⟨r, hr, hr'⟩ := Rule.isAnyTotal_iff.1 h
      exact .choice_success c ⟨r, hr, fun c => ih hr' c arg⟩
    | repetition r min max => exact .repetition_success _ max fuel [] (of_decide_eq_true h)
    | optional r => exact .optional_success _
    | punctuated element separator min max =>
      exact .punctuated_success _ _ c max fuel (of_decide_eq_true h)
    | andWithArg first second =>
      obtain ⟨hfirst, hsecond⟩ := Bool.and_eq_true_iff.1 h
      exact .andWithArg_success (ih hfirst c arg) fun v => ih hsecond c v
    | map conversion r fn withArg =>
      cases conversion with
      | total =>
        rw [Rule.isTotal] at h
        exact .map_success (ih h c arg) path fn _
      | attempt wrap => cases h
      | optional => cases h
    | mapRange r fn =>
      rw [Rule.isTotal] at h
      exact .mapRange_success (ih h c arg) path c fn
    | discard r =>
      rw [Rule.isTotal] at h
      refine Gives.map (ih h c arg) fun o ho => ?_
      cases o with
      | success vs => trivial
      | mismatch m => exact ho.elim
    | expected r what => exact .expected_success _ c what
    | name r label =>
      rw [Rule.isTotal] at h
      refine Gives.map (ih h c arg) fun o ho => ?_
      cases o with
      | success vs => trivial
      | mismatch m => exact ho.elim
    | peek r =>
      rw [Rule.isTotal] at h
      exact .peek_success (fun c => ih h c arg) c
    | wrapper r =>
      rw [Rule.isTotal] at h
      exact ih h c arg
    | abstract => exact .throw _

/-! ## Clean rules consume nothing on a mismatch -/

/-- Where the evaluation gives something with the property, its cursor is where it was. -/
def Stays (c : Cursor) (P : α → Prop) (x : Evaluation α) : Prop :=
  ∀ (s : State) (a : α) (t : State), x.runFrom s = (.ok a, t) → P a →
    t.source.positionOf c = s.source.positionOf c

/-- Nothing matched. -/
def IsMismatch (o : Outcome) : Prop := ¬ o.IsSuccess

namespace Stays

variable {P : α → Prop} {Q : β → Prop}

protected theorem pure (a : α) : Stays c P (pure a) := by
  rintro s _ _ ⟨⟩ -
  rfl

protected theorem throw (h : Halt) : Stays c P (throw h : Evaluation α) := by
  rintro s a t ⟨⟩

/-- No success is a mismatch. -/
theorem gives_of_success {x : Evaluation Outcome} (h : Gives Outcome.IsSuccess x) :
    Gives (fun o => ¬ IsMismatch o) x :=
  fun s o t hrun hmismatch => hmismatch (h s o t hrun)

theorem of_success {x : Evaluation Outcome} (h : Gives Outcome.IsSuccess x) : Stays c IsMismatch x :=
  fun s o t hrun ho => absurd (h s o t hrun) ho

/-- What stays everywhere and then where it matters stays where it matters. -/
protected theorem bind {x : Evaluation α} {f : α → Evaluation β} (hx : Stays c (fun _ => True) x)
    (hf : ∀ a, Stays c Q (f a)) : Stays c Q (x >>= f) := by
  intro s b t h hb
  obtain ⟨a, u, hrun, hrest⟩ := of_bind_eq_ok h
  exact (hf a u b t hrest hb).trans (hx s a u hrun trivial)

/-- What matches may consume something if nothing can mismatch behind it. -/
theorem bind_of_success {x : Evaluation Outcome} {f : Outcome → Evaluation β}
    (hx : Stays c IsMismatch x) (hmismatch : ∀ m, Stays c Q (f (.mismatch m)))
    (hsuccess : ∀ vs, Gives (fun b => ¬ Q b) (f (.success vs))) : Stays c Q (x >>= f) := by
  intro s b t h hb
  obtain ⟨o, u, hrun, hrest⟩ := of_bind_eq_ok h
  cases o with
  | success vs => exact absurd hb (hsuccess vs u b t hrest)
  | mismatch m => exact (hmismatch m u b t hrest hb).trans (hx s _ u hrun id)

protected theorem ite {p : Prop} [Decidable p] {x y : Evaluation α} (hx : Stays c P x)
    (hy : Stays c P y) : Stays c P (if p then x else y) := by
  split
  · exact hx
  · exact hy

theorem of_still {x : Evaluation α} {r : Except Failure α} (h : x.Still r) : Stays c P x := by
  intro s a t hrun _
  have hsame := (h s).2
  rw [hrun] at hsame
  rw [hsame]

theorem read {P : Sequence → Prop} (path : Path) (c : Cursor) (amount : Int) :
    Stays c P (onSource (Source.read path c amount)) := by
  intro s a t hrun _
  obtain ⟨-, ht⟩ := of_onSource_eq_ok hrun
  rw [ht]
  cases hc : s.source.isClosed c with
  | true => rw [Source.runOn_read_of_closed hc]; rfl
  | false => rw [Source.runOn_read hc]; rfl

protected theorem positionOf (d : Cursor) : Stays c (fun _ => True) (positionOf d) := by
  rintro s a t ⟨⟩ -
  rfl

/-! ### Rules without parts -/

protected theorem item (path : Path) (c : Cursor) (arg : Value) (m : Matcher) :
    Stays c IsMismatch (item path c arg m) := by
  refine .bind (.read path c 1) fun items => ?_
  cases items.get? 0 with
  | none => exact .pure _
  | some v =>
    refine .bind (.of_still (.passes path v arg m)) fun passed => ?_
    exact .ite (.of_success (.bind_right fun _ => .success _)) (.pure _)

protected theorem lookAhead (path : Path) (c : Cursor) (expected : Sequence) :
    ∀ left index : Nat, Stays c (fun _ => True) (lookAhead path c expected index left)
  | 0, _ => .pure true
  | left + 1, index => by
    refine .bind (.read path c _) fun items => ?_
    cases items.get? index with
    | none => exact .pure false
    | some v =>
      cases expected.get? index with
      | none => exact .pure false
      | some w => exact .ite (Stays.lookAhead path c expected left (index + 1)) (.pure false)

protected theorem literal (path : Path) (c : Cursor) (content : Value) :
    Stays c IsMismatch (literal path c content) := by
  refine .bind (.of_still (.ofExcept _)) fun expected => ?_
  refine .bind (.lookAhead path c expected _ 0) fun found => ?_
  exact .ite (.of_success (.bind_right fun _ => .success _)) (.pure _)

protected theorem start (c : Cursor) : Stays c IsMismatch (start c) :=
  .bind (.positionOf c) fun _ => .ite (.pure _) (.pure _)

protected theorem finish (path : Path) (c : Cursor) : Stays c IsMismatch (finish path c) :=
  .bind (.read path c 1) fun _ => .pure _

/-! ### Rules in forks -/

/-- Whatever an alternative consumed before it mismatched went with its fork. -/
protected theorem choice {run : Cursor → Rule → Evaluation Outcome}
    (hmoves : ∀ c r, Moves c (run c r)) : ∀ rules, Stays c IsMismatch (choice run c rules)
  | [] => .pure _
  | r :: rs => by
    intro s o t hrun ho
    obtain ⟨fork, u, hfork, hrun⟩ := of_bind_eq_ok hrun
    obtain ⟨rfl, hu⟩ := Inside.of_onSource_fork_eq_ok hfork
    obtain ⟨o', w, hr, hrun⟩ := of_bind_eq_ok hrun
    have hw := hu.run (hmoves (.fork s.source.forks.size) r)
    rw [of_onFailure_eq_ok hr] at hw
    cases o' with
    | success vs =>
      obtain ⟨a, v, -, hrun⟩ := of_bind_eq_ok hrun
      cases hrun
      exact absurd trivial ho
    | mismatch m =>
      obtain ⟨a, v, hclose, hrun⟩ := of_bind_eq_ok hrun
      rw [Stays.choice hmoves rs v o t hrun ho, (of_onSource_eq_ok hclose).2]
      exact hw.positionOf_close

protected theorem peek {P : Outcome → Prop} {run : Cursor → Evaluation Outcome}
    (hmoves : ∀ c, Moves c (run c)) : Stays c P (peek run c) := by
  intro s o t hrun _
  obtain ⟨fork, u, hfork, hrun⟩ := of_bind_eq_ok hrun
  obtain ⟨rfl, hu⟩ := Inside.of_onSource_fork_eq_ok hfork
  obtain ⟨o', w, hr, hrun⟩ := of_bind_eq_ok hrun
  have hw := hu.run (hmoves (.fork s.source.forks.size))
  rw [of_onFailure_eq_ok hr] at hw
  obtain ⟨a, v, hclose, hrun⟩ := of_bind_eq_ok hrun
  cases hrun
  rw [(of_onSource_eq_ok hclose).2]
  exact hw.positionOf_close

/-! ### Rules with parts -/

/-- A sequence may only mismatch in its first part. -/
theorem sequence_cons {run : Rule → Evaluation Outcome} {r : Rule} {rs : List Rule}
    (hr : Stays c IsMismatch (run r)) (hrs : ∀ p ∈ rs, Gives Outcome.IsSuccess (run p))
    (values : List Value) : Stays c IsMismatch (sequence run values (r :: rs)) :=
  .bind_of_success hr (fun _ => .pure _) fun _ => gives_of_success (.sequence_success hrs _)

/-- A loop that must go round once at most may only mismatch in its first round. -/
protected theorem repetition {body : Evaluation Outcome} (h : Stays c IsMismatch body) {min : Int}
    (hmin : min ≤ 1) (max : Option Int) :
    ∀ fuel, Stays c IsMismatch (repetition body min max fuel 0 [])
  | 0 => .ite (.pure _) (.throw _)
  | fuel + 1 =>
    .ite (.pure _) (.bind_of_success h (fun _ => .pure _) fun _ =>
      .bind_right fun _ => gives_of_success (.repetition_success body max fuel _ (by omega)))

protected theorem punctuated {element separator : Cursor → Evaluation Outcome}
    (h : Stays c IsMismatch (element c)) {min : Int} (hmin : min ≤ 1) (max : Option Int)
    (fuel : Nat) : Stays c IsMismatch (punctuated element separator c min max fuel) :=
  .bind_of_success h (fun _ => .pure _) fun _ =>
    .bind_right fun _ => gives_of_success (.punctuatedRest_success _ max fuel _ _ hmin)

protected theorem andWithArg {first : Evaluation Outcome} {second : Value → Evaluation Outcome}
    (hfirst : Stays c IsMismatch first) (hsecond : ∀ v, Gives Outcome.IsSuccess (second v)) :
    Stays c IsMismatch (andWithArg first second) :=
  .bind_of_success hfirst (fun _ => .pure _) fun _ =>
    gives_of_success (.bind_right fun v => .bind_success (hsecond v) fun _ => .success _)

theorem map_rule {body : Evaluation Outcome} (h : Stays c IsMismatch body) (path : Path) (fn : Mapper)
    (extra : List Value) : Stays c IsMismatch (Evaluation.map path .total body fn extra) :=
  .bind_of_success h (fun _ => .pure _) fun _ => gives_of_success (.call_success path fn _)

protected theorem mapRange {body : Evaluation Outcome} (h : Stays c IsMismatch body) (path : Path)
    (fn : Option Mapper) : Stays c IsMismatch (mapRange path body c fn) := by
  refine .bind (.positionOf c) fun first => .bind_of_success h (fun _ => .pure _) fun vs => ?_
  refine gives_of_success (.bind_right fun last => ?_)
  cases fn with
  | none => exact .success _
  | some fn => exact .call_success path fn _

/-- Changing nothing but the values of successes and the labels of mismatches stays as well. -/
protected theorem map {body : Evaluation Outcome} {f : Outcome → Outcome}
    (h : Stays c IsMismatch body) (hf : ∀ vs, (f (.success vs)).IsSuccess) :
    Stays c IsMismatch (f <$> body) := by
  rw [map_eq_pure_bind]
  exact .bind_of_success h (fun _ => .pure _) fun vs => gives_of_success (.pure (hf vs))

end Stays

/-- A clean rule consumes nothing when it mismatches. -/
theorem eval_stays {g : Grammar} {total clean : Nat → Bool}
    (htotal : ∀ id body, g.rule? id = some body → total id = true → body.isTotal total = true)
    (hclean : ∀ id body, g.rule? id = some body → clean id = true →
      body.isClean total clean = true) (path : Path) :
    ∀ (fuel : Nat) {rule : Rule}, rule.isClean total clean = true →
      ∀ (c : Cursor) (arg : Value), Stays c IsMismatch (eval g path fuel rule c arg)
  | 0, _, _, _, _ => .throw _
  | fuel + 1, rule, h, c, arg => by
    have ih := fun {r : Rule} (hr : r.isClean total clean = true) c v =>
      eval_stays htotal hclean path fuel hr c v
    have hgives := fun {r : Rule} (hr : r.isTotal total = true) c v =>
      gives_success htotal path fuel hr c v
    have hmoves := fun r c v => eval_moves g path fuel r c v
    cases rule with
    | item m => exact .item path c arg m
    | literal content => exact .literal path c content
    | start => exact .start c
    | finish => exact .finish path c
    | never n => exact .pure _
    | noOp => exact .pure _
    | reference target n =>
      cases target with
      | none => exact .throw _
      | some id =>
        rw [eval, Option.bind_some]
        cases hbody : g.rule? id with
        | none => exact .throw _
        | some body =>
          rcases Bool.or_eq_true_iff.1 h with h | h
          · exact ih (Rule.isClean_of_isTotal (htotal id body hbody h)) c arg
          · exact ih (hclean id body hbody h) c arg
    | and rules =>
      cases rules with
      | nil => exact .pure _
      | cons r rs =>
        obtain ⟨hr, hrs⟩ : r.isClean total clean = true ∧ Rule.areAllTotal total rs = true :=
          Bool.and_eq_true_iff.1 h
        exact .sequence_cons (ih hr c arg) (fun p hp => hgives (Rule.areAllTotal_iff.1 hrs p hp) c arg) []
    | or rules => exact .choice (fun c r => hmoves r c arg) rules
    | repetition r min max =>
      rcases Bool.or_eq_true_iff.1 h with hmin | h
      · exact .of_success (.repetition_success _ max fuel [] (of_decide_eq_true hmin))
      · obtain ⟨hmin, hr⟩ := Bool.and_eq_true_iff.1 h
        exact .repetition (ih hr c arg) (of_decide_eq_true hmin) max fuel
    | optional r => exact .of_success (.optional_success _)
    | punctuated element separator min max =>
      rcases Bool.or_eq_true_iff.1 h with hmin | h
      · exact .of_success (.punctuated_success _ _ c max fuel (of_decide_eq_true hmin))
      · obtain ⟨hmin, he⟩ := Bool.and_eq_true_iff.1 h
        exact .punctuated (ih he c arg) (of_decide_eq_true hmin) max fuel
    | andWithArg first second =>
      obtain ⟨hfirst, hsecond⟩ := Bool.and_eq_true_iff.1 h
      exact .andWithArg (ih hfirst c arg) fun v => hgives hsecond c v
    | map conversion r fn withArg =>
      cases conversion with
      | total =>
        rw [Rule.isClean] at h
        exact .map_rule (ih h c arg) path fn _
      | attempt wrap => cases h
      | optional => cases h
    | mapRange r fn =>
      rw [Rule.isClean] at h
      exact .mapRange (ih h c arg) path fn
    | discard r =>
      rw [Rule.isClean] at h
      exact .map (f := valueless) (ih h c arg) fun vs => trivial
    | expected r what => exact .of_success (.expected_success _ c what)
    | name r label =>
      rw [Rule.isClean] at h
      exact .map (f := labelled label) (ih h c arg) fun vs => trivial
    | peek r => exact .peek fun c => hmoves r c arg
    | wrapper r =>
      rw [Rule.isClean] at h
      exact ih h c arg
    | abstract => exact .throw _

end Evaluation

/-! ## Ready rules -/

namespace Lexeme

/-- The ready rules that read a whole number, name, escape or string, or white space. -/
inductive IsToken : Rule → Prop where
  | integer : IsToken integer
  | float : IsToken float
  | digits : IsToken digits
  | identifier : IsToken identifier
  | whitespace : IsToken (whitespace 1)
  | unicodeEscape : IsToken unicodeEscape
  | quotedString {quotes escape escapes : Value} {advanced : List Operand} {r : Rule}
    (h : quotedString quotes escape escapes advanced = .ok r) : IsToken r
  | rawQuotedString {quotes opening : Value} {r : Rule}
    (h : rawQuotedString quotes opening = .ok r) : IsToken r

/-- Quoted strings of several kinds are a choice. -/
theorem eq_or_of_quotedString {quotes escape escapes : Value} {advanced : List Operand} {r : Rule}
    (h : quotedString quotes escape escapes advanced = .ok r) : ∃ kinds, r = .or kinds := by
  obtain ⟨size, -, h⟩ := Except.of_bind_eq_ok h
  split at h
  · cases h
  · obtain ⟨escaped, -, h⟩ := Except.of_bind_eq_ok h
    obtain ⟨visited, -, h⟩ := Except.of_bind_eq_ok h
    obtain ⟨kinds, -, h⟩ := Except.of_bind_eq_ok h
    cases h
    exact ⟨kinds, rfl⟩

theorem eq_or_of_rawQuotedString {quotes opening : Value} {r : Rule}
    (h : rawQuotedString quotes opening = .ok r) : ∃ kinds, r = .or kinds := by
  obtain ⟨size, -, h⟩ := Except.of_bind_eq_ok h
  split at h
  · cases h
  · obtain ⟨visited, -, h⟩ := Except.of_bind_eq_ok h
    obtain ⟨kinds, -, h⟩ := Except.of_bind_eq_ok h
    cases h
    exact ⟨kinds, rfl⟩

/-- A token is clean whatever is known of definitions: only its own structure matters. -/
theorem IsToken.isClean {r : Rule} (h : IsToken r) (total clean : Nat → Bool) :
    r.isClean total clean = true := by
  cases h with
  | integer => rfl
  | float => rfl
  | digits => rfl
  | identifier => rfl
  | whitespace => rfl
  | unicodeEscape => rfl
  | quotedString h =>
    obtain ⟨kinds, rfl⟩ := eq_or_of_quotedString h
    rfl
  | rawQuotedString h =>
    obtain ⟨kinds, rfl⟩ := eq_or_of_rawQuotedString h
    rfl

end Lexeme

namespace Evaluation

/-- A mismatch of a clean rule leaves the cursor where it stood, and a total rule does not mismatch
at all, whatever annotation of the definitions their rules bear out. Tokens are clean, so none of
them consumes anything unless it matches. -/
theorem positionOf_of_mismatch {g : Grammar} {total clean : Nat → Bool}
    (htotal : ∀ id body, g.rule? id = some body → total id = true → body.isTotal total = true)
    (hclean : ∀ id body, g.rule? id = some body → clean id = true →
      body.isClean total clean = true) (path : Path) (fuel : Nat) (c : Cursor) (arg : Value)
    (s t : State) (m : Mismatch) :
    (∀ rule, rule.isClean total clean = true →
      (eval g path fuel rule c arg).runFrom s = (.ok (.mismatch m), t) →
      t.source.positionOf c = s.source.positionOf c) ∧
    (∀ rule, rule.isTotal total = true →
      (eval g path fuel rule c arg).runFrom s ≠ (.ok (.mismatch m), t)) ∧
    ∀ rule, Lexeme.IsToken rule →
      (eval g path fuel rule c arg).runFrom s = (.ok (.mismatch m), t) →
      t.source.positionOf c = s.source.positionOf c := by
  have hstays : ∀ rule, rule.isClean total clean = true →
      (eval g path fuel rule c arg).runFrom s = (.ok (.mismatch m), t) →
      t.source.positionOf c = s.source.positionOf c := fun rule hrule hrun =>
    eval_stays htotal hclean path fuel hrule c arg s _ t hrun id
  exact ⟨hstays, fun rule hrule hrun => gives_success htotal path fuel hrule c arg s _ t hrun,
    fun rule hrule => hstays rule (hrule.isClean total clean)⟩

/-- A dot that is looked for in front of a letter, and an integer that ends after its minus. -/
theorem positionOf_of_mismatch_dots :
    (∃ t, (eval dots .blocking 9 (.reference (some 0) 1) .root .none).runFrom
        (.ofSource (.ofData (.str [97]))) = (.ok (.mismatch .plain), t) ∧
      t.source.positionOf .root = 0) ∧
    ∃ t, (eval dots .blocking 9 Lexeme.integer .root .none).runFrom
        (.ofSource (.ofData (.str [45]))) = (.ok (.mismatch .plain), t) ∧
      t.source.positionOf .root = 0 := by
  have htotal : ∀ id body, dots.rule? id = some body → false = true →
      body.isTotal (fun _ => false) = true := by
    rintro id body - ⟨⟩
  -- a dot and possibly more dots is clean if its definition is
  have hclean : ∀ id body, dots.rule? id = some body → true = true →
      body.isClean (fun _ => false) (fun _ => true) = true := by
    rintro (_ | id) body hbody -
    · cases hbody
      rfl
    · cases hbody
  -- only what the runs end with is to be worked out, not the states that they leave
  have hends : ∀ (rule : Rule) (s : State), ((eval dots .blocking 9 rule .root .none).runFrom s).1 =
      .ok (.mismatch .plain) →
      ∃ t, (eval dots .blocking 9 rule .root .none).runFrom s = (.ok (.mismatch .plain), t) :=
    fun _ _ h => ⟨_, Prod.ext h rfl⟩
  obtain ⟨t, ht⟩ := hends (.reference (some 0) 1) (.ofSource (.ofData (.str [97]))) (by cbv)
  obtain ⟨u, hu⟩ := hends Lexeme.integer (.ofSource (.ofData (.str [45]))) (by cbv)
  have hkeeps := fun s t =>
    positionOf_of_mismatch htotal hclean .blocking 9 .root .none s t .plain
  exact ⟨⟨t, ht, (hkeeps _ t).1 _ rfl ht⟩, ⟨u, hu, (hkeeps _ u).2.2 _ .integer hu⟩⟩

end Evaluation
end Backtrack
