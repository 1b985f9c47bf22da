/-
Two runs of one rule, from cursors that go together. A pairing says which cursors of which sources go
together, and whether the comparison may be given up once the first run has failed. The sources may
differ, and so may the arguments, if the rule does not read its argument. What a pairing has to keep
is little: to look one item further than where an item was found before, to consume what was found, and
to make forks and end them. If cursors that go together do this with the same results and go together
afterwards, then so it is with every rule.
-/
import Backtrack.Proofs.Pulling
namespace Backtrack

open Source (Forked Motion Pulled)

/-! ## Rules that read the argument -/

/-- Under some two arguments an item fares differently. -/
def Matcher.DependsOnArgument (m : Matcher) : Prop :=
  ∃ item arg arg', m.accepts item arg ≠ m.accepts item arg'

/-- The rule itself looks at the argument, to test an item in the light of it or to hand it to a
mapper. -/
def Rule.UsesArgument : Rule → Prop
  | item m => m.DependsOnArgument
  | map _ _ _ withArg => withArg = true
  | _ => False

/-- The parts of a rule that are evaluated under its own argument, which are all but a rule that gets
its argument from another one. -/
def Grammar.heirs (g : Grammar) : Rule → List Rule
  | .andWithArg first _ => [first]
  | rule => g.parts rule

/-- Among the rule, its parts under its own argument, the parts of these and so on, one looks at the
argument. -/
def Grammar.ReadsArgument (g : Grammar) (rule : Rule) : Prop :=
  ∃ part, Relation.ReflTransGen (fun r part => part ∈ g.heirs r) rule part ∧ part.UsesArgument

theorem Grammar.ReadsArgument.of_uses {g : Grammar} {rule : Rule} (h : rule.UsesArgument) :
    g.ReadsArgument rule := ⟨rule, .refl, h⟩

theorem Grammar.ReadsArgument.of_heir {g : Grammar} {rule part : Rule} (hpart : part ∈ g.heirs rule)
    (h : g.ReadsArgument part) : g.ReadsArgument rule := by
  obtain ⟨user, hreaches, huses⟩ := h
  exact ⟨user, hreaches.head hpart, huses⟩

theorem Matcher.accepts_eq {m : Matcher} (h : ¬ m.DependsOnArgument) (item arg arg' : Value) :
    m.accepts item arg = m.accepts item arg' := by
  by_contra hne
  exact h ⟨item, arg, arg', hne⟩

/-! ## Pairings -/

/-- What two runs are compared by: which cursors of which sources go together, and whether nothing is
said of a first run that fails. -/
structure Pairing where
  paired : Cursor → Cursor → Source → Source → Prop
  lenient : Prop

namespace Pairing

/-- The runs end with the same result, in states that belong together, unless the first one has failed
and that is let pass. -/
def Agree (P : Pairing) {ε α σ : Type} (R : σ → σ → Prop) (ran ran' : Except ε α × σ) : Prop :=
  (P.lenient ∧ ∃ e, ran.1 = .error e) ∨ ∃ t', ran' = (ran.1, t') ∧ R ran.2 t'

/-- Of two cursors that went together forks were made, which go together by now. -/
structure Nested (P : Pairing) (d d' : Cursor) (s s' t t' : Source) : Prop where
  outer : P.paired d d' s s'
  forked : Forked Pulled d s t
  forked' : Forked Pulled d' s' t'
  inner : P.paired (.fork s.forks.size) (.fork s'.forks.size) t t'

/-- Cursors that go together stand at the same position and are open alike, and whatever is done at
both of them keeps them together: reading one item behind those found, consuming these, making forks,
and leaving, closing or joining what was made. -/
class Lawful (P : Pairing) : Prop where
  settle {d d' : Cursor} {s s' : Source} (h : P.paired d d' s s') :
    P.paired d d' { s with events := [] } { s' with events := [] }
  isClosed {d d' : Cursor} {s s' : Source} (h : P.paired d d' s s') : s'.isClosed d' = s.isClosed d
  positionOf {d d' : Cursor} {s s' : Source} (h : P.paired d d' s s') :
    s'.positionOf d' = s.positionOf d
  read {d d' : Cursor} {s s' : Source} {n : Nat} (h : P.paired d d' s s')
    (hn : s.buffer.Finds (s.offset d) n) (path : Path) :
    P.Agree (P.paired d d') ((Source.read path d (n + 1)).runOn s)
      ((Source.read path d' (n + 1)).runOn s')
  consume {d d' : Cursor} {s s' : Source} {n : Nat} (h : P.paired d d' s s')
    (hn : s.buffer.Finds (s.offset d) n) :
    P.Agree (P.paired d d') ((Source.consume d n).runOn s) ((Source.consume d' n).runOn s')
  addFork {d d' : Cursor} {s s' : Source} (h : P.paired d d' s s') (hopen : s.isClosed d = false) :
    P.paired (.fork s.forks.size) (.fork s'.forks.size) (s.addFork d) (s'.addFork d')
  left {d d' : Cursor} {s s' t t' : Source} (h : P.Nested d d' s s' t t') : P.paired d d' t t'
  close {d d' : Cursor} {s s' t t' : Source} (h : P.Nested d d' s s' t t') :
    P.Agree (P.paired d d') ((Source.close (.fork s.forks.size)).runOn t)
      ((Source.close (.fork s'.forks.size)).runOn t')
  join {d d' : Cursor} {s s' t t' : Source} (h : P.Nested d d' s s' t t') :
    P.Agree (P.paired d d') ((Source.join (.fork s.forks.size)).runOn t)
      ((Source.join (.fork s'.forks.size)).runOn t')

open Evaluation

/-- The cursors go together in these states. -/
def States (P : Pairing) (d d' : Cursor) (s s' : State) : Prop := P.paired d d' s.source s'.source

/-- Started at cursors that go together, the computations agree, and the cursors go together again. -/
def Together (P : Pairing) {α : Type} (x x' : Cursor → Evaluation α) : Prop :=
  ∀ (d d' : Cursor) (s s' : State), P.States d d' s s' →
    P.Agree (P.States d d') ((x d).runFrom s) ((x' d').runFrom s')

/-! ## Computations one after another -/

section

variable {P : Pairing} {R Q : State → State → Prop} {α β : Type} {s s' : State}

/-- What follows a run that agrees agrees, if it does so from wherever the run has got. -/
theorem Agree.bind_left {x x' : Evaluation α} {f f' : α → Evaluation β}
    (h : P.Agree Q (x.runFrom s) (x'.runFrom s')) (hleft : ∀ t t', Q t t' → R t t')
    (hf : ∀ a t t', x.runFrom s = (.ok a, t) → Q t t' →
      P.Agree R ((f a).runFrom t) ((f' a).runFrom t')) :
    P.Agree R ((x >>= f).runFrom s) ((x' >>= f').runFrom s') := by
  rw [runFrom_bind, runFrom_bind]
  rcases hx : x.runFrom s with ⟨e | a, t⟩ <;> rw [hx] at h
  · rcases h with ⟨hlenient, -⟩ | ⟨t', hx', hQ⟩
    · exact .inl ⟨hlenient, e, rfl⟩
    · rw [hx']
      exact .inr ⟨t', rfl, hleft _ _ hQ⟩
  · rcases h with ⟨-, e, ⟨⟩⟩ | ⟨t', hx', hQ⟩
    rw [hx']
    exact hf a t t' hx hQ

protected theorem Agree.bind {x x' : Evaluation α} {f f' : α → Evaluation β}
    (h : P.Agree R (x.runFrom s) (x'.runFrom s'))
    (hf : ∀ a t t', x.runFrom s = (.ok a, t) → R t t' →
      P.Agree R ((f a).runFrom t) ((f' a).runFrom t')) :
    P.Agree R ((x >>= f).runFrom s) ((x' >>= f').runFrom s') :=
  h.bind_left (fun _ _ ht => ht) hf

protected theorem Agree.pure (h : R s s') (a : α) :
    P.Agree R ((pure a : Evaluation α).runFrom s) ((pure a : Evaluation α).runFrom s') :=
  .inr ⟨s', rfl, h⟩

/-- After a failure comes what is done then, and the failure again. -/
theorem runFrom_attempt_of_failed {x : Evaluation α} {handle : Failure → Evaluation Unit}
    {f : α → Evaluation β} {e : Failure} {t : State} (h : x.runFrom s = (.error (.failed e), t)) :
    (onFailure x handle >>= f).runFrom s = (handle e >>= fun _ => fail e).runFrom t := by
  rw [runFrom_bind, runFrom_bind, runFrom_onFailure, h, afterFailure]
  rcases (handle e).runFrom t with ⟨e' | _, u⟩ <;> rfl

/-- What follows a run that agrees agrees, something being done after a failure. -/
theorem Agree.attempt_bind {x x' : Evaluation α} {handle handle' : Failure → Evaluation Unit}
    {f f' : α → Evaluation β} (h : P.Agree Q (x.runFrom s) (x'.runFrom s'))
    (hleft : ∀ t t', Q t t' → R t t')
    (hhandle : ∀ e t t', Q t t' → P.Agree R ((handle e).runFrom t) ((handle' e).runFrom t'))
    (hf : ∀ a t t', Q t t' → P.Agree R ((f a).runFrom t) ((f' a).runFrom t')) :
    P.Agree R ((onFailure x handle >>= f).runFrom s) ((onFailure x' handle' >>= f').runFrom s') := by
  rcases hx : x.runFrom s with ⟨(e | _) | a, t⟩ <;> rw [hx] at h
  · rw [runFrom_attempt_of_failed hx]
    rcases h with ⟨hlenient, -⟩ | ⟨t', hx', hQ⟩
    · -- whatever is done after the failure, the run has failed
      refine .inl ⟨hlenient, ?_⟩
      rw [runFrom_bind]
      rcases (handle e).runFrom t with ⟨e' | _, u⟩
      · exact ⟨e', rfl⟩
      · exact ⟨.failed e, rfl⟩
    · rw [runFrom_attempt_of_failed hx']
      exact (hhandle e t t' hQ).bind fun _ _ u' _ hu => .inr ⟨u', rfl, hu⟩
  · rw [runFrom_bind, runFrom_bind, runFrom_onFailure, runFrom_onFailure, hx]
    rcases h with ⟨hlenient, -⟩ | ⟨t', hx', hQ⟩
    · exact .inl ⟨hlenient, .outOfFuel, rfl⟩
    · rw [hx']
      exact .inr ⟨t', rfl, hleft _ _ hQ⟩
  · rw [runFrom_bind, runFrom_bind, runFrom_onFailure, runFrom_onFailure, hx]
    rcases h with ⟨-, e, ⟨⟩⟩ | ⟨t', hx', hQ⟩
    rw [hx']
    exact hf a t t' hQ

/-- Computations that leave the source alone agree if they give the same. -/
theorem Agree.of_still {x x' : Evaluation α} {r : Except Failure α} (hx : x.Still r)
    (hx' : x'.Still r) {R : Source → Source → Prop} (hR : R s.source s'.source) :
    P.Agree (fun t t' => R t.source t'.source) (x.runFrom s) (x'.runFrom s') := by
  obtain ⟨hr, ht⟩ := hx s
  obtain ⟨hr', ht'⟩ := hx' s'
  have hR' : R (x.runFrom s).2.source (x'.runFrom s').2.source := by rwa [ht, ht']
  exact .inr ⟨(x'.runFrom s').2, Prod.ext (hr'.trans hr.symm) rfl, hR'⟩

/-- Operations that agree on the sources agree in an evaluation. -/
theorem Agree.onSource [P.Lawful] {d d' : Cursor} {op op' : SourceM α}
    (h : P.Agree (P.paired d d') (op.runOn s.source) (op'.runOn s'.source)) :
    P.Agree (P.States d d') ((onSource op).runFrom s) ((onSource op').runFrom s') := by
  rw [runFrom_onSource, runFrom_onSource]
  rcases h with ⟨hlenient, e, he⟩ | ⟨t', hop', ht⟩
  · exact .inl ⟨hlenient, .failed e, congrArg (Except.mapError Halt.failed) he⟩
  · rw [hop']
    exact .inr ⟨_, rfl, Lawful.settle ht⟩

end

namespace Together

variable {P : Pairing} {α β : Type}

protected theorem pure (a : α) : P.Together (fun _ => (pure a : Evaluation α)) fun _ => pure a :=
  fun _ _ _ _ h => Agree.pure h a

protected theorem throw (e : Halt) :
    P.Together (fun _ => (throw e : Evaluation α)) fun _ => throw e :=
  fun _ _ _ s' h => .inr ⟨s', rfl, h⟩

protected theorem fail (f : Failure) :
    P.Together (fun _ => (fail f : Evaluation α)) fun _ => fail f := .throw _

protected theorem bind {x x' : Cursor → Evaluation α} {f f' : Cursor → α → Evaluation β}
    (hx : P.Together x x') (hf : ∀ a, P.Together (fun c => f c a) fun c => f' c a) :
    P.Together (fun c => x c >>= f c) fun c => x' c >>= f' c :=
  fun d d' s s' h => (hx d d' s s' h).bind fun a t t' _ ht => hf a d d' t t' ht

protected theorem map {x x' : Cursor → Evaluation α} (f : α → β) (hx : P.Together x x') :
    P.Together (fun c => f <$> x c) fun c => f <$> x' c := by
  simp only [map_eq_pure_bind]
  exact hx.bind fun a => .pure (f a)

protected theorem ite {p : Prop} [Decidable p] {x x' y y' : Cursor → Evaluation α}
    (hx : P.Together x x') (hy : P.Together y y') :
    P.Together (fun c => if p then x c else y c) fun c => if p then x' c else y' c := by
  split
  · exact hx
  · exact hy

theorem of_still {x x' : Evaluation α} {r : Except Failure α} (h : x.Still r) (h' : x'.Still r) :
    P.Together (fun _ => x) fun _ => x' := fun _ _ _ _ hs => Agree.of_still h h' hs

protected theorem note (n : Note) : P.Together (fun _ => note n) fun _ => note n :=
  fun _ _ _ _ h => .inr ⟨_, rfl, h⟩

protected theorem positionOf [P.Lawful] : P.Together positionOf positionOf :=
  fun _ _ _ s' h => .inr ⟨s', Prod.ext (congrArg Except.ok (Lawful.positionOf h)) rfl, h⟩

protected theorem firstValue (vs : List Value) :
    P.Together (fun _ => firstValue vs) fun _ => firstValue vs := by
  cases vs with
  | nil => exact .fail _
  | cons v vs => exact .pure v

end Together

/-! ## Reading and looking ahead -/

section

variable {P : Pairing} {d d' : Cursor} {s s' t : State}

/-- An item that was read is found from then on. -/
theorem finds_of_read {path : Path} {n : Nat} {items : Sequence} {v : Value}
    (h : (onSource (Source.read path d (n + 1))).runFrom s = (.ok items, t))
    (hv : items.get? n = some v) : t.source.buffer.Finds (t.source.offset d) (n + 1) := by
  obtain ⟨hresult, ht⟩ := of_onSource_eq_ok h
  cases hd : s.source.isClosed d with
  | true =>
    rw [Source.runOn_read_of_closed hd] at hresult
    cases hresult
  | false =>
    rw [Source.runOn_read hd] at hresult ht
    rw [ht]
    refine ⟨items, v, ?_, hv⟩
    cases hfill : (s.source.buffer.fill path (s.source.offset d + (n + 1))).2.2 with
    | some f =>
      rw [hfill] at hresult
      cases hresult
    | none =>
      rw [hfill] at hresult
      exact hresult

/-- What was looked for with success was found. -/
theorem finds_of_lookAhead {path : Path} {expected : Sequence} : ∀ {left index : Nat} {s t : State},
    (lookAhead path d expected index left).runFrom s = (.ok true, t) →
    s.source.buffer.Finds (s.source.offset d) index →
    t.source.buffer.Finds (t.source.offset d) (index + left)
  | 0, index, s, t, h, hn => by
    cases h
    exact hn
  | left + 1, index, s, t, h, hn => by
    obtain ⟨items, u, hread, h⟩ := of_bind_eq_ok h
    cases hv : items.get? index with
    | none =>
      simp only [hv] at h
      cases h
    | some v =>
      cases hw : expected.get? index with
      | none =>
        simp only [hv, hw] at h
        cases h
      | some w =>
        simp only [hv, hw] at h
        split at h
        · have := finds_of_lookAhead h (finds_of_read hread hv)
          rwa [show index + (left + 1) = index + 1 + left by omega]
        · cases h

variable [P.Lawful]

/-- Looking for the items of a sequence from the `index`th on, those before it having been found. -/
theorem agree_lookAhead (path : Path) (expected : Sequence) : ∀ (left index : Nat) (s s' : State),
    P.States d d' s s' → s.source.buffer.Finds (s.source.offset d) index →
    P.Agree (P.States d d') ((lookAhead path d expected index left).runFrom s)
      ((lookAhead path d' expected index left).runFrom s')
  | 0, index, s, s', h, hn => .pure h _
  | left + 1, index, s, s', h, hn => by
    refine (Agree.onSource (Lawful.read h hn path)).bind fun items t t' hread ht => ?_
    cases hv : items.get? index with
    | none => exact .pure ht _
    | some v =>
      cases expected.get? index with
      | none => exact .pure ht _
      | some w =>
        by_cases heqv : v.eqv w = true
        · simp only [heqv, if_true]
          exact agree_lookAhead path expected left (index + 1) t t' ht (finds_of_read hread hv)
        · simp only [heqv]
          exact .pure ht _

end

namespace Together

variable {P : Pairing} [P.Lawful]

/-! ## Rules without parts -/

protected theorem item (path : Path) {arg arg' : Value} {m : Matcher}
    (hm : ∀ v, m.accepts v arg' = m.accepts v arg) :
    P.Together (fun c => item path c arg m) fun c => item path c arg' m := by
  intro d d' s s' h
  refine (Agree.onSource (Lawful.read (n := 0) h trivial path)).bind fun items t t' hread ht => ?_
  cases hv : items.get? 0 with
  | none => exact .pure ht _
  | some v =>
    have hfound := finds_of_read (n := 0) hread hv
    have hpasses : (passes path v arg' m).Still ((m.accepts v arg).mapError path.surface) :=
      hm v ▸ .passes path v arg' m
    refine (Agree.of_still (R := fun u u' => u = t.source ∧ P.paired d d' u u') (.passes path v arg m)
      hpasses ⟨rfl, ht⟩).bind_left (fun _ _ hu => hu.2) fun passed u u' _ hu => ?_
    cases passed with
    | false => exact .pure hu.2 _
    | true =>
      rw [← hu.1] at hfound
      exact (Agree.onSource (Lawful.consume hu.2 hfound)).bind fun _ _ _ _ hw => .pure hw _

protected theorem literal (path : Path) (content : Value) :
    P.Together (fun c => literal path c content) fun c => literal path c content := by
  intro d d' s s' h
  refine (Agree.of_still (.ofExcept _) (.ofExcept _) h).bind fun expected t t' _ ht => ?_
  refine (agree_lookAhead path expected _ 0 t t' ht trivial).bind fun found u u' hlook hu => ?_
  cases found with
  | false => exact .pure hu _
  | true =>
    have hfound := finds_of_lookAhead hlook trivial
    rw [Nat.zero_add] at hfound
    exact (Agree.onSource (Lawful.consume hu hfound)).bind fun _ _ _ _ hw => .pure hw _

protected theorem start : P.Together start start :=
  Together.positionOf.bind fun _ => .ite (.pure _) (.pure _)

protected theorem finish (path : Path) : P.Together (finish path) (finish path) :=
  fun _ _ _ _ h => (Agree.onSource (Lawful.read (n := 0) h trivial path)).bind fun _ _ _ _ ht =>
    .pure ht _

/-! ## Rules at the cursors themselves -/

section

omit [P.Lawful]

protected theorem sequence {run run' : Cursor → Rule → Evaluation Outcome} :
    ∀ {rules : List Rule}, (∀ r ∈ rules, P.Together (fun c => run c r) fun c => run' c r) →
    ∀ values : List Value,
      P.Together (fun c => sequence (run c) values rules) fun c => sequence (run' c) values rules
  | [], _, _ => .pure _
  | r :: _, h, values => (h r List.mem_cons_self).bind fun o =>
    match o with
    | .mismatch _ => .pure _
    | .success vs =>
      Together.sequence (fun p hp => h p (List.mem_cons_of_mem r hp)) (values ++ vs)

variable {body body' : Cursor → Evaluation Outcome}

protected theorem repetition (h : P.Together body body') (min : Int) (max : Option Int) :
    ∀ (fuel : Nat) (count : Int) (reversed : List Value),
    P.Together (fun c => repetition (body c) min max fuel count reversed) fun c =>
      repetition (body' c) min max fuel count reversed
  | 0, _, _ => .ite (.pure _) (.throw _)
  | fuel + 1, count, reversed => .ite (.pure _) (h.bind fun o =>
    match o with
    | .mismatch _ => .pure _
    | .success vs => (Together.firstValue vs).bind fun v =>
      Together.repetition h min max fuel (count + 1) (v :: reversed))

protected theorem punctuatedRest {pair pair' : Cursor → Evaluation (Except Mismatch (Value × Value))}
    (h : P.Together pair pair') (min : Int) (max : Option Int) :
    ∀ (fuel : Nat) (count : Int) (elements separators : List Value),
    P.Together (fun c => punctuatedRest (pair c) min max fuel count elements separators) fun c =>
      punctuatedRest (pair' c) min max fuel count elements separators
  | 0, _, _, _ => .ite (.pure _) (.throw _)
  | fuel + 1, count, elements, separators => .ite (.pure _) (h.bind fun o =>
    match o with
    | .error _ => .pure _
    | .ok values => Together.punctuatedRest h min max fuel (count + 1) (values.2 :: elements)
        (values.1 :: separators))

protected theorem optional (h : P.Together body body') :
    P.Together (fun c => optional (body c)) fun c => optional (body' c) :=
  h.bind fun o =>
    match o with
    | .success vs => (Together.firstValue vs).bind fun _ => .pure _
    | .mismatch _ => .pure _

protected theorem andWithArg {second second' : Cursor → Value → Evaluation Outcome}
    (h : P.Together body body') (hs : ∀ v, P.Together (fun c => second c v) fun c => second' c v) :
    P.Together (fun c => andWithArg (body c) (second c)) fun c => andWithArg (body' c) (second' c) :=
  h.bind fun o =>
    match o with
    | .mismatch _ => .pure _
    | .success vs => (Together.firstValue vs).bind fun v => (hs v).bind fun o =>
      match o with
      | .mismatch _ => .pure _
      | .success _ => .pure _

theorem map_rule (h : P.Together body body') (path : Path) (conversion : Conversion) (fn : Mapper)
    (extra : List Value) :
    P.Together (fun c => Evaluation.map path conversion (body c) fn extra) fun c =>
      Evaluation.map path conversion (body' c) fn extra :=
  h.bind fun o =>
    match o with
    | .mismatch _ => .pure _
    | .success vs =>
      .of_still (.call path conversion fn (vs ++ extra)) (.call path conversion fn (vs ++ extra))

end

variable {body body' : Cursor → Evaluation Outcome}

protected theorem mapRange (h : P.Together body body') (path : Path) (fn : Option Mapper) :
    P.Together (fun c => mapRange path (body c) c fn) fun c => mapRange path (body' c) c fn :=
  Together.positionOf.bind fun _ => h.bind fun o =>
    match o with
    | .mismatch _ => .pure _
    | .success _ => Together.positionOf.bind fun _ =>
      match fn with
      | none => .pure _
      | some fn => .of_still (.call path .total fn _) (.call path .total fn _)

protected theorem expected (h : P.Together body body') (what : Value) :
    P.Together (fun c => expected (body c) c what) fun c => expected (body' c) c what :=
  h.bind fun o =>
    match o with
    | .success _ => .pure _
    | .mismatch _ => Together.positionOf.bind fun _ => (Together.note _).bind fun _ => .fail _

end Together

/-! ## Rules in forks of the cursors -/

namespace Nested

variable {P : Pairing} {d d' : Cursor} {s s' : Source} {t t' : State}

/-- What is run at the forks keeps them together, and keeps what is told of each of them. -/
theorem run {x x' : Cursor → Evaluation Outcome} (h : P.Nested d d' s s' t.source t'.source)
    (hkeeps : ∀ c, Keeps Pulled c (x c)) (hkeeps' : ∀ c, Keeps Pulled c (x' c))
    (hx : P.Together x x') :
    P.Agree (fun u u' => P.Nested d d' s s' u.source u'.source)
      ((x (.fork s.forks.size)).runFrom t) ((x' (.fork s'.forks.size)).runFrom t') := by
  rcases hx _ _ t t' h.inner with hlenient | ⟨u', hrun, hu⟩
  · exact .inl hlenient
  · have hforked' := Keeps.forked h.forked' (hkeeps' (.fork s'.forks.size))
    rw [hrun] at hforked'
    exact .inr ⟨u', hrun, h.outer, Keeps.forked h.forked (hkeeps _), hforked', hu⟩

variable [P.Lawful]

theorem close (h : P.Nested d d' s s' t.source t'.source) :
    P.Agree (P.States d d') ((onSource (Source.close (.fork s.forks.size))).runFrom t)
      ((onSource (Source.close (.fork s'.forks.size))).runFrom t') :=
  .onSource (Lawful.close h)

theorem join (h : P.Nested d d' s s' t.source t'.source) :
    P.Agree (P.States d d') ((onSource (Source.join (.fork s.forks.size))).runFrom t)
      ((onSource (Source.join (.fork s'.forks.size))).runFrom t') :=
  .onSource (Lawful.join h)

end Nested

namespace Together

variable {P : Pairing} [P.Lawful] {α β : Type}

/-- Making a fork and going on from there; closed cursors refuse it. -/
theorem fork_bind {f f' : Cursor → Cursor → Evaluation β}
    (hf : ∀ (d d' : Cursor) (s s' : Source) (t t' : State), P.Nested d d' s s' t.source t'.source →
      P.Agree (P.States d d') ((f d (.fork s.forks.size)).runFrom t)
        ((f' d' (.fork s'.forks.size)).runFrom t')) :
    P.Together (fun c => onSource (Source.fork c) >>= f c) fun c =>
      onSource (Source.fork c) >>= f' c := by
  intro d d' s s' h
  cases hc : s.source.isClosed d with
  | true =>
    have hc' := (Lawful.isClosed h).trans hc
    rw [runFrom_bind_of_error (runFrom_fork_of_closed hc),
      runFrom_bind_of_error (runFrom_fork_of_closed hc')]
    exact .inr ⟨_, rfl, Lawful.settle h⟩
  | false =>
    have hc' := (Lawful.isClosed h).trans hc
    rw [runFrom_bind, runFrom_bind, runFrom_onSource, runFrom_onSource, Source.runOn_fork hc,
      Source.runOn_fork hc']
    exact hf d d' s.source s'.source _ _ ⟨h, ⟨hc, Motion.withEvents (Motion.refl _ _) []⟩,
      ⟨hc', Motion.withEvents (Motion.refl _ _) []⟩, Lawful.settle (Lawful.addFork h hc)⟩

protected theorem choice {run run' : Cursor → Rule → Evaluation Outcome}
    (hkeeps : ∀ r c, Keeps Pulled c (run c r)) (hkeeps' : ∀ r c, Keeps Pulled c (run' c r)) :
    ∀ {rules : List Rule}, (∀ r ∈ rules, P.Together (fun c => run c r) fun c => run' c r) →
      P.Together (fun c => choice run c rules) fun c => choice run' c rules
  | [], _ => .pure _
  | r :: rs, h => by
    refine .fork_bind fun d d' s s' t t' ht => ?_
    refine (ht.run (hkeeps r) (hkeeps' r) (h r List.mem_cons_self)).attempt_bind
      (fun _ _ hu => Lawful.left hu) (fun f u u' hu => ?_) fun o u u' hu => ?_
    · -- a hard failure takes the fork along; any other leaves it where it is
      by_cases hard : f.isHard = true
      · simp only [hard, if_true]
        exact hu.join.bind fun _ w w' _ hw => .inr ⟨_, rfl, hw⟩
      · simp only [hard]
        exact .pure (Lawful.left hu) _
    · cases o with
      | success vs => exact hu.join.bind fun _ _ _ _ hw => .pure hw _
      | mismatch m =>
        exact hu.close.bind fun _ w w' _ hw => Together.choice hkeeps hkeeps'
          (fun p hp => h p (List.mem_cons_of_mem r hp)) d d' w w' hw

section

variable {body body' separator separator' : Cursor → Evaluation Outcome}
  (hkeeps : ∀ c, Keeps Pulled c (body c)) (hkeeps' : ∀ c, Keeps Pulled c (body' c))
  (hbody : P.Together body body')

include hkeeps hkeeps' hbody

protected theorem peek : P.Together (fun c => peek body c) fun c => peek body' c := by
  refine .fork_bind fun d d' s s' t t' ht => ?_
  exact (ht.run hkeeps hkeeps' hbody).attempt_bind (fun _ _ hu => Lawful.left hu)
    (fun f u u' hu => hu.close) fun o u u' hu => hu.close.bind fun _ _ _ _ hw => .pure hw _

variable (hseparator_keeps : ∀ c, Keeps Pulled c (separator c))
  (hseparator_keeps' : ∀ c, Keeps Pulled c (separator' c)) (hseparator : P.Together separator separator')

include hseparator_keeps hseparator_keeps' hseparator

protected theorem separated :
    P.Together (fun c => separated body separator c) fun c => separated body' separator' c := by
  refine .fork_bind fun d d' s s' t t' ht => ?_
  refine (ht.run hseparator_keeps hseparator_keeps' hseparator).bind_left
    (fun _ _ hu => Lawful.left hu) fun o u u' _ hu => ?_
  cases o with
  | mismatch m => exact hu.close.bind fun _ _ _ _ hw => .pure hw _
  | success ss =>
    refine (hu.run hkeeps hkeeps' hbody).bind_left (fun _ _ hv => Lawful.left hv)
      fun o v v' _ hv => ?_
    cases o with
    | mismatch m => exact hv.close.bind fun _ _ _ _ hw => .pure hw _
    | success es =>
      refine hv.join.bind fun _ w w' _ hw => ?_
      exact ((Together.firstValue ss).bind fun x => (Together.firstValue es).bind fun y => .pure _)
        d d' w w' hw

protected theorem punctuated (min : Int) (max : Option Int) (fuel : Nat) :
    P.Together (fun c => punctuated body separator c min max fuel) fun c =>
      punctuated body' separator' c min max fuel :=
  hbody.bind fun o =>
    match o with
    | .mismatch _ => .pure _
    | .success es => (Together.firstValue es).bind fun e =>
      Together.punctuatedRest
        (.separated hkeeps hkeeps' hbody hseparator_keeps hseparator_keeps' hseparator) min max fuel 1
        [e] []

end

/-! ## All rules -/

/-- Evaluating a rule at cursors that go together has the same result, and keeps them together. The
arguments may differ if the rule does not read its argument. -/
protected theorem eval (P : Pairing) [P.Lawful] (g : Grammar) (path : Path) :
    ∀ (fuel : Nat) (rule : Rule) (arg arg' : Value), (g.ReadsArgument rule → arg' = arg) →
      P.Together (fun c => eval g path fuel rule c arg) fun c => eval g path fuel rule c arg'
  | 0, _, _, _, _ => .throw _
  | fuel + 1, rule, arg, arg', hreads => by
    have hkeeps := fun v r c => eval_keeps Pulled g path fuel r c v
    -- what a part under the same argument reads, the rule reads
    have ih : ∀ part ∈ g.heirs rule, P.Together (fun c => Evaluation.eval g path fuel part c arg)
        fun c => Evaluation.eval g path fuel part c arg' := fun part hpart =>
      Together.eval P g path fuel part arg arg' fun h => hreads (.of_heir hpart h)
    cases rule with
    | item m =>
      refine .item path fun v => ?_
      by_cases hm : m.DependsOnArgument
      · rw [hreads (.of_uses hm)]
      · exact Matcher.accepts_eq hm v arg' arg
    | literal content => exact .literal path content
    | start => exact .start
    | finish => exact .finish path
    | noOp => exact .pure _
    | never n => exact .pure _
    | reference target n =>
      simp only [Evaluation.eval]
      cases htarget : target.bind g.rule? with
      | none => exact .fail _
      | some r => exact ih r (by simp [Grammar.heirs, Grammar.parts, htarget])
    | and rules => exact .sequence ih []
    | or rules => exact .choice (hkeeps arg) (hkeeps arg') ih
    | repetition r min max => exact .repetition (ih r List.mem_cons_self) min max fuel 0 []
    | optional r => exact .optional (ih r List.mem_cons_self)
    | punctuated element separator min max =>
      exact .punctuated (hkeeps arg element) (hkeeps arg' element) (ih element List.mem_cons_self)
        (hkeeps arg separator) (hkeeps arg' separator)
        (ih separator (List.mem_cons_of_mem _ List.mem_cons_self)) min max fuel
    | andWithArg first second =>
      exact .andWithArg (ih first List.mem_cons_self) fun v =>
        Together.eval P g path fuel second v v fun _ => rfl
    | map conversion r fn withArg =>
      have hextra : (if withArg then [arg'] else []) = if withArg then [arg] else [] := by
        cases withArg with
        | false => rfl
        | true => rw [hreads (.of_uses rfl)]
      simp only [Evaluation.eval, hextra]
      exact .map_rule (ih r List.mem_cons_self) path conversion fn _
    | mapRange r fn => exact .mapRange (ih r List.mem_cons_self) path fn
    | discard r => exact (ih r List.mem_cons_self).map _
    | expected r what => exact .expected (ih r List.mem_cons_self) what
    | name r label => exact (ih r List.mem_cons_self).map _
    | peek r => exact .peek (hkeeps arg r) (hkeeps arg' r) (ih r List.mem_cons_self)
    | wrapper r => exact ih r List.mem_cons_self
    | abstract => exact .fail _

end Together

end Pairing

end Backtrack
