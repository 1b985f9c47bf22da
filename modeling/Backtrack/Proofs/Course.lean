/-
The course of a visit. It makes its parts one after another, and either all of them give something,
or one halts: then it is the last, and the visit halts with it at once, calling nothing and pulling
nothing any more. Each part is made at the cursor of the visit or in a new fork of it, and besides the
parts nothing has a say in the result. `Course` says all of this of a computation, and there is one
lemma for each way of combining rules.
-/
import Backtrack.Proofs.Visit
import Backtrack.Proofs.Motion
namespace Backtrack

open Source (Moved Inside)

/-! ## Orderly sources -/

/-- The items of the source can be counted, and no more of them are consumed than there are. The
latter holds of every source that arises (`Source.Arisen.available_nonneg`). -/
structure Source.Orderly (s : Source) : Prop where
  countable : s.buffer.countFailure? = none
  nonneg : 0 ≤ s.buffer.available

theorem Source.Moved.orderly {c : Cursor} {s u : Source} (h : Moved c s u) (hs : s.Orderly) :
    u.Orderly :=
  ⟨h.countFailure?.trans hs.countable, h.available_nonneg hs.nonneg⟩

/-- Over an orderly source a fork can be joined wherever it has got. -/
theorem Source.Inside.join_of_orderly {c : Cursor} {s u : Source} (h : Inside c s u)
    (hs : s.Orderly) : ((Source.join (.fork s.forks.size)).runOn u).1 = .ok () := by
  cases c with
  | root =>
    have hu := h.parent_moved.orderly hs
    exact h.join.succeeds hu.countable (h.within_fork hs.nonneg)
  | fork id => exact h.join_of_fork

theorem Buffer.pulled?_consume (b : Buffer) (n : Int) : (b.consume n).1.pulled? = b.pulled? :=
  apply_consume pulled? (fun _ _ _ => rfl) (fun _ _ _ => rfl) (fun _ _ _ => rfl) b n

namespace Source

/-- The root moves on past what waits, or stays where it is. -/
theorem buffer_consumeRoot (n : Int) (s : Source) :
    ((consumeRoot n).runOn s).2.buffer = s.buffer ∨
    n ≤ s.buffer.available ∧ ((consumeRoot n).runOn s).2.buffer = (s.buffer.consume n).1 := by
  cases h : consumeFailure? s.buffer 0 n with
  | some f => exact .inl (by rw [runOn_consumeRoot_of_some h])
  | none =>
    have hle : n ≤ s.buffer.available := by simpa using le_available_of_consumeFailure? h
    exact .inr ⟨hle, by rw [runOn_consumeRoot h]⟩

/-- Only the root consumes from the buffer itself. -/
theorem buffer_consume_fork (id : Nat) (n : Int) (s : Source) :
    ((consume (.fork id) n).runOn s).2.buffer = s.buffer := by
  cases hclosed : s.isClosed (.fork id) with
  | true => rw [runOn_consume_of_closed hclosed]
  | false =>
    cases hfailure : consumeFailure? s.buffer (s.offset (.fork id)) n with
    | some f => rw [runOn_consume_fork_of_some hclosed hfailure]
    | none => rw [runOn_consume_fork hclosed hfailure, buffer_setFork]

/-- Joining moves the root on past what waits, or leaves it where it is. -/
theorem buffer_join (c : Cursor) (s : Source) :
    ((join c).runOn s).2.buffer = s.buffer ∨
    ∃ n ≤ s.buffer.available, ((join c).runOn s).2.buffer = (s.buffer.consume n).1 := by
  cases c with
  | root => exact .inl rfl
  | fork id =>
    rw [runOn_join_fork]
    split
    · exact .inl rfl
    · split
      · rcases buffer_consumeRoot (s.forkAt id).offset
          (s.setFork id fun f => { f with closed := true }) with h | h
        · exact .inl h
        · exact .inr ⟨_, h⟩
      · split
        · exact .inl rfl
        · exact .inl rfl

/-- Joining pulls nothing. -/
theorem pulled?_join (c : Cursor) (s : Source) :
    ((join c).runOn s).2.buffer.pulled? = s.buffer.pulled? := by
  rcases buffer_join c s with h | ⟨n, -, h⟩
  · rw [h]
  · rw [h]
    exact s.buffer.pulled?_consume n

/-- The source came of one over a value or a feed by operations at its cursors, in any order, whether
they succeeded or failed. -/
inductive Arisen : Source → Prop where
  | ofData (v : Value) : Arisen (.ofData v)
  | ofFeed (feed : List Element) (chunked : Bool) (path : Path) : Arisen (.ofFeed feed chunked path)
  | read {s : Source} (h : Arisen s) (path : Path) (c : Cursor) (amount : Int) :
    Arisen ((read path c amount).runOn s).2
  | consume {s : Source} (h : Arisen s) (c : Cursor) (amount : Int) :
    Arisen ((consume c amount).runOn s).2
  | fork {s : Source} (h : Arisen s) (c : Cursor) : Arisen ((fork c).runOn s).2
  | close {s : Source} (h : Arisen s) (c : Cursor) : Arisen ((close c).runOn s).2
  | join {s : Source} (h : Arisen s) (c : Cursor) : Arisen ((join c).runOn s).2

/-- No operation takes the root beyond what waits. -/
theorem Arisen.available_nonneg {s : Source} (h : s.Arisen) : 0 ≤ s.buffer.available := by
  induction h with
  | ofData v =>
    simp only [Source.ofData, ofBuffer, Buffer.ofValue]
    split
    · split
      · simp [Buffer.available]
      · simp [Buffer.available]
    · simp [Buffer.available]
  | ofFeed feed chunked path => exact le_refl _
  | @read s _ path c amount ih => exact (moved_read path c amount s).available_nonneg ih
  | @consume s _ c amount ih =>
    cases c with
    | root =>
      rcases buffer_consumeRoot amount s with h | ⟨hle, h⟩
      · rw [show Source.consume .root amount = consumeRoot amount from rfl, h]
        exact ih
      · rw [show Source.consume .root amount = consumeRoot amount from rfl, h,
          Buffer.available_consume_of_le hle]
        omega
    | fork id =>
      rw [buffer_consume_fork]
      exact ih
  | @fork s _ c ih =>
    cases hclosed : s.isClosed c with
    | true => rwa [runOn_fork_of_closed hclosed]
    | false => rwa [runOn_fork hclosed]
  | @close s _ c ih =>
    cases c with
    | root => exact ih
    | fork id => rwa [runOn_close_fork]
  | @join s _ c ih =>
    rcases buffer_join c s with h | ⟨n, hle, h⟩
    · rw [h]
      exact ih
    · rw [h, Buffer.available_consume_of_le hle]
      omega

end Source

theorem Journal.calls_addEvents (events : List Event) : ∀ j : Journal,
    (j.addEvents events).calls = j.calls := by
  induction events with
  | nil => exact fun j => rfl
  | cons e es ih => exact fun j => ih _

namespace Evaluation

open Visit

/-! ## Courses -/

/-- From `t` to `u` no function was called, and no element was pulled from the feed. -/
structure State.Unwound (t u : State) : Prop where
  calls : u.journal.calls = t.journal.calls
  pulled : u.source.buffer.pulled? = t.source.buffer.pulled?

theorem State.Unwound.refl (t : State) : t.Unwound t := ⟨rfl, rfl⟩

theorem State.Unwound.trans {s t u : State} (h : s.Unwound t) (h' : t.Unwound u) : s.Unwound u :=
  ⟨h'.calls.trans h.calls, h'.pulled.trans h.pulled⟩

namespace Visit

/-- The visit gives something: it does not halt. -/
def Passes (run : Runner) (J : Visit) : Prop := ∃ outcome t, J.runBy run = (.ok outcome, t)

/-- The visit is made by what goes on at the cursor `c` from the source `s`: at the cursor itself, or
in a new fork of it. -/
inductive LedFrom (c : Cursor) (s : Source) (J : Visit) : Prop where
  | here (hcursor : J.cursor = c) (hmoved : Moved c s J.state.source)
  | inFork {t : Source} (hmoved : Moved c s t) (hcursor : J.cursor = .fork t.forks.size)
    (hinside : Inside c t J.state.source)

/-- Where the cursor of a visit moves, the cursor that led to it is left where it is, or moves with
it. -/
theorem LedFrom.moved {α : Type} {c : Cursor} {s : Source} {J : Visit} {x : Evaluation α}
    (h : J.LedFrom c s) (hx : Moves J.cursor x) : Moved c s (x.runFrom J.state).2.source := by
  cases h with
  | here hcursor hmoved =>
    rw [hcursor] at hx
    exact hmoved.trans (hx J.state)
  | inFork hmoved hcursor hinside =>
    rw [hcursor] at hx
    exact hmoved.trans (hinside.run hx).parent_moved

/-- A visit that is made in a fork stays inside it. -/
theorem inside_of_runBy {run : Runner} (hmoves : ∀ r c v, Moves c (run r c v)) {c : Cursor}
    {s : Source} {J : Visit} {ended : Except Halt Outcome} {u : State}
    (hcursor : J.cursor = .fork s.forks.size) (hinside : Inside c s J.state.source)
    (hrun : J.runBy run = (ended, u)) : Inside c s u.source := by
  have hJ := hmoves J.rule J.cursor J.arg
  simp only [runBy, hcursor] at hJ hrun
  have hu := hinside.run hJ
  rwa [hrun] at hu

end Visit

/-- How a run ends that has made the visits `L`: all of them gave something, and it fails by itself
if at all; or the last of them halted, and the run halts in the same way. -/
inductive Ended (run : Runner) (own : Failure → Prop) {α : Type} (L : List Visit)
    (ran : Except Halt α × State) : Prop where
  | passed (hall : ∀ J ∈ L, J.Passes run) (hown : ∀ f, ran.1 = .error (.failed f) → own f)
  | broken (before : List Visit) {J : Visit} {h : Halt} {t : State} (hL : L = before ++ [J])
    (hall : ∀ J' ∈ before, J'.Passes run) (hrun : J.runBy run = (.error h, t))
    (hran : ran.1 = .error h) (hunwound : t.Unwound ran.2)

/-- The course of a computation from `t`, at the cursor `c` and after the source `s`: it makes the
visits `L`, depends on no others, and fails by itself only as `own` allows. -/
structure Course (run : Runner) (own : Failure → Prop) {α : Type} (c : Cursor) (s : Source)
    (t : State) (L : List Visit) (x : Runner → Evaluation α) : Prop where
  led : ∀ J ∈ L, J.LedFrom c s
  moved : Moved c s ((x run).runFrom t).2.source
  depends : ∀ run' : Runner, (∀ J ∈ L, J.runBy run' = J.runBy run) →
    (x run').runFrom t = (x run).runFrom t
  ended : Ended run own L ((x run).runFrom t)

namespace Course

variable {α β : Type} {run : Runner} {own : Failure → Prop} {c : Cursor} {s : Source} {t : State}

/-- What makes no visits. -/
theorem of_own {x : Evaluation α} (hmoved : Moved c s (x.runFrom t).2.source)
    (hown : ∀ f, (x.runFrom t).1 = .error (.failed f) → own f) :
    Course run own c s t [] fun _ => x :=
  ⟨by simp, hmoved, fun _ _ => rfl, .passed (by simp) hown⟩

protected theorem pure (h : Moved c s t.source) (a : α) :
    Course run own c s t [] fun _ => (pure a : Evaluation α) :=
  of_own h (by rintro f ⟨⟩)

/-- The visit of a part. -/
theorem visit (hmoves : ∀ r c v, Moves c (run r c v)) {J : Visit} (hJ : J.LedFrom c s) :
    Course run own c s J.state [J] fun run => run J.rule J.cursor J.arg := by
  refine ⟨fun J' hJ' => ?_, hJ.moved (hmoves _ _ _), fun run' h => h J (by simp), ?_⟩
  · rw [List.mem_singleton.1 hJ']
    exact hJ
  · show Ended run own [J] (J.runBy run)
    rcases hrun : J.runBy run with ⟨h | o, u⟩
    · exact .broken [] rfl (by simp) hrun rfl (.refl u)
    · refine .passed (fun J' hJ' => ?_) (by rintro f ⟨⟩)
      rw [List.mem_singleton.1 hJ']
      exact ⟨o, u, hrun⟩

/-- What follows makes its visits after those that were made before it. -/
protected theorem bind {L : List Visit} {M : α → State → List Visit} {x : Runner → Evaluation α}
    {f : Runner → α → Evaluation β} (hx : Course run own c s t L x)
    (hf : ∀ a u, (x run).runFrom t = (.ok a, u) → Course run own c s u (M a u) fun run => f run a) :
    Course run own c s t (L ++ after ((x run).runFrom t) M) fun run => x run >>= f run := by
  have hmoved := hx.moved
  have hended := hx.ended
  have hdepends := hx.depends
  rcases hrun : (x run).runFrom t with ⟨h | a, u⟩
  · rw [hrun] at hmoved hended
    have hbind : (x run >>= f run).runFrom t = (.error h, u) := by rw [runFrom_bind, hrun]
    have hL : L ++ after (.error h, u) M = L := List.append_nil L
    rw [hL]
    refine ⟨hx.led, by rw [hbind]; exact hmoved, fun run' hsame => ?_, ?_⟩
    · rw [runFrom_bind, hdepends run' hsame, hrun, hbind]
    · rw [hbind]
      cases hended with
      | passed hall hown => exact .passed hall fun g hg => hown g (by cases hg; rfl)
      | broken before hL hall hrun hran hunwound =>
        cases hran
        exact .broken before hL hall hrun rfl hunwound
  · rw [hrun] at hended
    have hcourse := hf a u hrun
    have hbind : (x run >>= f run).runFrom t = (f run a).runFrom u := by rw [runFrom_bind, hrun]
    have hL : L ++ after (.ok a, u) M = L ++ M a u := rfl
    rw [hL]
    have hall : ∀ J ∈ L, J.Passes run := by
      cases hended with
      | passed hall _ => exact hall
      | broken _ _ _ _ hran _ => cases hran
    refine ⟨fun J hJ => ?_, by rw [hbind]; exact hcourse.moved, fun run' hsame => ?_, ?_⟩
    · rcases List.mem_append.1 hJ with hJ | hJ
      · exact hx.led J hJ
      · exact hcourse.led J hJ
    · rw [runFrom_bind, hdepends run' fun J hJ => hsame J (List.mem_append_left _ hJ), hrun, hbind]
      exact hcourse.depends run' fun J hJ => hsame J (List.mem_append_right _ hJ)
    · rw [hbind]
      cases hcourse.ended with
      | passed hall' hown =>
        refine .passed (fun J hJ => ?_) hown
        rcases List.mem_append.1 hJ with hJ | hJ
        · exact hall J hJ
        · exact hall' J hJ
      | @broken before J h v hM hall' hrun' hran hunwound =>
        refine .broken (L ++ before) (by rw [hM, List.append_assoc]) (fun J' hJ' => ?_)
          hrun' hran hunwound
        rcases List.mem_append.1 hJ' with hJ' | hJ'
        · exact hall J' hJ'
        · exact hall' J' hJ'

theorem after_nil {γ : Type} (ran : Except Halt γ × State) :
    after ran (fun _ _ => []) = [] := by
  rcases ran with ⟨_ | _, t⟩ <;> rfl

/-- What follows without visits adds none. -/
theorem bind_nil {L : List Visit} {x : Runner → Evaluation α} {f : Runner → α → Evaluation β}
    (hx : Course run own c s t L x)
    (hf : ∀ a u, (x run).runFrom t = (.ok a, u) → Moved c s u.source →
      Course run own c s u [] fun run => f run a) :
    Course run own c s t L fun run => x run >>= f run := by
  have hmoved := hx.moved
  have hbind := hx.bind (M := fun _ _ => []) (f := f) fun a u hrun => hf a u hrun (by rwa [hrun] at hmoved)
  rwa [after_nil, List.append_nil] at hbind

/-- What follows a visit makes visits of its own only after a success. -/
theorem visit_bind (hmoves : ∀ r c v, Moves c (run r c v)) {J : Visit} (hJ : J.LedFrom c s)
    {M : List Value → State → List Visit} {f : Runner → Outcome → Evaluation β}
    (hmismatch : ∀ m u, J.runBy run = (.ok (.mismatch m), u) → Moved c s u.source →
      Course run own c s u [] fun run => f run (.mismatch m))
    (hsuccess : ∀ vs u, J.runBy run = (.ok (.success vs), u) → Moved c s u.source →
      Course run own c s u (M vs u) fun run => f run (.success vs)) :
    Course run own c s J.state (J :: onSuccess (J.runBy run) M)
      fun run => run J.rule J.cursor J.arg >>= f run := by
  have hvisit : Course run own c s J.state [J] fun run => run J.rule J.cursor J.arg :=
    visit hmoves hJ
  have hmoved := hvisit.moved
  refine hvisit.bind fun o u hrun => ?_
  rw [hrun] at hmoved
  cases o with
  | mismatch m => exact hmismatch m u hrun hmoved
  | success vs => exact hsuccess vs u hrun hmoved

theorem firstValue_bind {vs : List Value} {M : Value → State → List Visit}
    {f : Runner → Value → Evaluation β} (ht : Moved c s t.source)
    (hempty : vs = [] → own noFirstValue)
    (hf : ∀ v, Course run own c s t (M v t) fun run => f run v) :
    Course run own c s t (after ((firstValue vs).runFrom t) M)
      fun run => firstValue vs >>= f run := by
  cases vs with
  | nil => exact of_own (x := firstValue [] >>= f run) ht (by rintro _ ⟨⟩; exact hempty rfl)
  | cons v vs => exact hf v

/-- Calling a mapper fails only as the mapper does. -/
theorem call {path : Path} {conversion : Conversion} {fn : Mapper} {args : List Value} (ht : Moved c s t.source)
    (hown : ∀ e, fn.run args = .error e → own (path.surface (conversion.report e))) :
    Course run own c s t [] fun _ => Evaluation.call path conversion fn args := by
  have hstill := Still.call path conversion fn args t
  refine of_own (by rw [hstill.2]; exact ht) fun f hf => ?_
  have hcall := (Still.call path conversion fn args).eq_error hf
  rw [Conversion.apply] at hcall
  cases hrun : fn.run args with
  | ok v =>
    rw [hrun] at hcall
    cases hcall
  | error e =>
    rw [hrun] at hcall
    cases hcall
    exact hown e hrun

/-! ### Rules at the cursor itself -/

section

variable {K : Visit} (hmoves : ∀ r c v, Moves c (run r c v))
include hmoves

protected theorem sequence : ∀ {rules : List Rule} (values : List Value) {t : State},
    Moved K.cursor s t.source → Course run own K.cursor s t (K.ofSequence run rules t)
      fun run => sequence (fun r => run r K.cursor K.arg) values rules
  | [], _, _, ht => .pure ht _
  | r :: _, values, t, ht =>
    visit_bind hmoves (J := K.part r K.cursor K.arg t) (.here rfl ht) (fun _ _ _ hu => .pure hu _)
      fun vs _ _ hu => Course.sequence (values ++ vs) hu

protected theorem repetition {r : Rule} {min : Int} {max : Option Int}
    (hempty : ∀ d v (t u : State), (run r d v).runFrom t = (.ok (.success []), u) →
      own noFirstValue) : ∀ (fuel : Nat) (count : Int) (reversed : List Value) {t : State},
    Moved K.cursor s t.source → Course run own K.cursor s t (K.ofRepetition run r max fuel count t)
      fun run => repetition (run r K.cursor K.arg) min max fuel count reversed
  | 0, count, reversed, t, ht => by
    simp only [Evaluation.repetition, ofRepetition]
    split
    · exact .pure ht _
    · exact of_own ht (by rintro f ⟨⟩)
  | fuel + 1, count, reversed, t, ht => by
    simp only [Evaluation.repetition, ofRepetition]
    by_cases hfull : isFull max count = true
    · simp only [hfull, if_true]
      exact .pure ht _
    · simp only [hfull]
      refine visit_bind hmoves (J := K.part r K.cursor K.arg t) (.here rfl ht)
        (fun m u _ hu => .pure hu _) fun vs u hrun hu => ?_
      refine firstValue_bind hu (fun hvs => ?_) fun v =>
        Course.repetition hempty fuel (count + 1) (v :: reversed) hu
      subst hvs
      exact hempty _ _ _ _ hrun

protected theorem andWithArg {first second : Rule} (ht : Moved K.cursor s K.state.source)
    (hempty : ∀ d v (t u : State), (run first d v).runFrom t = (.ok (.success []), u) →
      own noFirstValue) :
    Course run own K.cursor s K.state (K.ofAndWithArg run first second)
      fun run => andWithArg (run first K.cursor K.arg) fun v => run second K.cursor v := by
  refine visit_bind hmoves (J := K.part first K.cursor K.arg K.state) (.here rfl ht)
    (fun m u _ hu => .pure hu _) fun vs u hrun hu => ?_
  refine firstValue_bind hu (fun hvs => ?_) fun v => ?_
  · subst hvs
    exact hempty _ _ _ _ hrun
  · refine bind_nil (visit hmoves (J := K.part second K.cursor v u) (.here rfl hu)) fun o w _ hw => ?_
    cases o with
    | mismatch m => exact .pure hw _
    | success ws => exact .pure hw _

protected theorem optional {r : Rule} (ht : Moved K.cursor s K.state.source)
    (hempty : ∀ d v (t u : State), (run r d v).runFrom t = (.ok (.success []), u) →
      own noFirstValue) :
    Course run own K.cursor s K.state [K.part r K.cursor K.arg K.state]
      fun run => optional (run r K.cursor K.arg) := by
  refine bind_nil (visit hmoves (J := K.part r K.cursor K.arg K.state) (.here rfl ht))
    fun o u hrun hu => ?_
  cases o with
  | mismatch m => exact .pure hu _
  | success vs =>
    cases vs with
    | nil => exact of_own hu (by rintro _ ⟨⟩; exact hempty _ _ _ _ hrun)
    | cons v vs => exact .pure hu _

theorem map_rule {path : Path} {r : Rule} {conversion : Conversion} {fn : Mapper} {extra : List Value}
    (ht : Moved K.cursor s K.state.source)
    (hown : ∀ vs u e, (K.part r K.cursor K.arg K.state).runBy run = (.ok (.success vs), u) →
      fn.run (vs ++ extra) = .error e → own (path.surface (conversion.report e))) :
    Course run own K.cursor s K.state [K.part r K.cursor K.arg K.state]
      fun run => Evaluation.map path conversion (run r K.cursor K.arg) fn extra := by
  refine bind_nil (visit hmoves (J := K.part r K.cursor K.arg K.state) (.here rfl ht))
    fun o u hrun hu => ?_
  cases o with
  | mismatch m => exact .pure hu _
  | success vs => exact call hu fun e he => hown vs u e hrun he

protected theorem mapRange {path : Path} {r : Rule} {fn : Option Mapper}
    (ht : Moved K.cursor s K.state.source)
    (hown : ∀ vs u f e, (K.part r K.cursor K.arg K.state).runBy run = (.ok (.success vs), u) →
      fn = some f → f.run (vs ++ [.range (K.state.source.positionOf K.cursor)
        (u.source.positionOf K.cursor) 1]) = .error e → own (path.surface e)) :
    Course run own K.cursor s K.state [K.part r K.cursor K.arg K.state]
      fun run => mapRange path (run r K.cursor K.arg) K.cursor fn := by
  show Course run own K.cursor s K.state ([] ++ after ((positionOf K.cursor).runFrom K.state)
    fun _ t => [K.part r K.cursor K.arg t]) _
  refine (of_own ht (by rintro f ⟨⟩)).bind fun first t hfirst => ?_
  cases hfirst
  refine bind_nil (visit hmoves (J := K.part r K.cursor K.arg K.state) (.here rfl ht))
    fun o u hrun hu => ?_
  cases o with
  | mismatch m => exact .pure hu _
  | success vs =>
    refine bind_nil (of_own hu (by rintro f ⟨⟩)) fun last w hlast hw => ?_
    cases hlast
    cases fn with
    | none => exact .pure hu _
    | some f => exact call hu fun e he => hown vs u f e hrun rfl he

protected theorem expected {r : Rule} {what : Value} (ht : Moved K.cursor s K.state.source)
    (hown : ∀ m u, (K.part r K.cursor K.arg K.state).runBy run = (.ok (.mismatch m), u) →
      own (incomplete (u.source.positionOf K.cursor) what m)) :
    Course run own K.cursor s K.state [K.part r K.cursor K.arg K.state]
      fun run => expected (run r K.cursor K.arg) K.cursor what := by
  refine bind_nil (visit hmoves (J := K.part r K.cursor K.arg K.state) (.here rfl ht))
    fun o u hrun hu => ?_
  cases o with
  | success vs => exact .pure hu _
  | mismatch m => exact of_own hu (by rintro f ⟨⟩; exact hown m u hrun)

/-- What only changes the outcome of a part. -/
protected theorem map {r : Rule} (f : Outcome → Outcome) (ht : Moved K.cursor s K.state.source) :
    Course run own K.cursor s K.state [K.part r K.cursor K.arg K.state]
      fun run => f <$> run r K.cursor K.arg := by
  simp only [map_eq_pure_bind]
  exact bind_nil (visit hmoves (J := K.part r K.cursor K.arg K.state) (.here rfl ht))
    fun o u _ hu => .pure hu _

end

/-! ### Forks -/

/-- Making a fork fails only at a closed cursor. -/
theorem fork_bind {M : Cursor → State → List Visit} {f : Runner → Cursor → Evaluation β}
    (ht : Moved c s t.source) (hclosed : s.isClosed c = true → own Source.forkClosed)
    (hf : ∀ u, Inside c t.source u.source →
      Course run own c s u (M (.fork t.source.forks.size) u)
        fun run => f run (.fork t.source.forks.size)) :
    Course run own c s t (after ((onSource (Source.fork c)).runFrom t) M)
      fun run => onSource (Source.fork c) >>= f run := by
  have hfork : Course run own c s t [] fun _ => onSource (Source.fork c) := by
    cases hc : t.source.isClosed c with
    | true =>
      refine of_own ?_ fun g hg => ?_
      · rw [runFrom_fork_of_closed hc]
        exact ht.withEvents []
      · rw [runFrom_fork_of_closed hc] at hg
        cases hg
        exact hclosed (ht.isClosed.symm.trans hc)
    | false =>
      obtain ⟨u, hrun, hu⟩ := Inside.onSource_fork hc
      refine of_own ?_ fun g hg => ?_
      · rw [hrun]
        exact ht.trans hu.parent_moved
      · rw [hrun] at hg
        cases hg
  refine hfork.bind fun d u hrun => ?_
  obtain ⟨rfl, hu⟩ := Inside.of_onSource_fork_eq_ok hrun
  exact hf u hu

/-- Closing a fork never fails. -/
theorem close_bind {s' : Source} {M : Unit → State → List Visit} {f : Runner → Unit → Evaluation β}
    (hs : Moved c s s') (ht : Inside c s' t.source)
    (hf : ∀ u, Moved c s u.source → Course run own c s u (M () u) fun run => f run ()) :
    Course run own c s t
      (after ((onSource (Source.close (.fork s'.forks.size))).runFrom t) M)
      fun run => onSource (Source.close (.fork s'.forks.size)) >>= f run := by
  obtain ⟨v, hclose, hv⟩ := ht.onSource_close
  have hquiet : Course run own c s t [] fun _ => onSource (Source.close (.fork s'.forks.size)) :=
    of_own (by rw [hclose]; exact hs.trans hv) (by rw [hclose]; rintro g ⟨⟩)
  refine hquiet.bind fun a u hrun => ?_
  rw [hclose] at hrun
  cases hrun
  exact hf v (hs.trans hv)

theorem close_nil {s' : Source} {f : Runner → Unit → Evaluation β} (hs : Moved c s s')
    (ht : Inside c s' t.source)
    (hf : ∀ u, Moved c s u.source → Course run own c s u [] fun run => f run ()) :
    Course run own c s t [] fun run => onSource (Source.close (.fork s'.forks.size)) >>= f run := by
  have hclose := close_bind (M := fun _ _ => []) hs ht hf
  rwa [after_nil] at hclose

end Course

/-- Over an orderly source a fork is joined without failing, calling or pulling. -/
theorem onSource_join_of_orderly {c : Cursor} {s : Source} {t : State} (h : Inside c s t.source)
    (hs : s.Orderly) : ∃ u, (onSource (Source.join (.fork s.forks.size))).runFrom t = (.ok (), u) ∧
      t.Unwound u ∧ Moved c s u.source := by
  have hmoved := h.onSource_join
  rw [runFrom_onSource, h.join_of_orderly hs] at hmoved ⊢
  exact ⟨_, rfl, ⟨t.journal.calls_addEvents _, Source.pulled?_join _ _⟩, hmoved⟩

namespace Course

variable {α β : Type} {run : Runner} {own : Failure → Prop} {c : Cursor} {s : Source} {t : State}

/-- Joining a fork over an orderly source never fails. -/
theorem join_bind {s' : Source} {f : Runner → Unit → Evaluation β} (horderly : s.Orderly)
    (hs : Moved c s s') (ht : Inside c s' t.source)
    (hf : ∀ u, Moved c s u.source → Course run own c s u [] fun run => f run ()) :
    Course run own c s t [] fun run => onSource (Source.join (.fork s'.forks.size)) >>= f run := by
  obtain ⟨v, hjoin, -, hv⟩ := onSource_join_of_orderly ht (hs.orderly horderly)
  have hquiet : Course run own c s t [] fun _ => onSource (Source.join (.fork s'.forks.size)) :=
    of_own (by rw [hjoin]; exact hs.trans hv) (by rw [hjoin]; rintro g ⟨⟩)
  refine bind_nil hquiet fun a u hrun hu => ?_
  exact hf u hu

/-- A part in a fork, after whose failure something is done that never fails, calls or pulls. -/
theorem attempt (hmoves : ∀ r c v, Moves c (run r c v)) {J : Visit} {s' : Source}
    {handle : Failure → Evaluation Unit} (hs : Moved c s s')
    (hcursor : J.cursor = .fork s'.forks.size) (hinside : Inside c s' J.state.source)
    (hhandle : ∀ f u, Inside c s' u.source →
      ∃ v, (handle f).runFrom u = (.ok (), v) ∧ u.Unwound v ∧ Moved c s' v.source) :
    Course run own c s J.state [J]
      fun run => onFailure (run J.rule J.cursor J.arg) handle := by
  have hvisit : Course run own c s J.state [J] fun run => run J.rule J.cursor J.arg :=
    visit hmoves (.inFork hs hcursor hinside)
  have hmoved : Moved c s (J.runBy run).2.source := hvisit.moved
  have hended : Ended run own [J] (J.runBy run) := hvisit.ended
  have hattempt : (onFailure (run J.rule J.cursor J.arg) handle).runFrom J.state =
      afterFailure handle (J.runBy run) := rfl
  refine ⟨hvisit.led, ?_, fun run' hsame => ?_, ?_⟩
  · rw [hattempt]
    rcases hrun : J.runBy run with ⟨(f | _) | o, u⟩
    · obtain ⟨v, hv, -, hv'⟩ := hhandle f u (inside_of_runBy hmoves hcursor hinside hrun)
      simp only [afterFailure, hv]
      exact hs.trans hv'
    · rwa [hrun] at hmoved
    · rwa [hrun] at hmoved
  · rw [runFrom_onFailure, runFrom_onFailure, hvisit.depends run' hsame]
  · rw [hattempt]
    rcases hrun : J.runBy run with ⟨(f | _) | o, u⟩
    · obtain ⟨v, hv, hunwound, -⟩ := hhandle f u (inside_of_runBy hmoves hcursor hinside hrun)
      simp only [afterFailure, hv]
      exact .broken [] rfl (by simp) hrun rfl hunwound
    · rwa [hrun] at hended
    · rwa [hrun] at hended

theorem after_afterFailure {γ : Type} (handle : Failure → Evaluation Unit)
    (ran : Except Halt γ × State) (M : γ → State → List Visit) :
    after (afterFailure handle ran) M = after ran M := by
  rcases ran with ⟨(f | _) | a, t⟩
  · simp only [afterFailure]
    split <;> rfl
  · rfl
  · rfl

/-- What follows an attempt. -/
theorem attempt_bind (hmoves : ∀ r c v, Moves c (run r c v)) {J : Visit} {s' : Source}
    {handle : Failure → Evaluation Unit} {M : Outcome → State → List Visit}
    {f : Runner → Outcome → Evaluation β} (hs : Moved c s s')
    (hcursor : J.cursor = .fork s'.forks.size) (hinside : Inside c s' J.state.source)
    (hhandle : ∀ f u, Inside c s' u.source →
      ∃ v, (handle f).runFrom u = (.ok (), v) ∧ u.Unwound v ∧ Moved c s' v.source)
    (hf : ∀ o u, J.runBy run = (.ok o, u) → Inside c s' u.source →
      Course run own c s u (M o u) fun run => f run o) :
    Course run own c s J.state (J :: after (J.runBy run) M)
      fun run => onFailure (run J.rule J.cursor J.arg) handle >>= f run := by
  have hattempt : Course run own c s J.state [J]
      fun run => onFailure (run J.rule J.cursor J.arg) handle :=
    attempt hmoves hs hcursor hinside hhandle
  have hbind := hattempt.bind (M := M) (f := f) fun o u hrun => ?_
  · rw [runFrom_onFailure, after_afterFailure] at hbind
    exact hbind
  · have hrun' : J.runBy run = (.ok o, u) := of_onFailure_eq_ok hrun
    exact hf o u hrun' (inside_of_runBy hmoves hcursor hinside hrun')

/-! ### Rules in forks -/

section

variable {K : Visit} (hmoves : ∀ r c v, Moves c (run r c v)) (horderly : s.Orderly)
  (hclosed : s.isClosed K.cursor = true → own Source.forkClosed)
include hmoves horderly hclosed

protected theorem choice : ∀ {rules : List Rule} {t : State}, Moved K.cursor s t.source →
    Course run own K.cursor s t (K.ofChoice run rules t)
      fun run => choice (fun c r => run r c K.arg) K.cursor rules
  | [], _, ht => .pure ht _
  | r :: rs, t, ht => by
    refine fork_bind ht hclosed fun u hu => ?_
    refine attempt_bind hmoves (J := K.part r (.fork t.source.forks.size) K.arg u) ht rfl hu
      (fun f v hv => ?_) fun o v _ hv => ?_
    · -- a hard failure takes the cursor along, which succeeds
      cases hhard : f.isHard with
      | false => exact ⟨v, by simp, .refl v, hv.parent_moved⟩
      | true =>
        obtain ⟨w, hjoin, hunwound, hw⟩ := onSource_join_of_orderly hv (ht.orderly horderly)
        refine ⟨_, by simp only [if_true, runFrom_bind, hjoin]; rfl, ?_, ?_⟩
        · exact ⟨hunwound.calls, hunwound.pulled⟩
        · exact hw
    · cases o with
      | success vs => exact join_bind horderly ht hv fun w hw => .pure hw _
      | mismatch m => exact close_bind ht hv fun w hw => Course.choice hw

protected theorem separated {element separator : Rule} (ht : Moved K.cursor s t.source)
    (hempty : ∀ r ∈ [element, separator], ∀ d v (t u : State),
      (run r d v).runFrom t = (.ok (.success []), u) → own noFirstValue) :
    Course run own K.cursor s t (K.ofSeparated run element separator t)
      fun run => K.pairBy run element separator := by
  refine fork_bind ht hclosed fun u hu => ?_
  have hinside : ∀ {r : Rule} {w v : State} {o : Outcome}, Inside K.cursor t.source w.source →
      (K.part r (.fork t.source.forks.size) K.arg w).runBy run = (.ok o, v) →
      Inside K.cursor t.source v.source := fun hw hrun => inside_of_runBy hmoves rfl hw hrun
  refine visit_bind hmoves (J := K.part separator (.fork t.source.forks.size) K.arg u)
    (.inFork ht rfl hu) (fun m v hrun _ => ?_) fun ss v hrun _ => ?_
  · exact close_nil ht (hinside hu hrun) fun w hw => .pure hw _
  · have hv := hinside hu hrun
    refine bind_nil (visit hmoves (J := K.part element (.fork t.source.forks.size) K.arg v)
      (.inFork ht rfl hv)) fun o w hrun' _ => ?_
    have hw := hinside hv hrun'
    cases o with
    | mismatch m => exact close_nil ht hw fun x hx => .pure hx _
    | success es =>
      refine join_bind horderly ht hw fun x hx => ?_
      cases ss with
      | nil => exact of_own hx (by rintro _ ⟨⟩; exact hempty separator (by simp) _ _ _ _ hrun)
      | cons a ss =>
        cases es with
        | nil => exact of_own hx (by rintro _ ⟨⟩; exact hempty element (by simp) _ _ _ _ hrun')
        | cons b es => exact .pure hx _

theorem pairs {element separator : Rule} {min : Int} {max : Option Int}
    (hempty : ∀ r ∈ [element, separator], ∀ d v (t u : State),
      (run r d v).runFrom t = (.ok (.success []), u) → own noFirstValue) :
    ∀ (fuel : Nat) (count : Int) (elements separators : List Value) {t : State},
    Moved K.cursor s t.source → Course run own K.cursor s t
      (K.ofPairs run element separator max fuel count t)
      fun run => punctuatedRest (K.pairBy run element separator) min max fuel count elements separators
  | 0, count, elements, separators, t, ht => by
    simp only [punctuatedRest, ofPairs]
    split
    · exact .pure ht _
    · exact of_own ht (by rintro f ⟨⟩)
  | fuel + 1, count, elements, separators, t, ht => by
    simp only [punctuatedRest, ofPairs]
    by_cases hfull : isFull max count = true
    · simp only [hfull, if_true]
      exact .pure ht _
    · simp only [hfull]
      have hpair := Course.separated hmoves horderly hclosed ht hempty
      have hmoved := hpair.moved
      refine hpair.bind fun found u hrun => ?_
      rw [hrun] at hmoved
      cases found with
      | error m => exact .pure hmoved _
      | ok pair => exact Course.pairs hempty fuel (count + 1) (pair.2 :: elements) (pair.1 :: separators) hmoved

protected theorem punctuated {element separator : Rule} {min : Int} {max : Option Int}
    (hempty : ∀ r ∈ [element, separator], ∀ d v (t u : State),
      (run r d v).runFrom t = (.ok (.success []), u) → own noFirstValue)
    (ht : Moved K.cursor s K.state.source) :
    Course run own K.cursor s K.state (K.ofPunctuated run element separator max)
      fun run => punctuated (fun c => run element c K.arg) (fun c => run separator c K.arg) K.cursor
        min max (K.fuel - 1) := by
  refine visit_bind hmoves (J := K.part element K.cursor K.arg K.state) (.here rfl ht)
    (fun m u _ hu => .pure hu _) fun vs u hrun hu => ?_
  refine firstValue_bind hu (fun hvs => ?_) fun v =>
    Course.pairs hmoves horderly hclosed hempty (K.fuel - 1) 1 [v] [] hu
  subst hvs
  exact hempty element (by simp) _ _ _ _ hrun

omit horderly in
protected theorem peek {r : Rule} (ht : Moved K.cursor s K.state.source) :
    Course run own K.cursor s K.state (K.ofPeek r)
      fun run => peek (fun c => run r c K.arg) K.cursor := by
  refine fork_bind ht hclosed fun u hu => ?_
  have hclose : ∀ (f : Failure) (v : State), Inside K.cursor K.state.source v.source →
      ∃ w, (onSource (Source.close (.fork K.state.source.forks.size))).runFrom v = (.ok (), w) ∧
        v.Unwound w ∧ Moved K.cursor K.state.source w.source := by
    intro f v hv
    obtain ⟨w, hrun, hw⟩ := hv.onSource_close
    refine ⟨w, hrun, ?_, hw⟩
    rw [runFrom_onSource, Source.runOn_close_fork] at hrun
    cases hrun
    exact ⟨v.journal.calls_addEvents _, rfl⟩
  refine bind_nil (attempt hmoves (J := K.part r (.fork K.state.source.forks.size) K.arg u) ht rfl hu
    hclose) fun o v hrun _ => ?_
  have hrun' : (K.part r (.fork K.state.source.forks.size) K.arg u).runBy run = (.ok o, v) :=
    of_onFailure_eq_ok hrun
  exact close_nil ht (inside_of_runBy hmoves rfl hu hrun') fun w hw => .pure hw _

end

end Course

/-! ## All rules -/

/-- What a rule does, its parts being evaluated by `run`. -/
def layer (g : Grammar) (path : Path) (run : Runner) (fuel : Nat) : Runner := fun rule c arg =>
  match rule with
  | .item m => item path c arg m
  | .literal content => literal path c content
  | .start => start c
  | .finish => finish path c
  | .noOp => return .success []
  | .never _ => return .noMatch
  | .reference target _ =>
    match target.bind g.rule? with
    | some r => run r c arg
    | none => fail unbound
  | .and rules => sequence (fun r => run r c arg) [] rules
  | .or rules => choice (fun fork r => run r fork arg) c rules
  | .repetition r min max => repetition (run r c arg) min max fuel 0 []
  | .optional r => optional (run r c arg)
  | .punctuated element separator min max =>
    punctuated (fun c => run element c arg) (fun c => run separator c arg) c min max fuel
  | .andWithArg first second => andWithArg (run first c arg) (fun v => run second c v)
  | .map conversion r fn withArg =>
    map path conversion (run r c arg) fn (if withArg then [arg] else [])
  | .mapRange r fn => mapRange path (run r c arg) c fn
  | .discard r => valueless <$> run r c arg
  | .expected r what => expected (run r c arg) c what
  | .name r label => labelled label <$> run r c arg
  | .peek r => peek (fun fork => run r fork arg) c
  | .wrapper r => run r c arg
  | .abstract => fail notImplemented

/-- Evaluating a rule is what the rule does, its parts being evaluated with less fuel. -/
theorem eval_succ (g : Grammar) (path : Path) (fuel : Nat) :
    eval g path (fuel + 1) = layer g path (eval g path fuel) fuel := by
  funext rule c arg
  cases rule <;> rfl

namespace Visit

variable {g : Grammar} {path : Path}

/-- The failures that the visit may end with if none of its parts halts: what it raises itself, the
failure of a closed cursor, that of an empty success where a value is taken, and whatever a rule
without parts fails with. -/
inductive Own (g : Grammar) (path : Path) (K : Visit) : Failure → Prop where
  | raised {o : Origin} {e f : Failure} {t : State} (h : K.Raises g path o e f t) : Own g path K f
  | closed (h : K.state.source.isClosed K.cursor = true) : Own g path K Source.forkClosed
  | empty {fuel : Nat} {r : Rule} {d : Cursor} {v : Value} {s t : State} (hr : r ∈ K.rule.taken)
    (hrun : (eval g path fuel r d v).runFrom s = (.ok (.success []), t)) : Own g path K noFirstValue
  | bare {f : Failure} (hparts : g.parts K.rule = []) (hrun : (K.run g path).1 = .error (.failed f)) :
    Own g path K f

/-- The course of a visit over an orderly source. -/
theorem course (g : Grammar) (path : Path) {K : Visit} {n : Nat} (hfuel : K.fuel = n + 1) (hs : K.state.source.Orderly) :
    Course (eval g path n) (K.Own g path) K.cursor K.state.source K.state (K.parts g path)
      fun run => layer g path run n K.rule K.cursor K.arg := by
  have hmoves : ∀ r c v, Moves c (eval g path n r c v) := fun r c v => eval_moves g path n r c v
  have hrefl : Moved K.cursor K.state.source K.state.source := .refl _ _
  have hclosed : K.state.source.isClosed K.cursor = true → K.Own g path Source.forkClosed := .closed
  have hempty : ∀ r ∈ K.rule.taken, ∀ d v (t u : State),
      (eval g path n r d v).runFrom t = (.ok (.success []), u) → K.Own g path noFirstValue :=
    fun r hr d v t u hrun => .empty hr hrun
  have hbare : g.parts K.rule = [] → ∀ f,
      ((layer g path (eval g path n) n K.rule K.cursor K.arg).runFrom K.state).1 =
        .error (.failed f) → K.Own g path f := by
    intro hparts f hf
    refine .bare hparts ?_
    rw [Visit.run, runBy, hfuel, eval_succ]
    exact hf
  have hpartsBy : K.parts g path = K.partsBy g (eval g path n) := by rw [parts.eq_def, hfuel]
  obtain ⟨fuel, rule, c, arg, s⟩ := K
  cases hfuel
  rw [hpartsBy]
  cases rule with
  | item m => exact .of_own (Keeps.item path c arg m s) (hbare rfl)
  | literal content => exact .of_own (Keeps.literal path c content s) (hbare rfl)
  | start => exact .of_own (Keeps.start c s) (hbare rfl)
  | finish => exact .of_own (Keeps.finish path c s) (hbare rfl)
  | noOp => exact .pure hrefl _
  | never m => exact .pure hrefl _
  | abstract => exact .of_own hrefl (hbare rfl)
  | reference target m =>
    simp only [layer, partsBy]
    cases htarget : target.bind g.rule? with
    | none =>
      refine .of_own hrefl fun f hf => hbare (by simp [Grammar.parts, htarget]) f ?_
      simp only [layer, htarget]
      exact hf
    | some r => exact .visit hmoves (J := ⟨n, r, c, arg, s⟩) (.here rfl hrefl)
  | and rules => exact .sequence (K := ⟨n + 1, .and rules, c, arg, s⟩) hmoves [] hrefl
  | or rules => exact .choice (K := ⟨n + 1, .or rules, c, arg, s⟩) hmoves hs hclosed hrefl
  | repetition r min max =>
    exact .repetition (K := ⟨n + 1, .repetition r min max, c, arg, s⟩) hmoves
      (hempty r (by simp [Rule.taken])) n 0 [] hrefl
  | optional r =>
    exact .optional (K := ⟨n + 1, .optional r, c, arg, s⟩) hmoves hrefl
      (hempty r (by simp [Rule.taken]))
  | punctuated element separator min max =>
    exact .punctuated (K := ⟨n + 1, .punctuated element separator min max, c, arg, s⟩) hmoves hs
      hclosed hempty hrefl
  | andWithArg first second =>
    exact .andWithArg (K := ⟨n + 1, .andWithArg first second, c, arg, s⟩) hmoves hrefl
      (hempty first (by simp [Rule.taken]))
  | map conversion r fn withArg =>
    exact .map_rule (K := ⟨n + 1, .map conversion r fn withArg, c, arg, s⟩) hmoves hrefl
      fun vs u e hrun he => .raised (.mapper (.values (J := ⟨n, r, c, arg, s⟩) rfl
        (by rw [hpartsBy]; exact List.mem_singleton_self _) hrun) he)
  | mapRange r fn =>
    refine .mapRange (K := ⟨n + 1, .mapRange r fn, c, arg, s⟩) hmoves hrefl fun vs u f e hrun hf he => ?_
    subst hf
    exact .raised (.mapper (.span (J := ⟨n, r, c, arg, s⟩) rfl
      (by rw [hpartsBy]; exact List.mem_singleton_self _) hrun) he)
  | discard r => exact .map (K := ⟨n + 1, .discard r, c, arg, s⟩) hmoves valueless hrefl
  | expected r what =>
    exact .expected (K := ⟨n + 1, .expected r what, c, arg, s⟩) hmoves hrefl fun m u hrun =>
      .raised (.expectation (J := ⟨n, r, c, arg, s⟩) rfl
        (by rw [hpartsBy]; exact List.mem_singleton_self _) hrun rfl)
  | name r label => exact .map (K := ⟨n + 1, .name r label, c, arg, s⟩) hmoves (labelled label) hrefl
  | peek r => exact .peek (K := ⟨n + 1, .peek r, c, arg, s⟩) hmoves hclosed hrefl
  | wrapper r => exact .visit hmoves (J := ⟨n, r, c, arg, s⟩) (.here rfl hrefl)

/-! ### What follows for visits -/

variable {K J : Visit} {t : State}

theorem run_of_fuel {n : Nat} (hfuel : K.fuel = n + 1) :
    K.run g path = (layer g path (eval g path n) n K.rule K.cursor K.arg).runFrom K.state := by
  rw [Visit.run, runBy, hfuel, eval_succ]

theorem runBy_of_mem_parts {n : Nat} (hfuel : K.fuel = n + 1) (h : J ∈ K.parts g path) :
    J.runBy (eval g path n) = J.run g path := by
  have hJ := (of_mem_parts h).1
  rw [Visit.run, show J.fuel = n by omega]

theorem ledFrom_of_mem_parts (hs : K.state.source.Orderly) (h : J ∈ K.parts g path) :
    J.LedFrom K.cursor K.state.source := (course g path (of_mem_parts h).1 hs).led J h

theorem orderly_of_mem_parts (hs : K.state.source.Orderly) (h : J ∈ K.parts g path) :
    J.state.source.Orderly := by
  cases ledFrom_of_mem_parts hs h with
  | here hcursor hmoved => exact hmoved.orderly hs
  | inFork hmoved hcursor hinside => exact hinside.parent_moved.orderly (hmoved.orderly hs)

/-- What a visit ends with depends on nothing else than what its parts end with. -/
theorem run_eq_of_parts {n : Nat} (hfuel : K.fuel = n + 1) (hs : K.state.source.Orderly)
    {run' : Runner} (h : ∀ J ∈ K.parts g path, J.runBy run' = J.run g path) :
    (layer g path run' n K.rule K.cursor K.arg).runFrom K.state = K.run g path := by
  rw [run_of_fuel hfuel]
  refine (course g path hfuel hs).depends run' fun J hJ => ?_
  rw [h J hJ, runBy_of_mem_parts hfuel hJ]

end Visit

end Evaluation
end Backtrack
