/-
Evaluations do what scans do. Where a cursor stands at an index of a presented medium, evaluating a
rule at the cursor gives what scanning by the rule gives from that index, leaves the cursor where
the scan ends, and leaves everything above the cursor alone. The proof goes along the fuel, with
one lemma for each way of combining rules; forks, joins and closings occur in three of them only.
-/
import Backtrack.Proofs.Presentation
import Backtrack.Proofs.Function
import Backtrack.Proofs.Sequence
namespace Backtrack.Presentation

open Source (Frame)
open Evaluation (runFrom_bind runFrom_onSource)

variable {τ α β : Type} {M : Medium τ} {path : Path} (P : Presentation M path)

/-! ## Agreement -/

/-- What a run from the source `s` ended in agrees with what a scan ended in: the same result, but
for how failures surface on the path, the cursor where the scan is, and the rest in its frame. -/
structure Agrees (c : Cursor) (s : Source) (ran : Except Halt α × Evaluation.State)
    (scanned : Except Halt α × Scan.State τ) : Prop where
  result : ran.1 = scanned.1.mapError (Halt.surfaced path)
  stands : P.Stands scanned.2 ran.2.source c
  frame : Frame c s ran.2.source

/-- Wherever the cursor stands, evaluating agrees with scanning. -/
def Simulates (c : Cursor) (x : Evaluation α) (y : Scan τ α) : Prop :=
  ∀ (a : Scan.State τ) (s : Evaluation.State), P.Stands a s.source c →
    P.Agrees c s.source (x.runFrom s) (y.runFrom a)

variable {P} {c : Cursor}

/-- What a run and the scan that it agrees with end in. -/
theorem Simulates.run {x : Evaluation α} {y : Scan τ α} (h : P.Simulates c x y)
    {a : Scan.State τ} {s : Evaluation.State} (hs : P.Stands a s.source c) :
    ∃ r t b, x.runFrom s = (r.mapError (Halt.surfaced path), t) ∧ y.runFrom a = (r, b) ∧
      P.Stands b t.source c ∧ Frame c s.source t.source := by
  obtain ⟨hresult, ht, hframe⟩ := h a s hs
  exact ⟨_, _, _, Prod.ext hresult rfl, rfl, ht, hframe⟩

protected theorem Simulates.pure (v : α) : P.Simulates c (pure v) (pure v) :=
  fun _ s hs => ⟨rfl, hs, Frame.refl c s.source⟩

theorem Simulates.outOfFuel :
    P.Simulates c (throw .outOfFuel : Evaluation α) (throw .outOfFuel) :=
  fun _ s hs => ⟨rfl, hs, Frame.refl c s.source⟩

protected theorem Simulates.bind {x : Evaluation α} {y : Scan τ α} {f : α → Evaluation β} {g : α → Scan τ β}
    (hx : P.Simulates c x y) (hf : ∀ v, P.Simulates c (f v) (g v)) :
    P.Simulates c (x >>= f) (y >>= g) := by
  intro a s hs
  obtain ⟨r, t, b, hrun, hscan, ht, hframe⟩ := hx.run hs
  rw [runFrom_bind, Scan.runFrom_bind, hrun, hscan]
  cases r with
  | error e => exact ⟨rfl, ht, hframe⟩
  | ok v =>
    obtain ⟨hresult, hstands, hframe'⟩ := hf v b t ht
    exact ⟨hresult, hstands, hframe.trans hframe'⟩

protected theorem Simulates.map {x : Evaluation α} {y : Scan τ α} (f : α → β) (h : P.Simulates c x y) :
    P.Simulates c (f <$> x) (f <$> y) := by
  rw [map_eq_pure_bind, map_eq_pure_bind]
  exact h.bind fun v => .pure (f v)

protected theorem Simulates.ite {p : Prop} [Decidable p] {x x' : Evaluation α} {y y' : Scan τ α}
    (h : P.Simulates c x y) (h' : P.Simulates c x' y') :
    P.Simulates c (if p then x else x') (if p then y else y') := by
  split
  · exact h
  · exact h'

/-- What leaves the source alone agrees with its result. -/
theorem Simulates.of_still {x : Evaluation α} {r : Except Failure α}
    (h : x.Still (r.mapError path.surface)) : P.Simulates c x (Scan.ofExcept r) := by
  intro a s hs
  rw [Scan.runFrom_ofExcept]
  refine ⟨?_, by rw [(h s).2]; exact hs, by rw [(h s).2]; exact Frame.refl c s.source⟩
  rw [(h s).1]
  cases r <;> rfl

/-- Nothing surfaces otherwise that is no signal. -/
theorem Simulates.ofExcept {r : Except Failure α} (h : ∀ f, r = .error f → f.isA .stopIteration = false) :
    P.Simulates c (Evaluation.ofExcept r) (Scan.ofExcept r) := by
  refine .of_still ?_
  rw [Path.mapError_surface h]
  exact .ofExcept r

theorem Simulates.fail {f : Failure} (h : f.isA .stopIteration = false) :
    P.Simulates c (Evaluation.fail f : Evaluation α) (Scan.ofExcept (.error f)) :=
  .ofExcept (r := .error f) fun _ he => by cases he; exact h

theorem Simulates.firstValue (vs : List Value) :
    P.Simulates c (Evaluation.firstValue vs) (Scan.firstValue vs) := by
  cases vs with
  | nil => exact .fail rfl
  | cons v vs => exact .pure v

/-! ## Rules without parts -/

/-- A read at a cursor sees what lies ahead in the medium. -/
theorem Stands.onSource_read {a : Scan.State τ} {s : Evaluation.State}
    (h : P.Stands a s.source c) (k : Nat) :
    ∃ r t, (Evaluation.onSource (Source.read path c (k + 1))).runFrom s = (r.mapError .failed, t) ∧
      P.Stands ⟨a.index, (M.item? (a.index + k) a.medium).2⟩ t.source c ∧
      Frame c s.source t.source ∧
      Saw k (t.source.offset c + (k + 1) ≤ t.source.buffer.available) r
        (M.item? (a.index + k) a.medium).1 := by
  obtain ⟨hs, hf, hsaw⟩ := h.read k
  exact ⟨_, _, runFrom_onSource _ _, hs.withEvents [], hf.withEvents [], hsaw⟩

theorem Stands.onSource_consume {a : Scan.State τ} {s : Evaluation.State}
    (h : P.Stands a s.source c) {n : Nat} (hn : s.source.offset c + n ≤ s.source.buffer.available) :
    ∃ t, (Evaluation.onSource (Source.consume c n)).runFrom s = (.ok (), t) ∧
      P.Stands ⟨a.index + n, a.medium⟩ t.source c ∧ Frame c s.source t.source := by
  obtain ⟨u, hrun, hu, hf⟩ := h.consume hn
  exact ⟨_, by rw [runFrom_onSource, hrun]; rfl, hu.withEvents [], hf.withEvents []⟩

theorem Simulates.item (arg : Value) (m : Matcher) :
    P.Simulates c (Evaluation.item path c arg m) (Scan.item M arg m) := by
  intro a s hs
  obtain ⟨r, t, hread, ht, hframe, hsaw⟩ := hs.onSource_read 0
  rw [Nat.cast_zero, zero_add] at hread hsaw
  rw [Evaluation.item, Scan.item, runFrom_bind, Scan.runFrom_bind, Scan.runFrom_look, hread]
  generalize (M.item? (a.index + 0) a.medium).1 = found at hsaw ⊢
  cases hsaw with
  | failed hf => exact ⟨Halt.mapError_surfaced hf, ht, hframe⟩
  | ended h =>
    simp only [Except.mapError, h]
    exact ⟨rfl, ht, hframe⟩
  | found h hroom =>
    simp only [Except.mapError, h]
    -- the test leaves the source alone, so the item still waits when it is consumed
    obtain ⟨hpass, hsource⟩ := Evaluation.Still.passes path _ arg m t
    rw [runFrom_bind, Scan.runFrom_bind, Scan.runFrom_ofExcept]
    rcases hp : (Evaluation.passes path _ arg m).runFrom t with ⟨q, u⟩
    rw [hp] at hpass hsource
    simp only at hpass hsource
    subst hpass
    rw [← hsource] at ht hroom hframe
    cases m.accepts _ arg with
    | error f => exact ⟨rfl, ht, hframe⟩
    | ok accepted =>
      cases accepted with
      | false => exact ⟨rfl, ht, hframe⟩
      | true =>
        obtain ⟨w, hconsume, hw, hframe'⟩ := ht.onSource_consume (n := 1) hroom
        simp only [Except.mapError, if_true, runFrom_bind]
        rw [show ((1 : Nat) : Int) = 1 from rfl] at hconsume
        rw [hconsume]
        exact ⟨rfl, hw, hframe.trans hframe'⟩

/-- Looking ahead agrees with looking ahead, and where all items are as expected, they wait. -/
theorem Stands.lookAhead (expected : Sequence) : ∀ (left k : Nat) {a : Scan.State τ}
    {s : Evaluation.State}, P.Stands a s.source c →
    s.source.offset c + k ≤ s.source.buffer.available →
    P.Agrees c s.source ((Evaluation.lookAhead path c expected k left).runFrom s)
      ((Scan.lookAhead M expected k left).runFrom a) ∧
    ((Scan.lookAhead M expected k left).runFrom a).2.index = a.index ∧
    (((Scan.lookAhead M expected k left).runFrom a).1 = .ok true →
      ((Evaluation.lookAhead path c expected k left).runFrom s).2.source.offset c + (k + left : Nat) ≤
        ((Evaluation.lookAhead path c expected k left).runFrom s).2.source.buffer.available)
  | 0, k, a, s, hs, hroom => ⟨⟨rfl, hs, Frame.refl c s.source⟩, rfl, fun _ => hroom⟩
  | left + 1, k, a, s, hs, hroom => by
    obtain ⟨r, t, hread, ht, hframe, hsaw⟩ := hs.onSource_read k
    rw [Evaluation.lookAhead, Scan.lookAhead, runFrom_bind, Scan.runFrom_bind, Scan.runFrom_look,
      hread]
    generalize (M.item? (a.index + k) a.medium).1 = found at hsaw ⊢
    cases hsaw with
    | failed hf => exact ⟨⟨Halt.mapError_surfaced hf, ht, hframe⟩, rfl, fun h => by cases h⟩
    | ended h =>
      simp only [Except.mapError, h]
      exact ⟨⟨rfl, ht, hframe⟩, rfl, fun h => by cases h⟩
    | found h hroom' =>
      simp only [Except.mapError, h]
      cases expected.get? k with
      | none => exact ⟨⟨rfl, ht, hframe⟩, rfl, fun h => by cases h⟩
      | some w =>
        simp only
        split
        · -- the room for this item is where the next look begins
          obtain ⟨hagrees, hindex, hwaits⟩ := Stands.lookAhead expected left (k + 1) ht hroom'
          refine ⟨⟨hagrees.result, hagrees.stands, hframe.trans hagrees.frame⟩, hindex, fun h => ?_⟩
          have hwaits' := hwaits h
          rwa [show k + 1 + left = k + (left + 1) by omega] at hwaits'
        · exact ⟨⟨rfl, ht, hframe⟩, rfl, fun h => by cases h⟩

theorem Simulates.literal (content : Value) :
    P.Simulates c (Evaluation.literal path c content) (Scan.literal M content) := by
  rw [Evaluation.literal, Scan.literal]
  refine (Simulates.ofExcept fun _ => Sequence.isA_of_ofElements).bind fun expected => ?_
  intro a s hs
  obtain ⟨hagrees, hindex, hwaits⟩ := Stands.lookAhead expected expected.size 0 hs
    (by simpa using hs.within)
  rw [runFrom_bind, Scan.runFrom_bind]
  rcases hx : (Evaluation.lookAhead path c expected 0 expected.size).runFrom s with ⟨r, t⟩
  rcases hy : (Scan.lookAhead M expected 0 expected.size).runFrom a with ⟨r', b⟩
  rw [hx, hy] at hagrees hwaits
  obtain ⟨rfl, ht, hframe⟩ := hagrees
  cases r' with
  | error e => exact ⟨rfl, ht, hframe⟩
  | ok equal =>
    cases equal with
    | false => exact ⟨rfl, ht, hframe⟩
    | true =>
      obtain ⟨w, hconsume, hw, hframe'⟩ := ht.onSource_consume (by simpa using hwaits rfl)
      simp only [Except.mapError, if_true, runFrom_bind, Scan.runFrom_bind, Scan.runFrom_advance]
      rw [hconsume]
      exact ⟨rfl, hw, hframe.trans hframe'⟩

theorem Stands.runFrom_positionOf {a : Scan.State τ} {s : Evaluation.State}
    (h : P.Stands a s.source c) : (Evaluation.positionOf c).runFrom s = (.ok a.index, s) := by
  rw [← h.position]
  rfl

/-- Where a cursor stands and a scan is, they go on from the same number. -/
theorem Simulates.bind_place {f : Int → Evaluation α} {g : Nat → Scan τ α}
    (h : ∀ i : Nat, P.Simulates c (f i) (g i)) :
    P.Simulates c (Evaluation.positionOf c >>= f) (Scan.place >>= g) := by
  intro a s hs
  rw [runFrom_bind, Scan.runFrom_bind, hs.runFrom_positionOf, Scan.runFrom_place]
  exact h a.index a s hs

theorem Simulates.start : P.Simulates c (Evaluation.start c) Scan.start := by
  refine .bind_place fun i => ?_
  simp only [Nat.cast_eq_zero]
  exact .ite (.pure _) (.pure _)

theorem Simulates.finish : P.Simulates c (Evaluation.finish path c) (Scan.finish M) := by
  intro a s hs
  obtain ⟨r, t, hread, ht, hframe, hsaw⟩ := hs.onSource_read 0
  rw [Nat.cast_zero, zero_add] at hread hsaw
  rw [Evaluation.finish, Scan.finish, runFrom_bind, Scan.runFrom_bind, Scan.runFrom_look, hread]
  generalize (M.item? (a.index + 0) a.medium).1 = found at hsaw ⊢
  cases hsaw with
  | failed hf => exact ⟨Halt.mapError_surfaced hf, ht, hframe⟩
  | ended h =>
    have hsize : (_ : Sequence).size = 0 := Nat.le_zero.1 (Sequence.get?_eq_none_iff.1 h)
    simp only [Except.mapError, hsize]
    exact ⟨rfl, ht, hframe⟩
  | @found items v h hroom =>
    have hsize : items.size ≠ 0 := Nat.ne_of_gt (Sequence.lt_size_of_get? h)
    simp only [Except.mapError, hsize]
    exact ⟨rfl, ht, hframe⟩

/-! ## Rules in forks -/

theorem Stands.onSource_fork {a : Scan.State τ} {s : Evaluation.State}
    (h : P.Stands a s.source c) :
    ∃ t, (Evaluation.onSource (Source.fork c)).runFrom s = (.ok (.fork s.source.forks.size), t) ∧
      P.Stands a t.source (.fork s.source.forks.size) ∧
      ∀ u, Frame (.fork s.source.forks.size) t.source u →
        Frame (.fork s.source.forks.size) (s.source.addFork c) u := by
  exact ⟨_, by rw [runFrom_onSource, Source.runOn_fork h.isOpen]; rfl, h.fork.withEvents [],
    fun u hf => Frame.of_withEvents (s := s.source.addFork c) hf⟩

theorem Stands.onSource_close {a b : Scan.State τ} {s u : Evaluation.State}
    (h : P.Stands a s.source c) (hu : P.Stands b u.source (.fork s.source.forks.size))
    (hf : Frame (.fork s.source.forks.size) (s.source.addFork c) u.source) :
    ∃ v, (Evaluation.onSource (Source.close (.fork s.source.forks.size))).runFrom u = (.ok (), v) ∧
      P.Stands ⟨a.index, b.medium⟩ v.source c ∧ Frame c s.source v.source := by
  obtain ⟨v, hrun, hv, hframe⟩ := h.close hu hf
  exact ⟨_, by rw [runFrom_onSource, hrun]; rfl, hv.withEvents [], hframe.withEvents []⟩

theorem Stands.onSource_join {a b : Scan.State τ} {s u : Evaluation.State}
    (h : P.Stands a s.source c) (hu : P.Stands b u.source (.fork s.source.forks.size))
    (hf : Frame (.fork s.source.forks.size) (s.source.addFork c) u.source) :
    ∃ v, (Evaluation.onSource (Source.join (.fork s.source.forks.size))).runFrom u = (.ok (), v) ∧
      P.Stands b v.source c ∧ Frame c s.source v.source := by
  obtain ⟨v, hrun, hv, hframe⟩ := h.join hu hf
  exact ⟨_, by rw [runFrom_onSource, hrun]; rfl, hv.withEvents [], hframe.withEvents []⟩

theorem Simulates.choice {run : Cursor → Rule → Evaluation Outcome} {scan : Rule → Scan τ Outcome}
    (h : ∀ c r, P.Simulates c (run c r) (scan r)) :
    ∀ rules, P.Simulates c (Evaluation.choice run c rules) (Scan.choice scan rules)
  | [] => .pure _
  | r :: rs => by
    intro a s hs
    obtain ⟨t, hfork, ht, hnarrow⟩ := hs.onSource_fork
    obtain ⟨o, u, b, hrun, hscan, hu, hframe⟩ := (h (.fork s.source.forks.size) r).run ht
    have hframe' := hnarrow _ hframe
    rw [Evaluation.choice, Scan.choice, runFrom_bind, Scan.runFrom_bind, Scan.runFrom_keepIf, hfork]
    simp only [runFrom_bind, Evaluation.runFrom_onFailure, hrun, hscan]
    cases o with
    | error e =>
      cases e with
      | outOfFuel =>
        exact ⟨rfl, hs.of_fork hu hframe', hframe'.of_fork hs.isOpen⟩
      | failed f =>
        simp only [Except.mapError, Halt.surfaced, Evaluation.afterFailure, Scan.commits,
          Path.isHard_surface]
        -- a hard failure takes the cursor along; any other leaves the fork where it is
        by_cases hard : f.isHard = true
        · obtain ⟨v, hjoin, hv, hout⟩ := hs.onSource_join hu hframe'
          simp only [hard, if_true, runFrom_bind, hjoin, Evaluation.runFrom_note]
          exact ⟨rfl, hv, hout⟩
        · simp only [hard]
          exact ⟨rfl, hs.of_fork hu hframe', hframe'.of_fork hs.isOpen⟩
    | ok outcome =>
      cases outcome with
      | success vs =>
        obtain ⟨v, hjoin, hv, hout⟩ := hs.onSource_join hu hframe'
        simp only [Except.mapError, Evaluation.afterFailure, runFrom_bind, hjoin]
        exact ⟨rfl, hv, hout⟩
      | mismatch m =>
        -- the next alternative begins where this one began
        obtain ⟨v, hclose, hv, hout⟩ := hs.onSource_close hu hframe'
        simp only [Except.mapError, Evaluation.afterFailure, runFrom_bind, hclose]
        have hrest := Simulates.choice h rs _ v hv
        exact ⟨hrest.result, hrest.stands, hout.trans hrest.frame⟩

/-- A pair of separator and element in a fork agrees with one that is kept if both match. The first
values are asked for after the fork is joined. -/
theorem Simulates.separated {element separator : Cursor → Evaluation Outcome}
    {element' separator' : Scan τ Outcome} (he : ∀ c, P.Simulates c (element c) element')
    (hsep : ∀ c, P.Simulates c (separator c) separator') :
    P.Simulates c (Evaluation.separated element separator c)
      (Scan.separated element' separator') := by
  intro a s hs
  obtain ⟨t, hfork, ht, hnarrow⟩ := hs.onSource_fork
  obtain ⟨o, u, b, hrun, hscan, hu, hframe⟩ := (hsep (.fork s.source.forks.size)).run ht
  rw [Evaluation.separated, Scan.separated, runFrom_bind, Scan.runFrom_bind, Scan.runFrom_keepIf,
    Scan.both, hfork]
  simp only [runFrom_bind, Scan.runFrom_bind, hrun, hscan]
  cases o with
  | error e =>
    -- nobody closes the fork, but the cursor has not moved
    exact ⟨rfl, hs.of_fork hu (hnarrow _ hframe), (hnarrow _ hframe).of_fork hs.isOpen⟩
  | ok outcome =>
    cases outcome with
    | mismatch m =>
      obtain ⟨v, hclose, hv, hout⟩ := hs.onSource_close hu (hnarrow _ hframe)
      simp only [Except.mapError, runFrom_bind, hclose]
      exact ⟨rfl, hv, hout⟩
    | success ss =>
      obtain ⟨o, w, d, hrun', hscan', hw, hframe'⟩ := (he (.fork s.source.forks.size)).run hu
      simp only [Except.mapError, runFrom_bind, Scan.runFrom_bind, hrun', hscan']
      have hboth := hnarrow _ (hframe.trans hframe')
      cases o with
      | error e => exact ⟨rfl, hs.of_fork hw hboth, hboth.of_fork hs.isOpen⟩
      | ok outcome =>
        cases outcome with
        | mismatch m =>
          obtain ⟨v, hclose, hv, hout⟩ := hs.onSource_close hw hboth
          simp only [runFrom_bind, hclose]
          exact ⟨rfl, hv, hout⟩
        | success es =>
          obtain ⟨v, hjoin, hv, hout⟩ := hs.onSource_join hw hboth
          have hvalues := ((Simulates.firstValue ss).bind fun x => (Simulates.firstValue es).bind
            fun y => .pure (Except.ok (ε := Mismatch) (x, y))) _ v hv
          dsimp only
          rw [runFrom_bind, hjoin]
          exact ⟨hvalues.result, hvalues.stands, hout.trans hvalues.frame⟩

theorem Simulates.peek {run : Cursor → Evaluation Outcome} {body : Scan τ Outcome}
    (h : ∀ c, P.Simulates c (run c) body) :
    P.Simulates c (Evaluation.peek run c) (Scan.peek body) := by
  intro a s hs
  obtain ⟨t, hfork, ht, hnarrow⟩ := hs.onSource_fork
  obtain ⟨o, u, b, hrun, hscan, hu, hframe⟩ := (h (.fork s.source.forks.size)).run ht
  have hframe' := hnarrow _ hframe
  -- the fork is closed whatever the result is, after a halt for want of fuel excepted
  obtain ⟨v, hclose, hv, hout⟩ := hs.onSource_close hu hframe'
  rw [Evaluation.peek, Scan.peek, runFrom_bind, Scan.runFrom_keepIf, hfork]
  simp only [runFrom_bind, Evaluation.runFrom_onFailure, hrun, hscan]
  cases o with
  | error e =>
    cases e with
    | outOfFuel => exact ⟨rfl, hs.of_fork hu hframe', hframe'.of_fork hs.isOpen⟩
    | failed f =>
      simp only [Except.mapError, Halt.surfaced, Evaluation.afterFailure, hclose]
      exact ⟨rfl, hv, hout⟩
  | ok outcome =>
    simp only [Except.mapError, Evaluation.afterFailure, hclose]
    exact ⟨rfl, hv, hout⟩

/-! ## Rules at the cursor itself -/

theorem Simulates.sequence {run : Rule → Evaluation Outcome} {scan : Rule → Scan τ Outcome}
    (h : ∀ r, P.Simulates c (run r) (scan r)) : ∀ (rules : List Rule) (values : List Value),
    P.Simulates c (Evaluation.sequence run values rules) (Scan.sequence scan values rules)
  | [], values => .pure _
  | r :: rs, values => by
    refine (h r).bind fun o => ?_
    cases o with
    | mismatch m => exact .pure _
    | success vs => exact Simulates.sequence h rs (values ++ vs)

theorem Simulates.repetition {body : Evaluation Outcome} {body' : Scan τ Outcome}
    (h : P.Simulates c body body') (min : Int) (max : Option Int) :
    ∀ (fuel : Nat) (count : Int) (reversed : List Value),
    P.Simulates c (Evaluation.repetition body min max fuel count reversed)
      (Scan.repetition body' min max fuel count reversed)
  | 0, count, reversed => .ite (.pure _) .outOfFuel
  | fuel + 1, count, reversed => by
    refine .ite (.pure _) (h.bind fun o => ?_)
    cases o with
    | mismatch m => exact .pure _
    | success vs =>
      exact (Simulates.firstValue vs).bind fun v =>
        Simulates.repetition h min max fuel (count + 1) (v :: reversed)

theorem Simulates.punctuatedRest {pair : Evaluation (Except Mismatch (Value × Value))}
    {pair' : Scan τ (Except Mismatch (Value × Value))} (h : P.Simulates c pair pair') (min : Int)
    (max : Option Int) : ∀ (fuel : Nat) (count : Int) (elements separators : List Value),
    P.Simulates c (Evaluation.punctuatedRest pair min max fuel count elements separators)
      (Scan.punctuatedRest pair' min max fuel count elements separators)
  | 0, count, elements, separators => .ite (.pure _) .outOfFuel
  | fuel + 1, count, elements, separators => by
    refine .ite (.pure _) (h.bind fun o => ?_)
    cases o with
    | error m => exact .pure _
    | ok values =>
      exact Simulates.punctuatedRest h min max fuel (count + 1) (values.2 :: elements)
        (values.1 :: separators)

theorem Simulates.punctuated {element separator : Cursor → Evaluation Outcome}
    {element' separator' : Scan τ Outcome} (he : ∀ c, P.Simulates c (element c) element')
    (hsep : ∀ c, P.Simulates c (separator c) separator') (min : Int) (max : Option Int)
    (fuel : Nat) :
    P.Simulates c (Evaluation.punctuated element separator c min max fuel)
      (Scan.punctuated element' separator' min max fuel) := by
  refine (he c).bind fun o => ?_
  cases o with
  | mismatch m => exact .pure _
  | success es =>
    exact (Simulates.firstValue es).bind fun e =>
      Simulates.punctuatedRest (.separated he hsep) min max fuel 1 [e] []

theorem Simulates.optional {body : Evaluation Outcome} {body' : Scan τ Outcome}
    (h : P.Simulates c body body') : P.Simulates c (Evaluation.optional body) (Scan.optional body') := by
  refine h.bind fun o => ?_
  cases o with
  | success vs => exact (Simulates.firstValue vs).bind fun v => .pure _
  | mismatch m => exact .pure _

theorem Simulates.andWithArg {first : Evaluation Outcome} {first' : Scan τ Outcome}
    {second : Value → Evaluation Outcome} {second' : Value → Scan τ Outcome}
    (hf : P.Simulates c first first') (hs : ∀ v, P.Simulates c (second v) (second' v)) :
    P.Simulates c (Evaluation.andWithArg first second) (Scan.andWithArg first' second') := by
  refine hf.bind fun o => ?_
  cases o with
  | mismatch m => exact .pure _
  | success vs =>
    refine (Simulates.firstValue vs).bind fun v => (hs v).bind fun o => ?_
    cases o with
    | mismatch m => exact .pure _
    | success ws => exact .pure _

theorem Simulates.map_rule {body : Evaluation Outcome} {body' : Scan τ Outcome}
    (h : P.Simulates c body body') (conversion : Conversion) (fn : Mapper) (extra : List Value) :
    P.Simulates c (Evaluation.map path conversion body fn extra)
      (Scan.map conversion body' fn extra) := by
  refine h.bind fun o => ?_
  cases o with
  | mismatch m => exact .pure _
  | success vs => exact .of_still (.call path conversion fn (vs ++ extra))

theorem Simulates.mapRange {body : Evaluation Outcome} {body' : Scan τ Outcome}
    (h : P.Simulates c body body') (fn : Option Mapper) :
    P.Simulates c (Evaluation.mapRange path body c fn) (Scan.mapRange body' fn) := by
  refine .bind_place fun i => h.bind fun o => ?_
  cases o with
  | mismatch m => exact .pure _
  | success vs =>
    refine .bind_place fun j => ?_
    cases fn with
    | none => exact .pure _
    | some fn => exact .of_still (.call path .total fn _)

theorem Simulates.expected {body : Evaluation Outcome} {body' : Scan τ Outcome}
    (h : P.Simulates c body body') (what : Value) :
    P.Simulates c (Evaluation.expected body c what) (Scan.expected body' what) := by
  refine h.bind fun o => ?_
  cases o with
  | success vs => exact .pure _
  | mismatch m =>
    refine .bind_place fun i => ?_
    have hf : (Evaluation.incomplete i what m).isA .stopIteration = false := by cases m <;> rfl
    intro a s hs
    exact ⟨Halt.mapError_surfaced hf, hs, Frame.refl c s.source⟩

/-! ## All rules -/

/-- Evaluating a rule at a cursor agrees with scanning by it, with the same fuel. -/
theorem eval_simulates (P : Presentation M path) (g : Grammar) : ∀ (fuel : Nat) (rule : Rule)
    (c : Cursor) (arg : Value),
    P.Simulates c (Evaluation.eval g path fuel rule c arg) (Scan.eval M g fuel rule arg)
  | 0, rule, c, arg => .outOfFuel
  | fuel + 1, rule, c, arg => by
    have ih := fun r c v => eval_simulates P g fuel r c v
    cases rule with
    | item m => exact .item arg m
    | literal content => exact .literal content
    | start => exact .start
    | finish => exact .finish
    | noOp => exact .pure _
    | never n => exact .pure _
    | reference target n =>
      rw [Evaluation.eval, Scan.eval]
      cases target.bind g.rule? with
      | none => exact .fail rfl
      | some r => exact ih r c arg
    | and rules => exact .sequence (fun r => ih r c arg) rules []
    | or rules => exact .choice (fun c r => ih r c arg) rules
    | repetition r min max => exact .repetition (ih r c arg) min max fuel 0 []
    | optional r => exact .optional (ih r c arg)
    | punctuated element separator min max =>
      exact .punctuated (fun c => ih element c arg) (fun c => ih separator c arg) min max fuel
    | andWithArg first second => exact .andWithArg (ih first c arg) fun v => ih second c v
    | map conversion r fn withArg => exact .map_rule (ih r c arg) conversion fn _
    | mapRange r fn => exact .mapRange (ih r c arg) fn
    | discard r => exact (ih r c arg).map _
    | expected r what => exact .expected (ih r c arg) what
    | name r label => exact (ih r c arg).map _
    | peek r => exact .peek fun c => ih r c arg
    | wrapper r => exact ih r c arg
    | abstract => exact .fail rfl

end Backtrack.Presentation
