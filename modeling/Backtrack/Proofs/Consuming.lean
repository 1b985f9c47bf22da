/-
Consuming rules, whose structure forces a success to consume an item: a success of one leaves its
cursor beyond where it stood, and within the items that wait. Part by part, what advances stays
advanced, since nothing that follows takes the cursor back.
-/
import Backtrack.Proofs.Motion
import Backtrack.Proofs.Acceptance
import Backtrack.Proofs.Sequence
namespace Backtrack

/-! ## Consuming rules -/

namespace Rule

mutual

/-- Whether the structure of a rule forces its successes to consume an item, the definitions being
annotated. What never succeeds is consuming. -/
def isConsuming (consuming : Nat → Bool) : Rule → Bool
  | item _ | literal _ | never _ | reference none _ | abstract => true
  | start | finish | noOp | optional _ | peek _ => false
  | reference (some id) _ => consuming id
  | and rules => isAnyConsuming consuming rules
  | or rules => areAllConsuming consuming rules
  | repetition r min _ | punctuated r _ min _ => decide (1 ≤ min) && isConsuming consuming r
  | andWithArg first second => isConsuming consuming first || isConsuming consuming second
  | map _ r _ _ | mapRange r _ | discard r | expected r _ | name r _ | wrapper r =>
    isConsuming consuming r

/-- Whether one of several rules is consuming. -/
def isAnyConsuming (consuming : Nat → Bool) : List Rule → Bool
  | [] => false
  | r :: rs => isConsuming consuming r || isAnyConsuming consuming rs

/-- Whether all of several rules are consuming. -/
def areAllConsuming (consuming : Nat → Bool) : List Rule → Bool
  | [] => true
  | r :: rs => isConsuming consuming r && areAllConsuming consuming rs

end

variable {consuming : Nat → Bool}

theorem isAnyConsuming_iff : ∀ {rules : List Rule},
    isAnyConsuming consuming rules = true ↔ ∃ r ∈ rules, r.isConsuming consuming = true
  | [] => by simp [isAnyConsuming]
  | r :: rs => by simp [isAnyConsuming, isAnyConsuming_iff]

theorem areAllConsuming_iff : ∀ {rules : List Rule},
    areAllConsuming consuming rules = true ↔ ∀ r ∈ rules, r.isConsuming consuming = true
  | [] => by simp [areAllConsuming]
  | r :: rs => by simp [areAllConsuming, areAllConsuming_iff]

end Rule

/-! ## Advancing -/

namespace Source

variable {c : Cursor} {s t u : Source}

/-- The cursor has gone on by an item at least, to where items are known to have been. -/
structure Beyond (c : Cursor) (s u : Source) : Prop where
  position_lt : s.positionOf c < u.positionOf c
  within : u.offset c ≤ u.buffer.available

theorem Beyond.of_moved (h : Moved c s t) (h' : Beyond c t u) : Beyond c s u :=
  ⟨lt_of_le_of_lt h.position_le h'.position_lt, h'.within⟩

theorem Beyond.moved (h : Beyond c s t) (h' : Moved c t u) : Beyond c s u :=
  ⟨lt_of_lt_of_le h.position_lt h'.position_le, h'.within h.within⟩

theorem Beyond.withEvents (h : Beyond c s u) (events : List Event) :
    Beyond c s { u with events := events } := ⟨h.position_lt, h.within⟩

/-- Consuming items takes a cursor beyond them. -/
theorem beyond_consume {n : Nat} (hn : n ≠ 0) (h : ((consume c n).runOn s).1 = .ok ()) :
    Beyond c s ((consume c n).runOn s).2 := by
  have hn' : 0 < (n : Int) := by omega
  cases c with
  | root =>
    rw [show consume .root (n : Int) = consumeRoot n from rfl] at h ⊢
    cases hfailure : consumeFailure? s.buffer 0 n with
    | some f =>
      rw [runOn_consumeRoot_of_some hfailure] at h
      cases h
    | none =>
      have hle : (n : Int) ≤ s.buffer.available := by
        simpa using le_available_of_consumeFailure? hfailure
      rw [runOn_consumeRoot hfailure]
      refine ⟨?_, ?_⟩
      · simp only [positionOf, offset]
        omega
      · simp only [offset, Buffer.available_consume_of_le hle]
        omega
  | fork id =>
    cases hc : s.isClosed (.fork id) with
    | true =>
      rw [runOn_consume_of_closed hc] at h
      cases h
    | false =>
      cases hfailure : consumeFailure? s.buffer (s.offset (.fork id)) n with
      | some f =>
        rw [runOn_consume_fork_of_some hc hfailure] at h
        cases h
      | none =>
        have hid := lt_size_of_open hc
        have hle := le_available_of_consumeFailure? hfailure
        rw [runOn_consume_fork hc hfailure]
        refine ⟨?_, ?_⟩
        · simpa [positionOf, offset, forkAt_setFork_self hid] using hn'
        · simpa [offset, forkAt_setFork_self hid] using hle

/-- A cursor that joins a fork goes as far as the fork has gone. -/
theorem Inside.beyond_join {joined : Except Failure Unit × Source} (h : Inside c s t)
    (hbeyond : Beyond (.fork s.forks.size) t u)
    (hjoin : Joined c (.fork s.forks.size) s u joined) (hok : joined.1 = .ok ()) :
    Beyond c s joined.2 := by
  refine ⟨?_, hjoin.within hok hbeyond.within⟩
  rw [hjoin.position hok]
  exact lt_of_le_of_lt h.position_le hbeyond.position_lt

end Source

namespace Evaluation

open Source (Moved Beyond Inside Joined)

variable {α β : Type} {c : Cursor}

/-- Where the evaluation succeeds, its cursor has gone on by an item at least. -/
def Advances (c : Cursor) (x : Evaluation Outcome) : Prop :=
  ∀ s vs t, x.runFrom s = (.ok (.success vs), t) → Beyond c s.source t.source

/-- A cursor that joins a fork goes as far as the fork has gone. -/
theorem Inside.onSource_join_beyond {s : Source} {t u v : State}
    (h : Inside c s t.source) (hu : Inside c s u.source)
    (hbeyond : Beyond (.fork s.forks.size) t.source u.source) {a : Unit}
    (hjoin : (onSource (Source.join (.fork s.forks.size))).runFrom u = (.ok a, v)) :
    Beyond c s v.source := by
  obtain ⟨hok, hv⟩ := of_onSource_eq_ok hjoin
  rw [hv]
  exact (h.beyond_join hbeyond hu.join hok).withEvents []

namespace Advances

theorem of_eq_throw (h : Halt) : Advances c (throw h) := by
  rintro s vs t ⟨⟩

theorem of_noMatch : Advances c (pure .noMatch) := by
  rintro s vs t ⟨⟩

/-- What moves on after an advance does not take it back. -/
theorem bind_moves {x : Evaluation Outcome} {f : Outcome → Evaluation Outcome} (hx : Advances c x)
    (hf : ∀ vs, Moves c (f (.success vs))) (hmismatch : ∀ m s vs t,
      (f (.mismatch m)).runFrom s ≠ (.ok (.success vs), t)) : Advances c (x >>= f) := by
  intro s vs t h
  obtain ⟨o, u, hrun, hrest⟩ := of_bind_eq_ok h
  cases o with
  | mismatch m => exact absurd hrest (hmismatch m u vs t)
  | success ws =>
    have hmoved := hf ws u
    rw [hrest] at hmoved
    exact (hx s ws u hrun).moved hmoved

/-- What advances does so wherever the cursor has moved. -/
theorem bind {x : Evaluation α} {f : α → Evaluation Outcome} (hx : Moves c x)
    (hf : ∀ a, Advances c (f a)) : Advances c (x >>= f) := by
  intro s vs t h
  obtain ⟨a, u, hrun, hrest⟩ := of_bind_eq_ok h
  have hmoved := hx s
  rw [hrun] at hmoved
  exact .of_moved hmoved (hf a u vs t hrest)

theorem of_consume {n : Nat} (hn : n ≠ 0) (o : Outcome) :
    Advances c (onSource (Source.consume c n) >>= fun _ => pure o) := by
  intro s vs t h
  obtain ⟨a, u, hrun, hrest⟩ := of_bind_eq_ok h
  cases hrest
  obtain ⟨hok, ht⟩ := of_onSource_eq_ok hrun
  rw [ht]
  exact (Source.beyond_consume hn hok).withEvents []

protected theorem item (path : Path) (c : Cursor) (arg : Value) (m : Matcher) :
    Advances c (item path c arg m) := by
  refine .bind (.read path c (by omega)) fun items => ?_
  cases items.get? 0 with
  | none => exact .of_noMatch
  | some v =>
    refine .bind (.of_still (.passes path v arg m)) fun passed => ?_
    cases passed with
    | false => exact .of_noMatch
    | true => exact .of_consume (n := 1) (by omega) _

protected theorem literal (path : Path) (c : Cursor) {content : Value} {n : Nat}
    (hlength : content.length = .ok n) (hpos : n ≠ 0) : Advances c (literal path c content) := by
  obtain ⟨expected, hexpected, rfl⟩ := Sequence.ofElements_of_length hlength
  have hpure : ofExcept (.ok expected) = (pure expected : Evaluation Sequence) := rfl
  rw [Evaluation.literal, hexpected, hpure, pure_bind]
  refine .bind (.lookAhead path c expected _ 0) fun found => ?_
  cases found with
  | false => exact .of_noMatch
  | true => exact .of_consume hpos _

/-! ### Rules with parts -/

/-- A sequence of which a part advances does so itself. -/
protected theorem sequence {run : Rule → Evaluation Outcome} (hmoves : ∀ r, Moves c (run r)) :
    ∀ {rules : List Rule} (values : List Value), (∃ r ∈ rules, Advances c (run r)) →
      Advances c (sequence run values rules)
  | [], values, h => by
    obtain ⟨r, hr, -⟩ := h
    cases hr
  | r :: rs, values, h => by
    by_cases hr : Advances c (run r)
    · exact .bind_moves hr (fun vs => .sequence hmoves rs _) (by rintro m s vs t ⟨⟩)
    · -- the part that advances comes later
      have hrs : ∃ r ∈ rs, Advances c (run r) := by
        obtain ⟨part, hpart, hadvances⟩ := h
        rcases List.mem_cons.1 hpart with rfl | hpart
        · exact absurd hadvances hr
        · exact ⟨part, hpart, hadvances⟩
      refine .bind (hmoves r) fun o => ?_
      cases o with
      | mismatch m => rintro s vs t ⟨⟩
      | success vs => exact Advances.sequence hmoves (values ++ vs) hrs

/-- A choice all of whose alternatives advance does so itself. -/
protected theorem choice {run : Cursor → Rule → Evaluation Outcome}
    (hmoves : ∀ c r, Moves c (run c r)) : ∀ {rules : List Rule},
    (∀ r ∈ rules, ∀ c, Advances c (run c r)) → Advances c (choice run c rules)
  | [], _ => .of_noMatch
  | r :: rs, h => by
    intro s vs t hrun
    obtain ⟨fork, u, hfork, hrun⟩ := of_bind_eq_ok hrun
    obtain ⟨rfl, hu⟩ := Inside.of_onSource_fork_eq_ok hfork
    obtain ⟨o, w, hr, hrun⟩ := of_bind_eq_ok hrun
    have hr := of_onFailure_eq_ok hr
    have hw := hu.run (hmoves (.fork s.source.forks.size) r)
    rw [hr] at hw
    cases o with
    | success ws =>
      obtain ⟨a, v, hjoin, hrun⟩ := of_bind_eq_ok hrun
      cases hrun
      have hbeyond := h r List.mem_cons_self _ u vs w hr
      exact Inside.onSource_join_beyond hu hw hbeyond hjoin
    | mismatch m =>
      -- the next alternative begins where this one began
      obtain ⟨a, v, hclose, hrun⟩ := of_bind_eq_ok hrun
      obtain ⟨v', hclose', hmoved⟩ := hw.onSource_close
      rw [hclose'] at hclose
      cases hclose
      exact .of_moved hmoved (Advances.choice hmoves
        (fun r hr => h r (List.mem_cons_of_mem _ hr)) v vs t hrun)

/-- A loop with a lower bound goes round once at least. -/
protected theorem repetition {body : Evaluation Outcome} (hmoves : Moves c body)
    (h : Advances c body) {min : Int} (hmin : 1 ≤ min) (max : Option Int) (fuel : Nat) :
    Advances c (repetition body min max fuel 0 []) := by
  have hempty : ∀ last, repeated min 0 last [] = .mismatch (last.getD .plain) := by
    intro last
    rw [repeated, if_pos (by omega)]
  cases fuel with
  | zero =>
    rw [repetition, hempty]
    split
    · rintro s vs t ⟨⟩
    · exact .of_eq_throw _
  | succ fuel =>
    rw [repetition, hempty]
    split
    · rintro s vs t ⟨⟩
    · refine .bind_moves h (fun vs => ?_) (fun m s vs t => ?_)
      · exact (Keeps.firstValue vs).bind fun v => .repetition hmoves min max fuel _ _
      · dsimp only
        rw [hempty]
        rintro ⟨⟩

protected theorem punctuated {element separator : Cursor → Evaluation Outcome}
    (he : ∀ c, Moves c (element c)) (hs : ∀ c, Moves c (separator c)) (h : Advances c (element c))
    {min : Int} (hmin : 1 ≤ min) (max : Option Int) (fuel : Nat) :
    Advances c (punctuated element separator c min max fuel) := by
  refine .bind_moves h (fun vs => ?_) (fun m s vs t => ?_)
  · exact (Keeps.firstValue vs).bind fun v => .punctuatedRest (.separated he hs) min max fuel _ _ _
  · dsimp only
    rw [punctuatedResult, if_pos (by omega)]
    rintro ⟨⟩

/-- A pair that is found has taken the cursor on if its separator or its element has. -/
theorem beyond_of_separated {element separator : Cursor → Evaluation Outcome}
    (he : ∀ c, Moves c (element c)) (hs : ∀ c, Moves c (separator c))
    (h : (∀ c, Advances c (separator c)) ∨ ∀ c, Advances c (element c)) {s t : State}
    {pair : Value × Value}
    (hrun : (separated element separator c).runFrom s = (.ok (.ok pair), t)) :
    Beyond c s.source t.source := by
  obtain ⟨fork, u, hfork, hrun⟩ := of_bind_eq_ok hrun
  obtain ⟨rfl, hu⟩ := Inside.of_onSource_fork_eq_ok hfork
  obtain ⟨o, w, hseparator, hrun⟩ := of_bind_eq_ok hrun
  have huw := hs (.fork s.source.forks.size) u
  rw [hseparator] at huw
  cases o with
  | mismatch m =>
    obtain ⟨_, _, -, hrun⟩ := of_bind_eq_ok hrun
    cases hrun
  | success ss =>
    obtain ⟨o, v, helement, hrun⟩ := of_bind_eq_ok hrun
    have hwv := he (.fork s.source.forks.size) w
    rw [helement] at hwv
    cases o with
    | mismatch m =>
      obtain ⟨_, _, -, hrun⟩ := of_bind_eq_ok hrun
      cases hrun
    | success es =>
      have hbeyond : Beyond (.fork s.source.forks.size) u.source v.source := by
        rcases h with h | h
        · exact (h _ u ss w hseparator).moved hwv
        · exact .of_moved huw (h _ w es v helement)
      obtain ⟨_, x, hjoin, hrun⟩ := of_bind_eq_ok hrun
      have hvalues : Moves c (firstValue ss >>= fun a => firstValue es >>= fun b =>
          pure (Except.ok (ε := Mismatch) (a, b))) :=
        (Keeps.firstValue ss).bind fun _ => (Keeps.firstValue es).bind fun _ => .pure _
      have hmoved := hvalues x
      rw [hrun] at hmoved
      exact (Inside.onSource_join_beyond hu ((hu.trans huw).trans hwv) hbeyond hjoin).moved hmoved

protected theorem andWithArg {first : Evaluation Outcome} {second : Value → Evaluation Outcome}
    (hf : Moves c first) (hs : ∀ v, Moves c (second v))
    (h : Advances c first ∨ ∀ v, Advances c (second v)) :
    Advances c (andWithArg first second) := by
  rcases h with h | h
  · refine .bind_moves h (fun vs => ?_) (by rintro m s vs t ⟨⟩)
    refine (Keeps.firstValue vs).bind fun v => (hs v).bind fun o => ?_
    cases o with
    | mismatch m => exact .pure _
    | success ws => exact .pure _
  · refine .bind hf fun o => ?_
    cases o with
    | mismatch m => rintro s vs t ⟨⟩
    | success vs =>
      refine .bind (.firstValue vs) fun v => .bind_moves (h v) (fun ws => .pure _) ?_
      rintro m s vs t ⟨⟩

theorem map_rule {body : Evaluation Outcome} (h : Advances c body) (path : Path)
    (conversion : Conversion) (fn : Mapper) (extra : List Value) :
    Advances c (Evaluation.map path conversion body fn extra) :=
  .bind_moves h (fun vs => .of_still (.call path conversion fn (vs ++ extra))) (by rintro m s vs t ⟨⟩)

protected theorem mapRange {body : Evaluation Outcome} (h : Advances c body) (path : Path)
    (fn : Option Mapper) : Advances c (mapRange path body c fn) := by
  refine .bind (.positionOf c) fun first => .bind_moves h (fun vs => ?_) (by rintro m s vs t ⟨⟩)
  refine (Keeps.positionOf c).bind fun last => ?_
  cases fn with
  | none => exact .pure _
  | some fn => exact .of_still (.call path .total fn _)

protected theorem expected {body : Evaluation Outcome} (h : Advances c body) (what : Value) :
    Advances c (expected body c what) :=
  .bind_moves h (fun vs => .pure _) (by rintro m s vs t ⟨⟩)

/-- Changing nothing but the values of successes and the labels of mismatches keeps advances. -/
protected theorem map {body : Evaluation Outcome} {f : Outcome → Outcome} (h : Advances c body)
    (hf : ∀ m vs, f (.mismatch m) ≠ .success vs) : Advances c (f <$> body) := by
  rw [map_eq_pure_bind]
  refine .bind_moves h (fun vs => .pure _) fun m s vs t heq => ?_
  have hvs := (Prod.mk.inj heq).1
  exact hf m vs (Except.ok.inj hvs)

end Advances

/-- A consuming rule advances wherever it succeeds. -/
theorem eval_advances {g : Grammar} (hg : g.WellFormed) {consuming : Nat → Bool}
    (hconsumes : ∀ id body, g.rule? id = some body → consuming id = true →
      body.isConsuming consuming = true) (path : Path) :
    ∀ (fuel : Nat) {rule : Rule}, rule.WellFormed g → rule.isConsuming consuming = true →
      ∀ (c : Cursor) (arg : Value), Advances c (eval g path fuel rule c arg)
  | 0, rule, _, _, c, arg => .of_eq_throw _
  | fuel + 1, rule, hrule, hconsuming, c, arg => by
    have ih : ∀ {r : Rule}, r.WellFormed g → r.isConsuming consuming = true →
        ∀ (c : Cursor) (arg : Value), Advances c (eval g path fuel r c arg) :=
      fun hr hc => eval_advances hg hconsumes path fuel hr hc
    have hmoves := fun r c v => eval_moves g path fuel r c v
    cases hrule with
    | item m => exact .item path c arg m
    | literal hsize hpos => exact .literal path c hsize hpos
    | never n => exact .of_noMatch
    | start => cases hconsuming
    | finish => cases hconsuming
    | noOp => cases hconsuming
    | @reference id d _ =>
      rw [eval]
      cases hbody : g.rule? id with
      | none =>
        simp only [Option.bind_some, hbody]
        exact .of_eq_throw _
      | some body =>
        simp only [Option.bind_some, hbody]
        exact ih (hg.of_rule? hbody) (hconsumes id body hbody hconsuming) c arg
    | fresh n => exact .of_eq_throw _
    | and _ hparts =>
      obtain ⟨r, hr, hr'⟩ := Rule.isAnyConsuming_iff.1 hconsuming
      exact .sequence (fun r => hmoves r c arg) [] ⟨r, hr, ih (hparts r hr) hr' c arg⟩
    | or _ hparts _ =>
      have hall := Rule.areAllConsuming_iff.1 hconsuming
      exact .choice (fun c r => hmoves r c arg) fun r hr c => ih (hparts r hr) (hall r hr) c arg
    | @repetition r min max hpart _ _ =>
      obtain ⟨hmin, hr⟩ : decide (1 ≤ min) = true ∧ r.isConsuming consuming = true :=
        Bool.and_eq_true_iff.1 hconsuming
      exact .repetition (hmoves _ c arg) (ih hpart hr c arg) (of_decide_eq_true hmin) max fuel
    | optional _ _ => cases hconsuming
    | @punctuated element separator min max helement _ _ _ _ _ =>
      obtain ⟨hmin, he⟩ : decide (1 ≤ min) = true ∧ element.isConsuming consuming = true :=
        Bool.and_eq_true_iff.1 hconsuming
      exact .punctuated (fun c => hmoves _ c arg) (fun c => hmoves _ c arg) (ih helement he c arg)
        (of_decide_eq_true hmin) max fuel
    | @andWithArg first second hfirst hsecond _ =>
      refine .andWithArg (hmoves first c arg) (fun v => hmoves second c v) ?_
      rcases Bool.or_eq_true_iff.1 hconsuming with h | h
      · exact .inl (ih hfirst h c arg)
      · exact .inr fun v => ih hsecond h c v
    | map hpart _ =>
      rw [Rule.isConsuming] at hconsuming
      exact .map_rule (ih hpart hconsuming c arg) path _ _ _
    | mapRange hpart =>
      rw [Rule.isConsuming] at hconsuming
      exact .mapRange (ih hpart hconsuming c arg) path none
    | @mapRangeWith r fn hpart _ =>
      rw [Rule.isConsuming] at hconsuming
      exact .mapRange (ih hpart hconsuming c arg) path (some fn)
    | discard hpart =>
      rw [Rule.isConsuming] at hconsuming
      exact .map (f := valueless) (ih hpart hconsuming c arg) (by rintro m vs ⟨⟩)
    | expected hpart what =>
      rw [Rule.isConsuming] at hconsuming
      exact .expected (ih hpart hconsuming c arg) what
    | name hpart label =>
      rw [Rule.isConsuming] at hconsuming
      exact .map (f := labelled label) (ih hpart hconsuming c arg) (by rintro (_ | _) vs ⟨⟩)
    | peek _ => cases hconsuming
    | wrapper hpart =>
      rw [Rule.isConsuming] at hconsuming
      exact ih hpart hconsuming c arg
    | abstract => exact .of_eq_throw _

end Evaluation

end Backtrack
