/-
Loops. A repetition and a list with separators go round in the same way: until there is as much as
there may be, or a round gives nothing more. `loop` is what they have in common, and `Loops` says
what it comes to: rounds one after another, each from where the one before it ended, and a last one
that gives nothing unless the loop is full. So a repetition is the greedy iteration of its body, up
to its upper bound.
-/
import Backtrack.Proofs.Evaluates
import Backtrack.Proofs.Arity
import Mathlib
namespace Backtrack

open Filter

namespace Evaluation

variable {α β : Type}

/-! ## Loops -/

/-- Goes round until it is full or a round is refused; what was found comes newest first. -/
def loop (round : Evaluation (Except Mismatch β)) (full : Nat → Bool) :
    (fuel : Nat) → (found : List β) → Evaluation (List β × Option Mismatch)
  | 0, found => if full found.length then return (found, none) else throw .outOfFuel
  | fuel + 1, found => do
    if full found.length then return (found, none)
    match ← round with
    | .error m => return (found, some m)
    | .ok b => loop round full fuel (b :: found)

/-- A body as a round: its one value, or its mismatch. -/
def single (body : Evaluation Outcome) : Evaluation (Except Mismatch Value) := do
  match ← body with
  | .mismatch m => return .error m
  | .success vs => return .ok (← firstValue vs)

/-- A repetition is a loop of its body. -/
theorem repetition_eq_loop (body : Evaluation Outcome) (min : Int) (max : Option Int) :
    ∀ (fuel : Nat) (reversed : List Value),
      repetition body min max fuel reversed.length reversed =
        loop (single body) (fun n => isFull max n) fuel reversed >>= fun (found, last) =>
          pure (repeated min found.length last found) := by
  intro fuel
  induction fuel with
  | zero =>
    intro reversed
    rw [repetition, loop]
    split
    · rfl
    · rfl
  | succ fuel ih =>
    intro reversed
    rw [repetition, loop]
    split
    · rfl
    · simp only [single, bind_assoc]
      refine bind_congr fun o => ?_
      cases o with
      | mismatch m => rfl
      | success vs =>
        simp only [bind_assoc]
        exact bind_congr fun v => ih (v :: reversed)

/-! ## What loops come to -/

/-- The loop that has gone round `n` times goes on so: the values of its rounds, and what it ends
with, a mismatch if it is not full. -/
inductive Loops (ends : State → Except Failure (Except Mismatch β) → State → Prop)
    (full : Nat → Bool) : Nat → State → List β → Except Failure (Option Mismatch) → State → Prop where
  | full {n : Nat} {s : State} (h : full n = true) : Loops ends full n s [] (.ok none) s
  | refused {n : Nat} {s t : State} {m : Mismatch} (h : full n = false)
    (hround : ends s (.ok (.error m)) t) : Loops ends full n s [] (.ok (some m)) t
  | failed {n : Nat} {s t : State} {f : Failure} (h : full n = false)
    (hround : ends s (.error f) t) : Loops ends full n s [] (.error f) t
  | round {n : Nat} {s t u : State} {b : β} {bs : List β} {r : Except Failure (Option Mismatch)}
    (h : full n = false) (hround : ends s (.ok (.ok b)) t) (hrest : Loops ends full (n + 1) t bs r u) :
    Loops ends full n s (b :: bs) r u

/-- The evaluation ends so. -/
def EndsWith (x : Evaluation α) (s : State) (r : Except Failure α) (t : State) : Prop :=
  x.runFrom s = (r.mapError .failed, t)

namespace Loops

variable {full : Nat → Bool} {n : Nat} {s t : State} {found bs : List β}
  {r : Except Failure (Option Mismatch)}

theorem imp {ends ends' : State → Except Failure (Except Mismatch β) → State → Prop}
    (h : ∀ {s r t}, ends s r t → ends' s r t) (hloops : Loops ends full n s bs r t) :
    Loops ends' full n s bs r t := by
  induction hloops with
  | full hfull => exact .full hfull
  | refused hfull hround => exact .refused hfull (h hround)
  | failed hfull hround => exact .failed hfull (h hround)
  | round hfull hround _ ih => exact .round hfull (h hround) ih

/-- Rounds that all end with enough fuel end with the same fuel. -/
theorem eventually {ends : Nat → State → Except Failure (Except Mismatch β) → State → Prop}
    (hloops : Loops (fun s r t => ∀ᶠ fuel in atTop, ends fuel s r t) full n s bs r t) :
    ∀ᶠ fuel in atTop, Loops (ends fuel) full n s bs r t := by
  induction hloops with
  | full hfull => exact .of_forall fun _ => .full hfull
  | refused hfull hround => exact hround.mono fun _ h => .refused hfull h
  | failed hfull hround => exact hround.mono fun _ h => .failed hfull h
  | round hfull hround _ ih => exact (hround.and ih).mono fun _ h => .round hfull h.1 h.2

variable {round : Evaluation (Except Mismatch β)}

/-- A loop that ends has gone round so. -/
theorem of_runFrom : ∀ {fuel : Nat} {s : State} {found : List β}
    {r : Except Failure (List β × Option Mismatch)}, EndsWith (loop round full fuel found) s r t →
    ∃ bs r', Loops (EndsWith round) full found.length s bs r' t ∧
      r = r'.map fun last => (bs.reverse ++ found, last)
  | 0, s, found, r, h => by
    rw [EndsWith, loop] at h
    split at h
    · rename_i hfull
      obtain ⟨hr, rfl⟩ := Prod.mk.inj h
      exact ⟨[], .ok none, .full hfull, (mapError_failed_inj (r := .ok _) hr).symm⟩
    · exact absurd (congrArg Prod.fst h).symm (mapError_failed_ne_outOfFuel r)
  | fuel + 1, s, found, r, h => by
    rw [EndsWith, loop] at h
    split at h
    · rename_i hfull
      obtain ⟨hr, rfl⟩ := Prod.mk.inj h
      exact ⟨[], .ok none, .full hfull, (mapError_failed_inj (r := .ok _) hr).symm⟩
    · rename_i hfull
      have hfull := Bool.eq_false_of_not_eq_true hfull
      rw [runFrom_bind] at h
      rcases hrun : round.runFrom s with ⟨(f | _) | (m | b), u⟩
      · rw [hrun] at h
        obtain ⟨hr, rfl⟩ := Prod.mk.inj h
        exact ⟨[], .error f, .failed hfull hrun, (mapError_failed_inj (r := .error f) hr).symm⟩
      · rw [hrun] at h
        exact absurd (congrArg Prod.fst h).symm (mapError_failed_ne_outOfFuel r)
      · rw [hrun] at h
        obtain ⟨hr, rfl⟩ := Prod.mk.inj h
        exact ⟨[], .ok (some m), .refused hfull hrun, (mapError_failed_inj (r := .ok _) hr).symm⟩
      · rw [hrun] at h
        have hrest : EndsWith (loop round full fuel (b :: found)) u r t := h
        obtain ⟨bs, r', hrest, hr⟩ := of_runFrom hrest
        refine ⟨b :: bs, r', .round hfull hrun hrest, ?_⟩
        rw [hr, List.reverse_cons, List.append_assoc]
        rfl

/-- A loop ends as its rounds do, if it has fuel for one more. -/
theorem runFrom_loop (h : Loops (EndsWith round) full n s bs r t) : ∀ {found : List β},
    found.length = n → ∀ {fuel : Nat}, bs.length < fuel →
      EndsWith (loop round full fuel found) s (r.map fun last => (bs.reverse ++ found, last)) t := by
  induction h with
  | full hfull =>
    rintro found rfl (_ | fuel) hfuel
    · cases hfuel
    · rw [EndsWith, loop, if_pos hfull]
      rfl
  | refused hfull hround =>
    rintro found rfl (_ | fuel) hfuel
    · cases hfuel
    · rw [EndsWith, loop, if_neg (by simp [hfull]), runFrom_bind, hround]
      rfl
  | failed hfull hround =>
    rintro found rfl (_ | fuel) hfuel
    · cases hfuel
    · rw [EndsWith, loop, if_neg (by simp [hfull]), runFrom_bind, hround]
      rfl
  | @round n s t u b bs r hfull hround _ ih =>
    rintro found rfl (_ | fuel) hfuel
    · cases hfuel
    · have hlength : (b :: found).length = found.length + 1 := rfl
      have hrest := ih hlength (Nat.lt_of_succ_lt_succ hfuel)
      rw [EndsWith, loop, if_neg (by simp [hfull]), runFrom_bind, hround]
      rw [List.reverse_cons, List.append_assoc]
      exact hrest

end Loops

/-- One round after another, each from where the one before it ended. -/
inductive Rounds (go : State → β → State → Prop) : State → List β → State → Prop where
  | nil (s : State) : Rounds go s [] s
  | cons {s t u : State} {b : β} {bs : List β} (h : go s b t) (hrest : Rounds go t bs u) :
    Rounds go s (b :: bs) u

namespace Loops

variable {ends : State → Except Failure (Except Mismatch β) → State → Prop} {full : Nat → Bool}
  {n : Nat} {s t : State} {bs : List β} {r : Except Failure (Option Mismatch)}

/-- A loop is its rounds, none of which begins when it is full, and then its end. -/
theorem iff_rounds : Loops ends full n s bs r t ↔
    ∃ u, Rounds (fun s b t => ends s (.ok (.ok b)) t) s bs u ∧
      (∀ k < bs.length, full (n + k) = false) ∧ Loops ends full (n + bs.length) u [] r t := by
  constructor
  · intro h
    induction h with
    | @full n s hfull => exact ⟨s, .nil s, by simp, .full hfull⟩
    | @refused n s _ _ hfull hround => exact ⟨s, .nil s, by simp, .refused hfull hround⟩
    | @failed n s _ _ hfull hround => exact ⟨s, .nil s, by simp, .failed hfull hround⟩
    | @round n s t u b bs r hfull hround _ ih =>
      obtain ⟨v, hrounds, hbefore, hend⟩ := ih
      refine ⟨v, .cons hround hrounds, fun k hk => ?_, ?_⟩
      · cases k with
        | zero => exact hfull
        | succ k =>
          rw [← hbefore k (Nat.lt_of_succ_lt_succ hk)]
          congr 1
          omega
      · rw [List.length_cons, Nat.add_comm bs.length, ← Nat.add_assoc]
        exact hend
  · rintro ⟨u, hrounds, hbefore, hend⟩
    induction hrounds generalizing n with
    | nil s => exact hend
    | @cons s t u b bs hround _ ih =>
      refine .round (hbefore 0 (by simp)) hround (ih (fun k hk => ?_) ?_)
      · rw [← hbefore (k + 1) (by simpa using hk)]
        congr 1
        omega
      · rw [List.length_cons, Nat.add_comm bs.length, ← Nat.add_assoc] at hend
        exact hend

theorem nil_iff : Loops ends full n s [] r t ↔
    (full n = true ∧ r = .ok none ∧ t = s) ∨
    full n = false ∧ ((∃ m, r = .ok (some m) ∧ ends s (.ok (.error m)) t) ∨
      ∃ f, r = .error f ∧ ends s (.error f) t) := by
  constructor
  · intro h
    cases h with
    | full hfull => exact .inl ⟨hfull, rfl, rfl⟩
    | refused hfull hround => exact .inr ⟨hfull, .inl ⟨_, rfl, hround⟩⟩
    | failed hfull hround => exact .inr ⟨hfull, .inr ⟨_, rfl, hround⟩⟩
  · rintro (⟨hfull, rfl, rfl⟩ | ⟨hfull, ⟨m, rfl, hround⟩ | ⟨f, rfl, hround⟩⟩)
    · exact .full hfull
    · exact .refused hfull hround
    · exact .failed hfull hround

theorem isFull_eq_false_iff {max : Option Int} {count : Int} :
    isFull max count = false ↔ ∀ most, max = some most → count < most := by
  cases max with
  | none => simp [isFull]
  | some most => simp [isFull]

/-- A loop with an upper bound that leaves room for what is there already: it has come to the bound,
or one more round gave nothing. -/
theorem iff_of_isFull {max : Option Int} {k : Nat} (hk : ∀ most, max = some most → (k : Int) ≤ most) :
    Loops ends (fun n => isFull max (n + k)) 0 s bs r t ↔
    ∃ u, Rounds (fun s b t => ends s (.ok (.ok b)) t) s bs u ∧
      ((max = some ((bs.length : Int) + k) ∧ r = .ok none ∧ t = u) ∨
      (∀ most, max = some most → (bs.length : Int) + k < most) ∧
        ((∃ m, r = .ok (some m) ∧ ends u (.ok (.error m)) t) ∨
          ∃ f, r = .error f ∧ ends u (.error f) t)) := by
  rw [iff_rounds]
  simp only [nil_iff, Nat.zero_add, isFull_eq_false_iff]
  refine exists_congr fun u => and_congr_right fun _ => ⟨?_, ?_⟩
  · rintro ⟨hbefore, ⟨hfull, hr, ht⟩ | hopen⟩
    · -- the bound is reached and was not passed
      refine .inl ⟨?_, hr, ht⟩
      cases max with
      | none => cases hfull
      | some most =>
        have hle : most ≤ (bs.length : Int) + k := of_decide_eq_true hfull
        have hge : (bs.length : Int) + k ≤ most := by
          rcases Nat.eq_zero_or_pos bs.length with hzero | hpos
          · have := hk most rfl
            omega
          · have := hbefore (bs.length - 1) (by omega) most rfl
            omega
        rw [le_antisymm hle hge]
    · exact .inr hopen
  · rintro (⟨rfl, hr, ht⟩ | ⟨hopen, hend⟩)
    · refine ⟨fun i hi most hmost => ?_, .inl ⟨by simp [isFull], hr, ht⟩⟩
      cases hmost
      omega
    · refine ⟨fun i hi most hmost => ?_, .inr ⟨hopen, hend⟩⟩
      have := hopen most hmost
      omega

end Loops

/-! ## Repetitions -/

/-- What a round gives, as the outcome of a rule with one value. -/
def ofRound : Except Mismatch Value → Outcome
  | .ok v => .single v
  | .error m => .mismatch m

/-- What is made of a result afterwards does not matter to how it ends. -/
theorem endsWith_bind_pure_iff {x : Evaluation α} {f : α → β} {s t : State} {r : Except Failure β} :
    EndsWith (x >>= fun a => pure (f a)) s r t ↔ ∃ r', EndsWith x s r' t ∧ r = r'.map f := by
  simp only [EndsWith, runFrom_bind]
  rcases x.runFrom s with ⟨(f | _) | a, u⟩
  · constructor
    · intro h
      obtain ⟨hr, rfl⟩ := Prod.mk.inj h
      exact ⟨.error f, rfl, (mapError_failed_inj (r := .error f) hr).symm⟩
    · rintro ⟨f' | a, h, rfl⟩
      · cases h
        rfl
      · cases h
  · constructor
    · intro h
      exact absurd (congrArg Prod.fst h).symm (mapError_failed_ne_outOfFuel r)
    · rintro ⟨r', h, -⟩
      exact absurd (congrArg Prod.fst h).symm (mapError_failed_ne_outOfFuel r')
  · constructor
    · intro h
      obtain ⟨hr, rfl⟩ := Prod.mk.inj h
      exact ⟨.ok a, rfl, (mapError_failed_inj (r := .ok (f a)) hr).symm⟩
    · rintro ⟨f' | a', h, rfl⟩
      · cases h
      · cases h
        rfl

theorem ofRound_injective : Function.Injective ofRound := by
  rintro (m | v) (m' | v') h <;> cases h <;> rfl

/-- A round that is made of a body with one value runs as the body does. -/
theorem runFrom_single {x : Evaluation Outcome} (hx : Gives (Outcome.HasArity 1) x) (s : State) :
    ∃ r t, (single x).runFrom s = (r, t) ∧ x.runFrom s = (r.map ofRound, t) := by
  rcases hrun : x.runFrom s with ⟨e | (vs | m), t⟩
  · exact ⟨.error e, t, by rw [single, runFrom_bind, hrun], rfl⟩
  · have harity : (vs.length : Int) = 1 := hx s _ t hrun
    obtain ⟨v, rfl⟩ := List.length_eq_one_iff.1 (show vs.length = 1 by omega)
    exact ⟨.ok (.ok v), t, by rw [single, runFrom_bind, hrun]; rfl, rfl⟩
  · exact ⟨.ok (.error m), t, by rw [single, runFrom_bind, hrun]; rfl, rfl⟩

theorem endsWith_single_iff {x : Evaluation Outcome} (hx : Gives (Outcome.HasArity 1) x) {s t : State}
    {r : Except Failure (Except Mismatch Value)} :
    EndsWith (single x) s r t ↔ EndsWith x s (r.map ofRound) t := by
  obtain ⟨r', u, hsingle, hrun⟩ := runFrom_single hx s
  have hmap : (r.map ofRound).mapError Halt.failed = (r.mapError Halt.failed).map ofRound := by
    cases r <;> rfl
  have hinj : ∀ {r r' : Except Halt (Except Mismatch Value)},
      r.map ofRound = r'.map ofRound → r = r' := by
    rintro (e | a) (e' | a') h
    · cases h
      rfl
    · cases h
    · cases h
    · rw [ofRound_injective (Except.ok.inj h)]
  simp only [EndsWith, hsingle, hrun, hmap, Prod.mk.injEq]
  exact and_congr_left fun _ => ⟨fun h => by rw [h], hinj⟩

/-- A well-formed rule of one value gives one value where it succeeds, however much fuel there is. -/
theorem gives_single {g : Grammar} (hg : g.WellFormed) {body : Rule} (hbody : body.WellFormed g)
    (harity : body.arity = 1) (path : Path) (c : Cursor) (arg : Value) (fuel : Nat) :
    Gives (Outcome.HasArity 1) (eval g path fuel body c arg) :=
  harity ▸ gives_arity hg path fuel hbody c arg

/-- What a repetition of a rule with one value comes to. -/
theorem evaluates_repetition_iff {g : Grammar} {body : Rule} {path : Path} {min : Int}
    {max : Option Int} {c : Cursor} {arg : Value} {s t : State} {r : Except Failure Outcome}
    (hbody : ∀ fuel, Gives (Outcome.HasArity 1) (eval g path fuel body c arg)) :
    g.Evaluates path (.repetition body min max) c arg s r t ↔
      ∃ vs r', Loops (fun s r t => g.Evaluates path body c arg s (r.map ofRound) t)
          (fun n => isFull max n) 0 s vs r' t ∧
        r = r'.map fun last => repeated min vs.length last vs.reverse := by
  have hsingle : ∀ {fuel s r t}, EndsWith (single (eval g path fuel body c arg)) s r t ↔
      EndsWith (eval g path fuel body c arg) s (r.map ofRound) t :=
    fun {fuel _ _ _} => endsWith_single_iff (hbody fuel)
  constructor
  · intro h
    obtain ⟨fuel, hrun⟩ := h.exists_succ
    rw [eval, show (0 : Int) = ([] : List Value).length from rfl, repetition_eq_loop] at hrun
    obtain ⟨r', hloop, rfl⟩ := endsWith_bind_pure_iff.1 hrun
    obtain ⟨vs, r'', hloops, rfl⟩ := Loops.of_runFrom hloop
    refine ⟨vs, r'', hloops.imp fun h => ⟨fuel, hsingle.1 h⟩, ?_⟩
    cases r'' <;> simp [Except.map]
  · rintro ⟨vs, r', hloops, rfl⟩
    -- the body ends in all rounds with the same fuel, which is enough for as many rounds too
    refine .of_eventually_succ ?_
    have hrounds := (hloops.imp fun h => h.eventually.mono fun fuel h => hsingle.2 h).eventually
    filter_upwards [hrounds, eventually_gt_atTop vs.length] with fuel hrounds hfuel
    rw [eval, show (0 : Int) = ([] : List Value).length from rfl, repetition_eq_loop]
    refine endsWith_bind_pure_iff.2 ⟨_, hrounds.runFrom_loop List.length_nil hfuel, ?_⟩
    cases r' <;> simp [Except.map]

/-- A list with a lower bound is a success exactly where it has come to the bound. -/
theorem repeated_eq_success_iff {min count : Int} {last : Option Mismatch} {reversed vs : List Value} :
    repeated min count last reversed = .success vs ↔ min ≤ count ∧ vs = [.list reversed.reverse] := by
  rw [repeated]
  split
  · constructor
    · rintro ⟨⟩
    · rintro ⟨hle, -⟩
      omega
  · constructor
    · rintro ⟨⟩
      exact ⟨by omega, rfl⟩
    · rintro ⟨-, rfl⟩
      rfl

theorem repeated_eq_mismatch_iff {min count : Int} {last : Option Mismatch} {reversed : List Value}
    {m : Mismatch} : repeated min count last reversed = .mismatch m ↔
      count < min ∧ m = last.getD .plain := by
  rw [repeated]
  split
  · exact ⟨by rintro ⟨⟩; exact ⟨‹_›, rfl⟩, by rintro ⟨-, rfl⟩; rfl⟩
  · exact ⟨by rintro ⟨⟩, by rintro ⟨hlt, -⟩; omega⟩

theorem of_checkBounds {min : Int} {max : Option Int} {a : Unit}
    (h : Rule.checkBounds min max = .ok a) : 0 ≤ min ∧ ∀ most, max = some most → min ≤ most := by
  unfold Rule.checkBounds at h
  split at h
  · cases h
  · refine ⟨by omega, ?_⟩
    rintro most rfl
    simp only at h
    split at h
    · cases h
    · omega

/-- Of a repetition that was made: the rule, and what was checked. -/
theorem of_makeRepeat {body rule : Rule} {min : Int} {max : Option Int}
    (h : Rule.makeRepeat (.rule body) min max = .ok rule) :
    rule = .repetition body min max ∧ body.arity = 1 ∧ 0 ≤ min ∧
      ∀ most, max = some most → min ≤ most := by
  obtain ⟨p, hp, h⟩ := Except.of_bind_eq_ok h
  obtain ⟨u, hu, h⟩ := Except.of_bind_eq_ok h
  obtain ⟨u', hbounds, h⟩ := Except.of_bind_eq_ok h
  cases hp
  cases h
  exact ⟨rfl, Rule.arity_of_requireSingle hu, of_checkBounds hbounds⟩

/-- A repetition is rounds of its body: up to its upper bound, or until the body has no value. -/
theorem evaluates_repetition_iff_rounds {g : Grammar} {body : Rule} {path : Path} {min : Int}
    {max : Option Int} {c : Cursor} {arg : Value} {s t : State} {r : Except Failure Outcome}
    (hbody : ∀ fuel, Gives (Outcome.HasArity 1) (eval g path fuel body c arg))
    (hmax : ∀ most, max = some most → 0 ≤ most) :
    g.Evaluates path (.repetition body min max) c arg s r t ↔
      ∃ found u,
        Rounds (fun s v t => g.Evaluates path body c arg s (.ok (.success [v])) t) s found u ∧
        ((max = some (found.length : Int) ∧
            r = .ok (repeated min found.length none found.reverse) ∧ t = u) ∨
          (∀ most, max = some most → (found.length : Int) < most) ∧
            ((∃ m, r = .ok (repeated min found.length (some m) found.reverse) ∧
              g.Evaluates path body c arg u (.ok (.mismatch m)) t) ∨
            ∃ f, r = .error f ∧ g.Evaluates path body c arg u (.error f) t)) := by
  rw [evaluates_repetition_iff hbody]
  have hloops : ∀ vs r', Loops (fun s r t => g.Evaluates path body c arg s (r.map ofRound) t)
      (fun n => isFull max (n + (0 : Nat))) 0 s vs r' t ↔ _ := fun vs r' =>
    Loops.iff_of_isFull (by simpa using hmax)
  simp only [Nat.cast_zero, add_zero] at hloops
  constructor
  · rintro ⟨found, r', h, rfl⟩
    obtain ⟨u, hrounds, hend⟩ := (hloops found r').1 h
    refine ⟨found, u, hrounds, ?_⟩
    rcases hend with ⟨hfull, rfl, rfl⟩ | ⟨hopen, ⟨m, rfl, hround⟩ | ⟨f, rfl, hround⟩⟩
    · exact .inl ⟨hfull, rfl, rfl⟩
    · exact .inr ⟨hopen, .inl ⟨m, rfl, hround⟩⟩
    · exact .inr ⟨hopen, .inr ⟨f, rfl, hround⟩⟩
  · rintro ⟨found, u, hrounds, ⟨hfull, rfl, rfl⟩ | ⟨hopen, ⟨m, rfl, hround⟩ | ⟨f, rfl, hround⟩⟩⟩
    · exact ⟨found, .ok none, (hloops _ _).2 ⟨_, hrounds, .inl ⟨hfull, rfl, rfl⟩⟩, rfl⟩
    · exact ⟨found, .ok (some m), (hloops _ _).2 ⟨u, hrounds, .inr ⟨hopen, .inl ⟨m, rfl, hround⟩⟩⟩, rfl⟩
    · exact ⟨found, .error f, (hloops _ _).2 ⟨u, hrounds, .inr ⟨hopen, .inr ⟨f, rfl, hround⟩⟩⟩, rfl⟩

section

variable {g : Grammar} {body : Rule} {path : Path} {min : Int} {max : Option Int} {c : Cursor}
  {arg : Value} {s t : State}

/-- A repetition succeeds with the values of its rounds, if they are as many as it must have. -/
theorem evaluates_repetition_success_iff
    (hbody : ∀ fuel, Gives (Outcome.HasArity 1) (eval g path fuel body c arg))
    (hmax : ∀ most, max = some most → 0 ≤ most) {vs : List Value} :
    g.Evaluates path (.repetition body min max) c arg s (.ok (.success vs)) t ↔
      ∃ found u, vs = [.list found] ∧
        Rounds (fun s v t => g.Evaluates path body c arg s (.ok (.success [v])) t) s found u ∧
        min ≤ found.length ∧
        ((max = some (found.length : Int) ∧ t = u) ∨
          (∀ most, max = some most → (found.length : Int) < most) ∧
            ∃ m, g.Evaluates path body c arg u (.ok (.mismatch m)) t) := by
  rw [evaluates_repetition_iff_rounds hbody hmax]
  constructor
  · rintro ⟨found, u, hrounds, ⟨hfull, hr, rfl⟩ | ⟨hopen, ⟨m, hr, hround⟩ | ⟨f, hr, -⟩⟩⟩
    · obtain ⟨hle, rfl⟩ := repeated_eq_success_iff.1 (Except.ok.inj hr).symm
      exact ⟨found, _, by rw [List.reverse_reverse], hrounds, hle, .inl ⟨hfull, rfl⟩⟩
    · obtain ⟨hle, rfl⟩ := repeated_eq_success_iff.1 (Except.ok.inj hr).symm
      exact ⟨found, u, by rw [List.reverse_reverse], hrounds, hle, .inr ⟨hopen, m, hround⟩⟩
    · cases hr
  · rintro ⟨found, u, rfl, hrounds, hle, hend⟩
    have hrepeated : ∀ last,
        Outcome.success [.list found] = repeated min found.length last found.reverse := fun last =>
      (repeated_eq_success_iff.2 ⟨hle, by rw [List.reverse_reverse]⟩).symm
    refine ⟨found, u, hrounds, ?_⟩
    rcases hend with ⟨hfull, rfl⟩ | ⟨hopen, m, hround⟩
    · exact .inl ⟨hfull, by rw [hrepeated none], rfl⟩
    · exact .inr ⟨hopen, .inl ⟨m, by rw [hrepeated (some m)], hround⟩⟩

/-- A repetition mismatches as its body does after fewer rounds than it must have. -/
theorem evaluates_repetition_mismatch_iff
    (hbody : ∀ fuel, Gives (Outcome.HasArity 1) (eval g path fuel body c arg))
    (hmin : 0 ≤ min) (hmax : ∀ most, max = some most → min ≤ most)
    {m : Mismatch} :
    g.Evaluates path (.repetition body min max) c arg s (.ok (.mismatch m)) t ↔
      ∃ found u,
        Rounds (fun s v t => g.Evaluates path body c arg s (.ok (.success [v])) t) s found u ∧
        (found.length : Int) < min ∧ g.Evaluates path body c arg u (.ok (.mismatch m)) t := by
  rw [evaluates_repetition_iff_rounds hbody fun most h => le_trans hmin (hmax most h)]
  constructor
  · rintro ⟨found, u, hrounds, ⟨hfull, hr, -⟩ | ⟨hopen, ⟨m', hr, hround⟩ | ⟨f, hr, -⟩⟩⟩
    · -- the upper bound is not below the lower one
      obtain ⟨hlt, -⟩ := repeated_eq_mismatch_iff.1 (Except.ok.inj hr).symm
      exact absurd (hmax _ hfull) (by omega)
    · obtain ⟨hlt, rfl⟩ := repeated_eq_mismatch_iff.1 (Except.ok.inj hr).symm
      exact ⟨found, u, hrounds, hlt, hround⟩
    · cases hr
  · rintro ⟨found, u, hrounds, hlt, hround⟩
    refine ⟨found, u, hrounds, .inr ⟨fun most h => lt_of_lt_of_le hlt (hmax most h), .inl ⟨m, ?_, hround⟩⟩⟩
    rw [repeated_eq_mismatch_iff.2 ⟨hlt, rfl⟩]
    rfl

/-- A repetition fails as its body does, as long as there is room for more. -/
theorem evaluates_repetition_error_iff
    (hbody : ∀ fuel, Gives (Outcome.HasArity 1) (eval g path fuel body c arg))
    (hmax : ∀ most, max = some most → 0 ≤ most) {f : Failure} :
    g.Evaluates path (.repetition body min max) c arg s (.error f) t ↔
      ∃ found u,
        Rounds (fun s v t => g.Evaluates path body c arg s (.ok (.success [v])) t) s found u ∧
        (∀ most, max = some most → (found.length : Int) < most) ∧
        g.Evaluates path body c arg u (.error f) t := by
  rw [evaluates_repetition_iff_rounds hbody hmax]
  constructor
  · rintro ⟨found, u, hrounds, ⟨-, hr, -⟩ | ⟨hopen, ⟨m, hr, -⟩ | ⟨f', hr, hround⟩⟩⟩
    · cases hr
    · cases hr
    · cases hr
      exact ⟨found, u, hrounds, hopen, hround⟩
  · rintro ⟨found, u, hrounds, hopen, hround⟩
    exact ⟨found, u, hrounds, .inr ⟨hopen, .inr ⟨f, rfl, hround⟩⟩⟩

end

/-- A repetition is the greedy iteration of its body, up to its upper bound. It succeeds with the
values of rounds that follow one another, if they are as many as it must have, where it has come to
its upper bound, without another evaluation of its body, or where the body mismatches. It mismatches
as its body does after fewer rounds, and fails as its body does. -/
theorem repetition_iff_rounds {g : Grammar} (hg : g.Accepted) {body rule : Rule}
    (hbody : body.Accepted g) {min : Int} {max : Option Int}
    (hmake : Rule.makeRepeat (.rule body) min max = .ok rule) (path : Path) (c : Cursor) (arg : Value)
    (s t : State) :
    (∀ vs, g.Evaluates path rule c arg s (.ok (.success vs)) t ↔
      ∃ found u, vs = [.list found] ∧
        Rounds (fun s v t => g.Evaluates path body c arg s (.ok (.success [v])) t) s found u ∧
        min ≤ found.length ∧
        ((max = some (found.length : Int) ∧ t = u) ∨
          (∀ most, max = some most → (found.length : Int) < most) ∧
            ∃ m, g.Evaluates path body c arg u (.ok (.mismatch m)) t)) ∧
    (∀ m, g.Evaluates path rule c arg s (.ok (.mismatch m)) t ↔
      ∃ found u,
        Rounds (fun s v t => g.Evaluates path body c arg s (.ok (.success [v])) t) s found u ∧
        (found.length : Int) < min ∧ g.Evaluates path body c arg u (.ok (.mismatch m)) t) ∧
    (∀ f, g.Evaluates path rule c arg s (.error f) t ↔
      ∃ found u,
        Rounds (fun s v t => g.Evaluates path body c arg s (.ok (.success [v])) t) s found u ∧
        (∀ most, max = some most → (found.length : Int) < most) ∧
        g.Evaluates path body c arg u (.error f) t) ∧
    (max = some 0 → g.Evaluates path rule c arg s (.ok (.success [.list []])) s) := by
  obtain ⟨rfl, harity, hmin, hmax⟩ := of_makeRepeat hmake
  have hroom : ∀ most, max = some most → 0 ≤ most := fun most h => le_trans hmin (hmax most h)
  have hgives := gives_single hg.wellFormed hbody.wellFormed harity path c arg
  refine ⟨fun vs => evaluates_repetition_success_iff hgives hroom,
    fun m => evaluates_repetition_mismatch_iff hgives hmin hmax,
    fun f => evaluates_repetition_error_iff hgives hroom, fun hzero => ?_⟩
  refine (evaluates_repetition_success_iff hgives hroom).2
    ⟨[], s, rfl, .nil s, ?_, .inl ⟨hzero, rfl⟩⟩
  simpa using hmax 0 hzero

/-- Two of three dots. -/
theorem repetition_iff_rounds_dots :
    dots.Accepted ∧ dot.Accepted dots ∧
    Rule.makeRepeat (.rule dot) 1 (some 2) = .ok (.repetition dot 1 (some 2)) ∧
    ∃ t, dots.Evaluates .blocking (.repetition dot 1 (some 2)) .root .none
        (.ofSource (.ofData (.str [46, 46, 46])))
        (.ok (.success [.list [.str [46], .str [46]]])) t ∧
      Rounds (fun s v t => dots.Evaluates .blocking dot .root .none s (.ok (.success [v])) t)
        (.ofSource (.ofData (.str [46, 46, 46]))) [.str [46], .str [46]] t := by
  have hdot : dot.Accepted dots := .item _
  have hmake : Rule.makeRepeat (.rule dot) 1 (some 2) = .ok (.repetition dot 1 (some 2)) := rfl
  have hrun : ((eval dots .blocking 4 (.repetition dot 1 (some 2)) .root .none).runFrom
      (.ofSource (.ofData (.str [46, 46, 46])))).1 =
        .ok (.success [.list [.str [46], .str [46]]]) := by cbv
  obtain ⟨t, ht⟩ : ∃ t, dots.Evaluates .blocking (.repetition dot 1 (some 2)) .root .none
      (.ofSource (.ofData (.str [46, 46, 46]))) (.ok (.success [.list [.str [46], .str [46]]])) t :=
    Grammar.Evaluates.exists_of_fst hrun
  obtain ⟨found, u, hfound, hrounds, -, hend⟩ :=
    ((repetition_iff_rounds accepted_dots hdot hmake .blocking .root .none _ t).1 _).1 ht
  cases hfound
  refine ⟨accepted_dots, hdot, hmake, t, ht, ?_⟩
  rcases hend with ⟨-, rfl⟩ | ⟨hopen, -⟩
  · exact hrounds
  · exact absurd (hopen 2 rfl) (by simp)

end Evaluation
end Backtrack
