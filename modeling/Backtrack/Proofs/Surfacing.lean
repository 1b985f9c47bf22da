/-
How the failure of a part surfaces. The parts of a visit are made at its cursor or in forks of it,
and a part that fails makes the visit fail. What becomes of the cursor depends on where the part was
made: at the cursor itself nothing more happens; a choice joins the fork of a hard failure, so that
the cursor comes to stand where the fork stood, or stays there if the fork had consumed nothing; a
pair of separator and element and a lookahead leave the cursor where the fork was made. From part to
part the failure of an expectation surfaces with the position that it tells.
-/
import Backtrack.Proofs.Extent
import Backtrack.Proofs.Raising
namespace Backtrack

open Source (Confined Forked Inside Motion)

namespace Rule

/-- Whether a rule makes parts in forks that a failure leaves behind. -/
def detaches : Rule → Bool
  | punctuated .. | peek _ => true
  | _ => false

end Rule

namespace Evaluation

open Visit

variable {α β : Type}

/-- How the failure of the visit `J`, made by what goes on at the cursor `c` from the source `s`,
surfaces in a run that ends with `ran`; forks may be left behind if `detaching`. -/
inductive Surfaces (run : Runner) (detaching : Prop) (c : Cursor) (s : Source) (J : Visit)
    (ran : Except Halt α × State) : Prop where
  | here (hcursor : J.cursor = c) (hconfined : Confined c s J.state.source)
    (hfails : ∀ f u, J.runBy run = (.error (.failed f), u) → ran = (.error (.failed f), u))
  | joining {t : Source} (hconfined : Confined c s t) (hcursor : J.cursor = .fork t.forks.size)
    (hforked : Forked Confined c t J.state.source)
    (hfails : ∀ f u, f.isHard = true → J.runBy run = (.error (.failed f), u) →
      ∃ g w, ran = (.error (.failed g), w) ∧ (g = f ∨ c = .root) ∧
        w.source.positionOf c = u.source.positionOf J.cursor)
  | leaving (hdetaching : detaching) {t : Source} (hconfined : Confined c s t)
    (hcursor : J.cursor = .fork t.forks.size) (hforked : Forked Confined c t J.state.source)
    (hfails : ∀ f u, J.runBy run = (.error (.failed f), u) →
      ∃ w, ran = (.error (.failed f), w) ∧
        w.source.positionOf c ≤ u.source.positionOf J.cursor)

namespace Surfaces

variable {run : Runner} {detaching : Prop} {c : Cursor} {s : Source} {J : Visit} {t : State}

/-- A visit at the cursor itself. -/
theorem visit (hcursor : J.cursor = c) (h : Confined c s J.state.source) :
    Surfaces run detaching c s J (J.runBy run) := .here hcursor h fun _ _ h => h

/-- What surfaces in the beginning of a computation surfaces in all of it. -/
theorem bind {x : Evaluation α} (f : α → Evaluation β)
    (h : Surfaces run detaching c s J (x.runFrom t)) :
    Surfaces run detaching c s J ((x >>= f).runFrom t) := by
  cases h with
  | here hcursor hconfined hfails =>
    exact .here hcursor hconfined fun e u hJ => runFrom_bind_of_error (hfails e u hJ)
  | joining hconfined hcursor hforked hfails =>
    refine .joining hconfined hcursor hforked fun e u hhard hJ => ?_
    obtain ⟨g, w, hran, hg, hw⟩ := hfails e u hhard hJ
    exact ⟨g, w, runFrom_bind_of_error hran, hg, hw⟩
  | leaving hdetaching hconfined hcursor hforked hfails =>
    refine .leaving hdetaching hconfined hcursor hforked fun e u hJ => ?_
    obtain ⟨w, hran, hw⟩ := hfails e u hJ
    exact ⟨w, runFrom_bind_of_error hran, hw⟩

/-- What surfaces after the beginning of a computation surfaces in all of it. -/
theorem bind_ok {x : Evaluation α} {f : α → Evaluation β} {u : State} {a : α}
    (hx : x.runFrom t = (.ok a, u)) (h : Surfaces run detaching c s J ((f a).runFrom u)) :
    Surfaces run detaching c s J ((x >>= f).runFrom t) := by
  rwa [runFrom_bind_of_ok hx]

/-- A visit begins within the input if the cursor that led to it was there. -/
theorem begins {ran : Except Halt α × State} (h : Surfaces run detaching c s J ran) :
    J.state.source.extent = s.extent ∧
      (s.positionOf c ≤ s.extent → J.state.source.positionOf J.cursor ≤ s.extent) := by
  have hfork : ∀ {t : Source}, Confined c s t → J.cursor = .fork t.forks.size →
      Forked Confined c t J.state.source → J.state.source.extent = s.extent ∧
        (s.positionOf c ≤ s.extent → J.state.source.positionOf J.cursor ≤ s.extent) := by
    intro t hconfined hcursor hforked
    refine ⟨hforked.moved.extent.trans hconfined.extent, fun hs => ?_⟩
    rw [hcursor, ← hconfined.extent]
    exact hforked.positionOf_le_extent (hconfined.extent ▸ hconfined.confined hs)
  cases h with
  | here hcursor hconfined _ => exact ⟨hconfined.extent, fun hs => hcursor ▸ hconfined.confined hs⟩
  | joining hconfined hcursor hforked _ => exact hfork hconfined hcursor hforked
  | leaving _ hconfined hcursor hforked _ => exact hfork hconfined hcursor hforked

/-! ### Parts at the cursor itself -/

variable {K : Visit} (hkeeps : ∀ r c v, Keeps Confined c (run r c v))

include hkeeps in
/-- After a visit at the cursor has given something, the cursor is confined. -/
theorem confined_of_runBy {o : Outcome} {u : State} (hcursor : J.cursor = c)
    (h : Confined c s J.state.source) (hrun : J.runBy run = (.ok o, u)) : Confined c s u.source := by
  have hJ := hkeeps J.rule J.cursor J.arg J.state
  rw [hcursor] at hJ
  have hu : ((run J.rule c J.arg).runFrom J.state).2 = u := by
    rw [← hcursor]
    exact congrArg Prod.snd hrun
  rw [hu] at hJ
  exact h.trans hJ

include hkeeps in
protected theorem sequence : ∀ {rules : List Rule} (values : List Value) {t : State},
    Confined K.cursor s t.source → J ∈ K.ofSequence run rules t →
    Surfaces run detaching K.cursor s J
      ((sequence (fun r => run r K.cursor K.arg) values rules).runFrom t)
  | [], _, _, _, h => by cases h
  | r :: rs, values, t, ht, h => by
    rcases List.mem_cons.1 h with rfl | h
    · exact (visit (J := K.part r K.cursor K.arg t) rfl ht).bind _
    · obtain ⟨vs, u, hrun, h⟩ := of_mem_onSuccess h
      have hu := confined_of_runBy hkeeps (J := K.part r K.cursor K.arg t) rfl ht hrun
      exact .bind_ok hrun (Surfaces.sequence (values ++ vs) hu h)

theorem of_firstValue {vs : List Value} {v : Value} {u : State}
    (h : (firstValue vs).runFrom t = (.ok v, u)) : u = t := by
  cases vs with
  | nil => cases h
  | cons w vs =>
    cases h
    rfl

include hkeeps in
protected theorem repetition {r : Rule} {min : Int} {max : Option Int} :
    ∀ {fuel : Nat} {count : Int} (reversed : List Value) {t : State},
    Confined K.cursor s t.source → J ∈ K.ofRepetition run r max fuel count t →
    Surfaces run detaching K.cursor s J
      ((repetition (run r K.cursor K.arg) min max fuel count reversed).runFrom t)
  | 0, _, _, _, _, h => by cases h
  | fuel + 1, count, reversed, t, ht, h => by
    rw [ofRepetition] at h
    rw [repetition]
    split at h
    · cases h
    · rename_i hfull
      rw [if_neg hfull]
      rcases List.mem_cons.1 h with rfl | h
      · exact (visit (J := K.part r K.cursor K.arg t) rfl ht).bind _
      · obtain ⟨vs, u, hrun, h⟩ := of_mem_onSuccess h
        obtain ⟨v, w, hv, h⟩ := of_mem_after h
        cases of_firstValue hv
        have hu := confined_of_runBy hkeeps (J := K.part r K.cursor K.arg t) rfl ht hrun
        exact .bind_ok hrun (.bind_ok hv (Surfaces.repetition (v :: reversed) hu h))

include hkeeps in
protected theorem andWithArg {first second : Rule} (ht : Confined K.cursor s K.state.source)
    (h : J ∈ K.ofAndWithArg run first second) :
    Surfaces run detaching K.cursor s J
      ((andWithArg (run first K.cursor K.arg) fun v => run second K.cursor v).runFrom K.state) := by
  rcases List.mem_cons.1 h with rfl | h
  · exact (visit (J := K.part first K.cursor K.arg K.state) rfl ht).bind _
  · obtain ⟨vs, u, hrun, h⟩ := of_mem_onSuccess h
    obtain ⟨v, w, hv, h⟩ := of_mem_after h
    cases of_firstValue hv
    have hu := confined_of_runBy hkeeps (J := K.part first K.cursor K.arg K.state) rfl ht hrun
    cases List.mem_singleton.1 h
    exact .bind_ok hrun (.bind_ok hv ((visit (J := K.part second K.cursor v u) rfl hu).bind _))

/-! ### Parts in forks -/

/-- The cursor of a fork that was just made. -/
theorem of_fork_eq_ok {d : Cursor} {u : State}
    (h : (onSource (Source.fork c)).runFrom t = (.ok d, u)) :
    d = .fork t.source.forks.size ∧ Forked Confined c t.source u.source := by
  obtain ⟨hd, hinside⟩ := Inside.of_onSource_fork_eq_ok h
  refine ⟨hd, hinside.isOpen, ?_⟩
  rw [runFrom_onSource, Source.runOn_fork hinside.isOpen] at h
  cases h
  exact Motion.withEvents (.refl _ _) []

include hkeeps in
theorem forked_of_runBy {t : Source} {o : Except Halt Outcome} {u : State}
    (hcursor : J.cursor = .fork t.forks.size) (h : Forked Confined c t J.state.source)
    (hrun : J.runBy run = (o, u)) : Forked Confined c t u.source := by
  have hu := Keeps.forked h (hcursor ▸ hkeeps J.rule J.cursor J.arg)
  rw [← hcursor] at hu
  rwa [show (run J.rule J.cursor J.arg).runFrom J.state = (o, u) from hrun] at hu

/-- A hard failure in an alternative takes the cursor along. -/
theorem of_joining (hkeeps : ∀ r c v, Keeps Confined c (run r c v)) {r : Rule} {t : Source}
    (hconfined : Confined c s t)
    (hcursor : J.cursor = .fork t.forks.size) (hforked : Forked Confined c t J.state.source) :
    Surfaces run detaching c s J (afterFailure (fun f => do
      if f.isHard then
        onSource (Source.join (.fork t.forks.size))
        note (.alternativeFailed r f)) (J.runBy run)) := by
  refine .joining hconfined hcursor hforked fun f u hhard hrun => ?_
  have hu := forked_of_runBy hkeeps hcursor hforked hrun
  have hposition := hu.positionOf_join
  simp only [hrun, afterFailure, hhard, if_true, runFrom_bind, runFrom_onSource]
  rw [hcursor, ← hposition]
  -- a join that is refused replaces the failure, but then the fork has not moved
  cases hjoin : ((Source.join (.fork t.forks.size)).runOn u.source).1 with
  | ok a => exact ⟨f, _, rfl, .inl rfl, rfl⟩
  | error g => exact ⟨g, _, rfl, .inr (hu.toInside.of_join_eq_error hjoin).1, rfl⟩

include hkeeps in
protected theorem choice : ∀ {rules : List Rule} {t : State}, Confined K.cursor s t.source →
    J ∈ K.ofChoice run rules t →
    Surfaces run detaching K.cursor s J
      ((choice (fun fork r => run r fork K.arg) K.cursor rules).runFrom t)
  | [], _, _, h => by cases h
  | r :: rs, t, ht, h => by
    obtain ⟨d, u, hfork, h⟩ := of_mem_after h
    obtain ⟨rfl, hu⟩ := of_fork_eq_ok hfork
    refine .bind_ok hfork ?_
    rcases List.mem_cons.1 h with rfl | h
    · exact (of_joining (J := K.part r (.fork t.source.forks.size) K.arg u) (r := r) hkeeps ht rfl
        hu).bind _
    · -- a later alternative is tried where the cursor stood
      obtain ⟨m, v, hrun, h⟩ := of_mem_onMismatch h
      obtain ⟨_, w, hclose, h⟩ := of_mem_after h
      have hv := forked_of_runBy hkeeps (J := K.part r (.fork t.source.forks.size) K.arg u) rfl hu hrun
      obtain ⟨w', hclose', hw⟩ := Keeps.close hv
      rw [hclose'] at hclose
      cases hclose
      refine .bind_ok (a := .mismatch m) (u := v) ?_ (.bind_ok hclose' (Surfaces.choice (ht.trans hw) h))
      rw [runFrom_onFailure]
      show afterFailure _ ((K.part r (.fork t.source.forks.size) K.arg u).runBy run) = _
      rw [hrun]
      rfl

/-- A failure in a fork that is left behind leaves the cursor where it stood. -/
theorem of_leaving (hkeeps : ∀ r c v, Keeps Confined c (run r c v)) (hdetaching : detaching)
    {t : Source} (hconfined : Confined c s t) (hcursor : J.cursor = .fork t.forks.size)
    (hforked : Forked Confined c t J.state.source) :
    Surfaces run detaching c s J (J.runBy run) := by
  refine .leaving hdetaching hconfined hcursor hforked fun f u hrun => ⟨u, hrun, ?_⟩
  have hu := (forked_of_runBy hkeeps hcursor hforked hrun).toInside
  rw [hcursor, hu.positionOf_parent]
  exact hu.position_le

include hkeeps in
protected theorem separated {element separator : Rule} (hdetaching : detaching)
    (ht : Confined K.cursor s t.source) (h : J ∈ K.ofSeparated run element separator t) :
    Surfaces run detaching K.cursor s J ((K.pairBy run element separator).runFrom t) := by
  obtain ⟨d, u, hfork, h⟩ := of_mem_after h
  obtain ⟨rfl, hu⟩ := of_fork_eq_ok hfork
  refine .bind_ok hfork ?_
  rcases List.mem_cons.1 h with rfl | h
  · exact (of_leaving hkeeps (J := K.part separator (.fork t.source.forks.size) K.arg u) hdetaching ht
      rfl hu).bind _
  · obtain ⟨vs, v, hrun, h⟩ := of_mem_onSuccess h
    have hv := forked_of_runBy hkeeps (J := K.part separator (.fork t.source.forks.size) K.arg u) rfl
      hu hrun
    cases List.mem_singleton.1 h
    exact .bind_ok hrun ((of_leaving hkeeps (J := K.part element (.fork t.source.forks.size) K.arg v)
      hdetaching ht rfl hv).bind _)

include hkeeps in
theorem pairs {element separator : Rule} (hdetaching : detaching) {min : Int} {max : Option Int} :
    ∀ {fuel : Nat} {count : Int} (elements separators : List Value) {t : State},
    Confined K.cursor s t.source → J ∈ K.ofPairs run element separator max fuel count t →
    Surfaces run detaching K.cursor s J
      ((punctuatedRest (K.pairBy run element separator) min max fuel count elements
        separators).runFrom t)
  | 0, _, _, _, _, _, h => by cases h
  | fuel + 1, count, elements, separators, t, ht, h => by
    rw [ofPairs] at h
    rw [punctuatedRest]
    split at h
    · cases h
    · rename_i hfull
      rw [if_neg hfull]
      rcases List.mem_append.1 h with h | h
      · exact (Surfaces.separated hkeeps hdetaching ht h).bind _
      · obtain ⟨found, u, hrun, h⟩ := of_mem_after h
        have hu := Keeps.separated (c := K.cursor) (fun c => hkeeps element c K.arg)
          (fun c => hkeeps separator c K.arg) t
        rw [show (separated _ _ K.cursor).runFrom t = (.ok found, u) from hrun] at hu
        cases found with
        | error m => cases h
        | ok pair => exact .bind_ok hrun (pairs hdetaching (pair.2 :: elements) (pair.1 :: separators)
            (ht.trans hu) h)

include hkeeps in
protected theorem punctuated {element separator : Rule} (hdetaching : detaching) {min : Int}
    {max : Option Int} (ht : Confined K.cursor s K.state.source)
    (h : J ∈ K.ofPunctuated run element separator max) :
    Surfaces run detaching K.cursor s J
      ((punctuated (fun c => run element c K.arg) (fun c => run separator c K.arg) K.cursor min max
        (K.fuel - 1)).runFrom K.state) := by
  rcases List.mem_cons.1 h with rfl | h
  · exact (visit (J := K.part element K.cursor K.arg K.state) rfl ht).bind _
  · obtain ⟨vs, u, hrun, h⟩ := of_mem_onSuccess h
    obtain ⟨v, w, hv, h⟩ := of_mem_after h
    cases of_firstValue hv
    have hu := confined_of_runBy hkeeps (J := K.part element K.cursor K.arg K.state) rfl ht hrun
    exact .bind_ok hrun (.bind_ok hv (pairs hkeeps hdetaching [v] [] hu h))

include hkeeps in
protected theorem peek {r : Rule} (hdetaching : detaching) (ht : Confined K.cursor s K.state.source)
    (h : J ∈ K.ofPeek r) :
    Surfaces run detaching K.cursor s J
      ((peek (fun c => run r c K.arg) K.cursor).runFrom K.state) := by
  obtain ⟨d, u, hfork, h⟩ := of_mem_after h
  obtain ⟨rfl, hu⟩ := of_fork_eq_ok hfork
  cases List.mem_singleton.1 h
  refine .bind_ok hfork (.bind _ ?_)
  refine .leaving hdetaching ht rfl hu fun f v hrun => ?_
  have hv := forked_of_runBy hkeeps (J := K.part r (.fork K.state.source.forks.size) K.arg u) rfl hu
    hrun
  rw [runFrom_onFailure]
  show ∃ w, afterFailure _ ((K.part r (.fork K.state.source.forks.size) K.arg u).runBy run) = _ ∧ _
  rw [hrun]
  exact ⟨_, rfl, hv.toInside.positionOf_close.trans_le hv.toInside.position_le⟩

end Surfaces

/-! ## The parts of a visit -/

namespace Visit

variable {g : Grammar} {path : Path} {K J K' : Visit}

/-- Any part of a visit surfaces in it, and forks are left behind only by rules that do so. -/
theorem surfaces_of_mem_parts (h : J ∈ K.parts g path) :
    Surfaces (eval g path J.fuel) (K.rule.detaches = true) K.cursor K.state.source J
      (K.run g path) := by
  have hfuel := (of_mem_parts h).1
  have hkeeps : ∀ r c v, Keeps Confined c (eval g path J.fuel r c v) :=
    fun r c v => eval_keeps Confined g path J.fuel r c v
  have hrefl : Confined K.cursor K.state.source K.state.source := .refl _ _
  rw [run_of_fuel hfuel]
  rw [parts.eq_def, hfuel] at h
  generalize J.fuel = n at hfuel hkeeps h ⊢
  obtain ⟨fuel, rule, c, arg, s⟩ := K
  cases hfuel
  dsimp only at h hrefl ⊢
  cases rule with
  | item m => cases h
  | literal content => cases h
  | start => cases h
  | finish => cases h
  | noOp => cases h
  | never m => cases h
  | abstract => cases h
  | reference target m =>
    obtain ⟨r, hr, rfl⟩ := List.mem_map.1 h
    rw [Option.mem_toList] at hr
    simp only [layer, hr]
    exact .visit (J := ⟨n, r, c, arg, s⟩) rfl hrefl
  | and rules => exact .sequence (K := ⟨n + 1, .and rules, c, arg, s⟩) hkeeps [] hrefl h
  | or rules => exact .choice (K := ⟨n + 1, .or rules, c, arg, s⟩) hkeeps hrefl h
  | repetition r min max =>
    exact .repetition (K := ⟨n + 1, .repetition r min max, c, arg, s⟩) hkeeps [] hrefl h
  | punctuated element separator min max =>
    exact .punctuated (K := ⟨n + 1, .punctuated element separator min max, c, arg, s⟩) hkeeps rfl
      hrefl h
  | andWithArg first second =>
    exact .andWithArg (K := ⟨n + 1, .andWithArg first second, c, arg, s⟩) hkeeps hrefl h
  | peek r => exact .peek (K := ⟨n + 1, .peek r, c, arg, s⟩) hkeeps rfl hrefl h
  | optional r =>
    cases List.mem_singleton.1 h
    exact (Surfaces.visit (J := ⟨n, r, c, arg, s⟩) rfl hrefl).bind _
  | map conversion r fn withArg =>
    cases List.mem_singleton.1 h
    exact (Surfaces.visit (J := ⟨n, r, c, arg, s⟩) rfl hrefl).bind _
  | mapRange r fn =>
    cases List.mem_singleton.1 h
    exact .bind_ok rfl ((Surfaces.visit (J := ⟨n, r, c, arg, s⟩) rfl hrefl).bind _)
  | discard r =>
    cases List.mem_singleton.1 h
    simp only [layer, map_eq_pure_bind]
    exact (Surfaces.visit (J := ⟨n, r, c, arg, s⟩) rfl hrefl).bind _
  | expected r what =>
    cases List.mem_singleton.1 h
    exact (Surfaces.visit (J := ⟨n, r, c, arg, s⟩) rfl hrefl).bind _
  | name r label =>
    cases List.mem_singleton.1 h
    simp only [layer, map_eq_pure_bind]
    exact (Surfaces.visit (J := ⟨n, r, c, arg, s⟩) rfl hrefl).bind _
  | wrapper r =>
    cases List.mem_singleton.1 h
    exact .visit (J := ⟨n, r, c, arg, s⟩) rfl hrefl

/-! ### Positions -/

/-- A visit begins within the input if what came to it did, and the input ends where it ended. -/
theorem ComesTo.extent (h : K.ComesTo g path K') :
    K'.state.source.extent = K.state.source.extent ∧
      (K.state.source.positionOf K.cursor ≤ K.state.source.extent →
        K'.state.source.positionOf K'.cursor ≤ K.state.source.extent) := by
  induction h with
  | refl => exact ⟨rfl, id⟩
  | tail _ hmem ih =>
    obtain ⟨hextent, hwithin⟩ := ih
    obtain ⟨hextent', hwithin'⟩ := (surfaces_of_mem_parts hmem).begins
    exact ⟨hextent'.trans hextent, fun hK => hextent ▸ hwithin' (hextent ▸ hwithin hK)⟩

/-- Where a part fails, the visit fails and its cursor stands no further than the part's, and just
there if no fork is left behind. The failure is the same, unless a hard one cannot be handed over to
the root. -/
theorem run_of_failing_part (h : J ∈ K.parts g path) {f : Failure} {u : State}
    (hJ : J.run g path = (.error (.failed f), u)) (hf : f.isHard = true ∨ J.cursor = .root) :
    ∃ f' w, K.run g path = (.error (.failed f'), w) ∧ (f'.isHard = true ∨ K.cursor = .root) ∧
      w.source.positionOf K.cursor ≤ u.source.positionOf J.cursor ∧
      (K.rule.detaches = false → w.source.positionOf K.cursor = u.source.positionOf J.cursor) := by
  have hhard : ∀ {id : Nat}, J.cursor = .fork id → f.isHard = true := by
    intro id hcursor
    rcases hf with hf | hf
    · exact hf
    · rw [hcursor] at hf
      cases hf
  cases surfaces_of_mem_parts h with
  | here hcursor _ hfails =>
    exact ⟨f, u, hfails f u hJ, hcursor ▸ hf, by rw [hcursor], fun _ => by rw [hcursor]⟩
  | joining _ hcursor _ hfails =>
    have hhard := hhard hcursor
    obtain ⟨f', w, hrun, hf', hw⟩ := hfails f u hhard hJ
    refine ⟨f', w, hrun, ?_, hw.le, fun _ => hw⟩
    rcases hf' with rfl | hroot
    · exact .inl hhard
    · exact .inr hroot
  | leaving hdetaching _ hcursor _ hfails =>
    obtain ⟨w, hrun, hw⟩ := hfails f u hJ
    exact ⟨f, w, hrun, .inl (hhard hcursor), hw, fun h => by rw [hdetaching] at h; cases h⟩

/-- Where a visit fails, the cursor of whatever came to it stands no further than the visit's, and
just there if no rule leaves forks behind. -/
theorem run_of_comesTo_failing (h : K.ComesTo g path K') {f : Failure} {t : State}
    (hrun : K'.run g path = (.error (.failed f), t)) (hf : f.isHard = true) :
    ∃ f' u, K.run g path = (.error (.failed f'), u) ∧ (f'.isHard = true ∨ K.cursor = .root) ∧
      u.source.positionOf K.cursor ≤ t.source.positionOf K'.cursor ∧
      ((∀ r, g.Reaches K.rule r → r.detaches = false) →
        u.source.positionOf K.cursor = t.source.positionOf K'.cursor) := by
  induction h using Relation.ReflTransGen.head_induction_on with
  | refl => exact ⟨f, t, hrun, .inl hf, le_refl _, fun _ => rfl⟩
  | head hmem _ ih =>
    obtain ⟨f', u, hpart, hf', hle, heq⟩ := ih
    obtain ⟨f'', w, hwhole, hf'', hle', heq'⟩ := run_of_failing_part hmem hpart hf'
    refine ⟨f'', w, hwhole, hf'', le_trans hle' hle, fun hg => ?_⟩
    rw [heq' (hg _ .refl), heq fun r hr => hg r (.head (of_mem_parts hmem).2 hr)]

end Visit

theorem isHard_incomplete (position : Int) (what : Value) (m : Mismatch) :
    (incomplete position what m).isHard = true := by cases m <;> rfl

/-- Positions are truthful. Over an input that ends at the source's extent, a cursor within the input
does not go back and does not leave the input, whatever the rule, the argument and the result. The
position that a failed expectation tells lies within the input, and no further back than the cursor
is left; without lists with separators and lookaheads the cursor is left just there. -/
theorem positions_truthful (g : Grammar) (path : Path) (K : Visit)
    (hK : K.state.source.positionOf K.cursor ≤ K.state.source.extent) :
    let u := ((evalOperand g path K.fuel (.rule K.rule) K.cursor K.arg).runFrom K.state).2.source
    u.extent = K.state.source.extent ∧
    K.state.source.positionOf K.cursor ≤ u.positionOf K.cursor ∧
    u.positionOf K.cursor ≤ K.state.source.extent ∧
    ∀ (K' : Visit) (e f : Failure) (t : State), K.ComesTo g path K' →
      K'.Raises g path .expectation e f t →
      ∃ p what m, e = incomplete p what m ∧ u.positionOf K.cursor ≤ p ∧ p ≤ K.state.source.extent ∧
        ((∀ r, g.Reaches K.rule r → r.detaches = false) → u.positionOf K.cursor = p) := by
  have hconfined := eval_keeps Confined g path K.fuel K.rule K.cursor K.arg K.state
  rw [evalOperand_rule]
  refine ⟨hconfined.extent, hconfined.position_le, hconfined.confined hK, fun K' e f t hcomes hraises => ?_⟩
  cases hraises with
  | @expectation r what J m _ s hrule hpart hmismatch hraise =>
    obtain ⟨v, hrun, hv, -⟩ := Visit.run_of_expectation hrule hpart hmismatch
    -- what the expectation tells is where its own cursor is left
    have hp : v.source.positionOf K'.cursor = t.source.positionOf K'.cursor := by rw [hv]
    obtain ⟨f', w, hwhole, -, hle, heq⟩ :=
      Visit.run_of_comesTo_failing hcomes hrun (isHard_incomplete _ what m)
    rw [hp] at hle heq
    have hw : ((eval g path K.fuel K.rule K.cursor K.arg).runFrom K.state).2 = w :=
      congrArg Prod.snd hwhole
    rw [hw]
    refine ⟨_, what, m, hraise, hle, ?_, heq⟩
    obtain ⟨hextent, hbegins⟩ := hcomes.extent
    have hends := eval_keeps Confined g path K'.fuel K'.rule K'.cursor K'.arg K'.state
    rw [show ((eval g path K'.fuel K'.rule K'.cursor K'.arg).runFrom K'.state).2 = v from
      congrArg Prod.snd hrun] at hends
    rw [← hp, ← hextent]
    exact hends.confined (hextent ▸ hbegins hK)

/-! ### An expectation in a choice within a choice -/

/-- A two, and then a one that must be there. -/
def twoThenOne : Rule := .and [.item (.one (.int 2)), expectedOne]

/-- A choice in a choice that goes on with an expectation, over a list where it fails. -/
def choiceInChoice : Visit :=
  ⟨5, .or [.or [twoThenOne]], .root, .none, .ofSource (.ofData (.list [.int 2, .int 3]))⟩

/-- A state with one more fork of a cursor. -/
def State.forkOf (s : State) (c : Cursor) : State := { s with source := s.source.addFork c }

/-- The state in which the fork of a fork has gone past the two. -/
def forkedTwice : State :=
  ⟨⟨.memory (.items .list #[.int 2, .int 3]) 0, 0, #[⟨none, 0, false⟩, ⟨some 0, 1, false⟩], []⟩, .empty⟩

theorem detaches_of_reaches_choiceInChoice {r : Rule}
    (h : Grammar.empty.Reaches choiceInChoice.rule r) : r.detaches = false := by
  have hclosed : r = .or [.or [twoThenOne]] ∨ r = .or [twoThenOne] ∨ r = twoThenOne ∨
      r = .item (.one (.int 2)) ∨ r = expectedOne ∨ r = .item (.one (.int 1)) := by
    induction h with
    | refl => exact .inl rfl
    | tail _ hmem ih =>
      rcases ih with rfl | rfl | rfl | rfl | rfl | rfl
      · exact .inr (.inl (List.mem_singleton.1 hmem))
      · exact .inr (.inr (.inl (List.mem_singleton.1 hmem)))
      · rcases List.mem_cons.1 hmem with rfl | hmem
        · exact .inr (.inr (.inr (.inl rfl)))
        · exact .inr (.inr (.inr (.inr (.inl (List.mem_singleton.1 hmem)))))
      · cases hmem
      · exact .inr (.inr (.inr (.inr (.inr (List.mem_singleton.1 hmem)))))
      · cases hmem
  rcases hclosed with rfl | rfl | rfl | rfl | rfl | rfl <;> rfl

theorem positions_truthful_choiceInChoice :
    choiceInChoice.state.source.positionOf .root ≤ choiceInChoice.state.source.extent ∧
    choiceInChoice.ComesTo .empty .blocking ⟨2, expectedOne, .fork 1, .none, forkedTwice⟩ ∧
    Visit.Raises .empty .blocking ⟨2, expectedOne, .fork 1, .none, forkedTwice⟩ .expectation
      (.incomplete (.int 1) (.str [120])) (.incomplete (.int 1) (.str [120])) forkedTwice ∧
    ((evalOperand .empty .blocking 5 (.rule choiceInChoice.rule) .root .none).runFrom
      choiceInChoice.state).2.source.positionOf .root = 1 := by
  have hwithin : choiceInChoice.state.source.positionOf .root ≤
      choiceInChoice.state.source.extent := by decide
  have hcomes : choiceInChoice.ComesTo .empty .blocking
      ⟨2, expectedOne, .fork 1, .none, forkedTwice⟩ := by
    -- the choice, the choice in its fork, and the sequence in a fork of that fork
    have houter : choiceInChoice.parts .empty .blocking =
        [⟨4, .or [twoThenOne], .fork 0, .none, (choiceInChoice.state.forkOf .root)⟩] := rfl
    have hinner : Visit.parts .empty .blocking
        ⟨4, .or [twoThenOne], .fork 0, .none, choiceInChoice.state.forkOf .root⟩ =
        [⟨3, twoThenOne, .fork 1, .none, (choiceInChoice.state.forkOf .root).forkOf (.fork 0)⟩] := rfl
    have hsequence : Visit.parts .empty .blocking
        ⟨3, twoThenOne, .fork 1, .none, (choiceInChoice.state.forkOf .root).forkOf (.fork 0)⟩ =
        [⟨2, .item (.one (.int 2)), .fork 1, .none,
            (choiceInChoice.state.forkOf .root).forkOf (.fork 0)⟩,
          ⟨2, expectedOne, .fork 1, .none, forkedTwice⟩] := rfl
    exact .tail (.tail (.single (by rw [houter]; exact List.mem_singleton_self _))
      (by rw [hinner]; exact List.mem_singleton_self _)) (by rw [hsequence]; simp)
  have hraises : Visit.Raises .empty .blocking ⟨2, expectedOne, .fork 1, .none, forkedTwice⟩
      .expectation (.incomplete (.int 1) (.str [120])) (.incomplete (.int 1) (.str [120]))
      forkedTwice :=
    .expectation (J := ⟨1, .item (.one (.int 1)), .fork 1, .none, forkedTwice⟩) (m := .plain) rfl
      (List.mem_singleton_self _) rfl rfl
  obtain ⟨-, -, -, htold⟩ := positions_truthful .empty .blocking choiceInChoice hwithin
  obtain ⟨p, what, m, hp, -, -, hleft⟩ := htold _ _ _ _ hcomes hraises
  refine ⟨hwithin, hcomes, hraises, ?_⟩
  rw [show (1 : Int) = p from ?_]
  · exact hleft fun r => detaches_of_reaches_choiceInChoice
  · cases m <;> cases hp
    rfl

end Evaluation
end Backtrack
