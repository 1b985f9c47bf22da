/-
Spans. A rule that tells from where to where it has come tells positions, which are counted from the
start of the input, whatever the cursor: so the spans of a repetition follow one another, from where its
cursor stood at first to where the last of its rounds has left it. What is ahead of a cursor are always
the items of the input behind its position, and each round takes the items off that its span covers.
-/
import Backtrack.Proofs.Beside
import Backtrack.Proofs.Iteration
namespace Backtrack

open Backtrack.Stream (supplied)
open Source (Confined)

/-! ## What is ahead -/

/-- The items ahead of the root: those that wait, and those that are still to come. -/
def Buffer.ahead : Buffer → List Value
  | memory data start => data.toList.drop start.toNat
  | stream s => s.waiting ++ if s.ended then [] else supplied s.chunked s.feed
  | irregular data start => ((Sequence.ofValue? data).elim [] Sequence.toList).drop start.toNat

/-- The items between two positions. -/
def cut (X : List Value) (first last : Int) : List Value :=
  (X.drop first.toNat).take (last - first).toNat

/-- What is behind a position is the part up to a later one, and what is behind that. -/
theorem drop_eq_cut_append (X : List Value) {first last : Int} (hfirst : 0 ≤ first) (hle : first ≤ last) :
    X.drop first.toNat = cut X first last ++ X.drop last.toNat := by
  have hlast : last.toNat = first.toNat + (last - first).toNat := by omega
  rw [cut, hlast, ← List.drop_drop, List.take_append_drop]

namespace Source

variable {X : List Value} {made s u : Source} {c : Cursor}

/-- The items ahead of a cursor. -/
def aheadOf (s : Source) (c : Cursor) : List Value := s.buffer.ahead.drop (s.offset c).toNat

/-- Buffers without a feed over the items `X`: what is consumed only changes the place of the root. -/
structure Unfed (X : List Value) (place : Int → Buffer) : Prop where
  taken_eq : ∀ start, (place start).taken = place start
  consume_eq : ∀ start n, ((place start).consume n).1 = place (start + n)
  ahead_eq : ∀ start, (place start).ahead = X.drop start.toNat

/-- What a source is made over has no feed, if it is a value. -/
theorem exists_unfed (v : Value) : ∃ X place, Unfed X place ∧ Buffer.ofValue v = place 0 := by
  have hirregular : Unfed ((Sequence.ofValue? v).elim [] Sequence.toList) (.irregular v) :=
    ⟨fun _ => rfl, fun _ _ => rfl, fun _ => rfl⟩
  rw [Buffer.ofValue]
  split
  · rename_i data _
    split
    · exact ⟨data.toList, .memory data, ⟨fun _ => rfl, fun _ _ => rfl, fun _ => rfl⟩, rfl⟩
    · exact ⟨_, _, hirregular, rfl⟩
  · exact ⟨_, _, hirregular, rfl⟩

/-- The root has passed the first of the items `X`, as many as its position says. -/
inductive Lies (X : List Value) (s : Source) : Prop
  | unfed (place : Int → Buffer) (hplace : Unfed X place) (hbuffer : s.buffer = place s.position)
    (hnonneg : 0 ≤ s.position)
  | fed (script : List Element) (chunked : Bool) (path : Path) (hfed : s.Fed script chunked path)
    (hitems : supplied chunked script = X)

theorem New.lies (h : made.New) : made.Lies made.buffer.ahead := by
  cases h with
  | ofData v =>
    obtain ⟨X, place, hplace, hbuffer⟩ := exists_unfed v
    have hahead : (Source.ofData v).buffer.ahead = X :=
      (congrArg Buffer.ahead hbuffer).trans (hplace.ahead_eq 0)
    rw [hahead]
    exact .unfed place hplace hbuffer (le_refl _)
  | ofFeed feed chunked path =>
    exact .fed feed chunked path ⟨_, 0, rfl, rfl, .ofFeed feed chunked path⟩ rfl

theorem Lies.effect (h : s.Lies X) (heffect : Effect s u) : u.Lies X := by
  cases h with
  | unfed place hplace hbuffer hnonneg =>
    cases heffect with
    | filled hreaches hposition =>
      -- there is no element to take, so a fill leaves the buffer as it is
      obtain ⟨n, hn⟩ := hreaches
      rw [hbuffer, Function.iterate_fixed (hplace.taken_eq _)] at hn
      exact .unfed place hplace (by rw [← hn, hposition]) (hposition ▸ hnonneg)
    | consumed n hle hbuffer' hposition =>
      rw [hbuffer, hplace.consume_eq] at hbuffer'
      exact .unfed place hplace (by rw [hbuffer', hposition]) (by omega)
  | fed script chunked path hfed hitems => exact .fed script chunked path (heffect.fed hfed) hitems

theorem Lies.of_matches (h : s.Lies X) (hu : s.Matches u) : u.Lies X := by
  obtain ⟨events, rfl⟩ := hu
  cases h with
  | unfed place hplace hbuffer hnonneg => exact .unfed place hplace hbuffer hnonneg
  | fed script chunked path hfed hitems => exact .fed script chunked path hfed hitems

theorem New.lies_acted (h : made.New) (acts : List Action) :
    (made.acted acts).Lies made.buffer.ahead := by
  obtain ⟨uses, huses⟩ := exists_makes acts h.proper
  have hafter := Effect.after_induction (fun heffect hs => Lies.effect hs heffect) uses h.proper h.lies
  exact hafter.of_matches huses.matches

theorem Lies.ahead_eq (h : s.Lies X) : 0 ≤ s.position ∧ s.buffer.ahead = X.drop s.position.toNat := by
  cases h with
  | unfed place hplace hbuffer hnonneg => exact ⟨hnonneg, by rw [hbuffer, hplace.ahead_eq]⟩
  | fed script chunked path hfed hitems =>
    obtain ⟨st, passed, hbuffer, hposition, hst⟩ := hfed
    refine ⟨by omega, ?_⟩
    rw [hbuffer, Buffer.ahead, hst.chunked_eq, ← hst.ahead_eq, hposition, hitems, Int.toNat_natCast]

/-- Ahead of a cursor are the items of the input behind its position. -/
theorem aheadOf_acted (h : made.New) (acts : List Action) (c : Cursor) :
    0 ≤ (made.acted acts).positionOf c ∧
      (made.acted acts).aheadOf c = made.buffer.ahead.drop ((made.acted acts).positionOf c).toNat := by
  obtain ⟨hnonneg, hahead⟩ := (h.lies_acted acts).ahead_eq
  have hoffset := (h.proper.acted acts).zero_le_offset c
  rw [aheadOf, hahead, List.drop_drop, positionOf, Int.toNat_add hnonneg hoffset]
  exact ⟨by omega, rfl⟩

end Source

/-! ## Rules that tell their span -/

namespace Evaluation

variable {g : Grammar} {path : Path} {rule : Rule} {c : Cursor} {arg : Value} {s t u : State}

/-- The range of positions that a rule covers, and none of its values. -/
def spanOf (rule : Rule) : Rule := .mapRange (.discard rule) none

/-- A rule that tells its span ends as the rule does, with the span for a value. -/
theorem runFrom_span (path : Path) (x : Evaluation Outcome) (c : Cursor) (s : State) :
    (mapRange path (valueless <$> x) c none).runFrom s = match x.runFrom s with
      | (.ok (.success _), t) =>
        (.ok (.success [.range (s.source.positionOf c) (t.source.positionOf c) 1]), t)
      | (.ok (.mismatch m), t) => (.ok (.mismatch m), t)
      | (.error e, t) => (.error e, t) := by
  have hfirst : (positionOf c).runFrom s = (.ok (s.source.positionOf c), s) := rfl
  rw [mapRange, map_eq_pure_bind, runFrom_bind, hfirst]
  simp only [bind_assoc, runFrom_bind]
  rcases x.runFrom s with ⟨(_ | _) | (vs | m), t⟩ <;> rfl

theorem exists_runFrom_span {r : Except Failure Outcome} (h : g.Evaluates path (spanOf rule) c arg s r t) :
    ∃ fuel, (mapRange path (valueless <$> eval g path fuel rule c arg) c none).runFrom s =
      (r.mapError .failed, t) := by
  obtain ⟨fuel, hrun, hfuel⟩ := (h.eventually.and (Filter.eventually_ge_atTop 2)).exists
  obtain ⟨k, rfl⟩ := Nat.exists_eq_add_of_le' hfuel
  exact ⟨k, hrun⟩

/-- Where the rule with its span succeeds, the rule does, and the value is the range of the positions
where its cursor stood before and stands afterwards. -/
theorem of_evaluates_span_success {vs : List Value}
    (h : g.Evaluates path (spanOf rule) c arg s (.ok (.success vs)) t) :
    vs = [.range (s.source.positionOf c) (t.source.positionOf c) 1] ∧
      ∃ ws, g.Evaluates path rule c arg s (.ok (.success ws)) t := by
  obtain ⟨fuel, hrun⟩ := exists_runFrom_span h
  rw [runFrom_span] at hrun
  rcases hbody : (eval g path fuel rule c arg).runFrom s with ⟨e | (ws | m), v⟩
  · rw [hbody] at hrun
    cases hrun
  · rw [hbody] at hrun
    cases hrun
    exact ⟨rfl, ws, fuel, hbody⟩
  · rw [hbody] at hrun
    cases hrun

theorem of_evaluates_span_mismatch {m : Mismatch}
    (h : g.Evaluates path (spanOf rule) c arg s (.ok (.mismatch m)) t) :
    g.Evaluates path rule c arg s (.ok (.mismatch m)) t := by
  obtain ⟨fuel, hrun⟩ := exists_runFrom_span h
  rw [runFrom_span] at hrun
  rcases hbody : (eval g path fuel rule c arg).runFrom s with ⟨e | (ws | m'), v⟩
  · rw [hbody] at hrun
    cases hrun
  · rw [hbody] at hrun
    cases hrun
  · rw [hbody] at hrun
    cases hrun
    exact ⟨fuel, hbody⟩

/-- Whatever the rule, one with its span gives one value. -/
theorem gives_span (g : Grammar) (path : Path) (rule : Rule) (c : Cursor) (arg : Value) : ∀ fuel,
    Gives (Outcome.HasArity 1) (eval g path fuel (spanOf rule) c arg)
  | 0 => .throw .outOfFuel
  | fuel + 1 => by
    have hdiscard : Gives (Outcome.HasArity 0) (eval g path fuel (.discard rule) c arg) := by
      cases fuel with
      | zero => exact .throw .outOfFuel
      | succ fuel =>
        have hall : Gives (fun _ => True) (eval g path fuel rule c arg) := fun _ _ _ _ => trivial
        refine hall.map fun o _ => ?_
        cases o with
        | success vs => rfl
        | mismatch m => trivial
    exact hdiscard.mapRange_none path c

/-! ## Spans that follow one another -/

/-- The spans follow one another from the position `first` on, none of them goes backwards, and the
last one ends at the position `last`. -/
inductive Tiles : (first : Int) → List (Int × Int) → (last : Int) → Prop where
  | nil (first : Int) : Tiles first [] first
  | cons {first next last : Int} {spans : List (Int × Int)} (hle : first ≤ next)
    (hrest : Tiles next spans last) : Tiles first ((first, next) :: spans) last

theorem Tiles.le {first last : Int} {spans : List (Int × Int)} (h : Tiles first spans last) :
    first ≤ last := by
  induction h with
  | nil first => exact le_refl _
  | cons hle _ ih => exact hle.trans ih

/-- No span reaches beyond the ends. -/
theorem Tiles.within {first last : Int} {spans : List (Int × Int)} (h : Tiles first spans last) :
    ∀ span ∈ spans, first ≤ span.1 ∧ span.1 ≤ span.2 ∧ span.2 ≤ last := by
  induction h with
  | nil first => simp
  | cons hle hrest ih =>
    rintro span (_ | ⟨_, hspan⟩)
    · exact ⟨le_refl _, hle, hrest.le⟩
    · obtain ⟨hfirst, hspan⟩ := ih span hspan
      exact ⟨hle.trans hfirst, hspan⟩

/-- A cursor does not go back, and within the input it stays within it. -/
theorem moves_of_evaluates {r : Except Failure Outcome} (h : g.Evaluates path rule c arg s r t) :
    s.source.positionOf c ≤ t.source.positionOf c ∧ t.source.extent = s.source.extent ∧
      (s.source.positionOf c ≤ s.source.extent → t.source.positionOf c ≤ s.source.extent) := by
  obtain ⟨fuel, hrun⟩ := h
  have hkeeps := eval_keeps Confined g path fuel rule c arg s
  rw [hrun] at hkeeps
  exact ⟨hkeeps.position_le, hkeeps.extent, hkeeps.confined⟩

/-- The rule succeeds, and the span goes from where its cursor stood to where it stands then. -/
def Covers (g : Grammar) (path : Path) (rule : Rule) (c : Cursor) (arg : Value) (s : State)
    (span : Int × Int) (t : State) : Prop :=
  (∃ ws, g.Evaluates path rule c arg s (.ok (.success ws)) t) ∧
    span = (s.source.positionOf c, t.source.positionOf c)

/-- The values of rounds of a rule with its span are the spans of rounds of the rule. -/
theorem Rounds.covers {found : List Value}
    (h : Rounds (fun s v t => g.Evaluates path (spanOf rule) c arg s (.ok (.success [v])) t) s found u) :
    ∃ spans : List (Int × Int), found = spans.map (fun span => .range span.1 span.2 1) ∧
      Rounds (Covers g path rule c arg) s spans u := by
  induction h with
  | nil s => exact ⟨[], rfl, .nil s⟩
  | @cons s t u v found hround _ ih =>
    obtain ⟨spans, rfl, hspans⟩ := ih
    obtain ⟨hv, hbody⟩ := of_evaluates_span_success hround
    cases hv
    exact ⟨(s.source.positionOf c, t.source.positionOf c) :: spans, rfl, .cons ⟨hbody, rfl⟩ hspans⟩

variable {spans : List (Int × Int)}

theorem Rounds.tiles (h : Rounds (Covers g path rule c arg) s spans u) :
    Tiles (s.source.positionOf c) spans (u.source.positionOf c) := by
  induction h with
  | nil s => exact .nil _
  | cons hround _ ih =>
    obtain ⟨⟨ws, hbody⟩, rfl⟩ := hround
    exact .cons (moves_of_evaluates hbody).1 ih

theorem Rounds.confined (h : Rounds (Covers g path rule c arg) s spans u)
    (hs : s.source.positionOf c ≤ s.source.extent) : u.source.positionOf c ≤ s.source.extent := by
  induction h with
  | nil s => exact hs
  | cons hround _ ih =>
    obtain ⟨⟨ws, hbody⟩, -⟩ := hround
    obtain ⟨-, hextent, hconfined⟩ := moves_of_evaluates hbody
    rw [← hextent] at hs hconfined ⊢
    exact ih (hconfined (hextent ▸ hs))

/-- Evaluating a rule leaves a source in use. -/
theorem exists_acted_of_evaluates {made : Source} {acts : List Action} (hs : s.source = made.acted acts)
    {r : Except Failure Outcome} (h : g.Evaluates path rule c arg s r t) :
    ∃ more, t.source = made.acted more := by
  obtain ⟨fuel, hrun⟩ := h
  refine ⟨acts ++ [.evaluation g path fuel rule c arg s.journal], ?_⟩
  rw [Source.acted, List.foldl_append]
  show t.source = (made.acted acts).act (.evaluation g path fuel rule c arg s.journal)
  rw [← hs, Source.act, hrun]

/-- A round takes the items off that its span covers. -/
theorem Covers.piece {made : Source} (hmade : made.New) {acts : List Action}
    (hs : s.source = made.acted acts) {span : Int × Int} (h : Covers g path rule c arg s span t) :
    s.source.aheadOf c = cut made.buffer.ahead span.1 span.2 ++ t.source.aheadOf c ∧
      ∃ more, t.source = made.acted more := by
  obtain ⟨⟨ws, hbody⟩, rfl⟩ := h
  obtain ⟨hle, -, -⟩ := moves_of_evaluates hbody
  obtain ⟨more, ht⟩ := exists_acted_of_evaluates hs hbody
  -- before the round and after it, what is ahead is the input behind the position
  obtain ⟨hnonneg, hahead⟩ := Source.aheadOf_acted hmade acts c
  obtain ⟨-, hahead'⟩ := Source.aheadOf_acted hmade more c
  rw [← hs] at hnonneg hahead
  rw [← ht] at hahead'
  exact ⟨by rw [hahead, hahead', ← drop_eq_cut_append _ hnonneg hle], more, ht⟩

/-- What the rounds of a repetition make of a source in use. -/
theorem Rounds.pieces {made : Source} (hmade : made.New)
    (h : Rounds (Covers g path rule c arg) s spans u) : ∀ {acts : List Action},
    s.source = made.acted acts →
    Rounds (fun s span t => Covers g path rule c arg s span t ∧
      s.source.aheadOf c = cut made.buffer.ahead span.1 span.2 ++ t.source.aheadOf c) s spans u := by
  induction h with
  | nil s => exact fun _ => .nil s
  | cons hround _ ih =>
    intro acts hs
    obtain ⟨hpiece, more, ht⟩ := hround.piece hmade hs
    exact .cons ⟨hround, hpiece⟩ (ih ht)

/-- The spans of a repetition follow one another, from where its cursor stood to where its last round
has left it, each from before the round to after it. -/
theorem spans_tile {repeated : Rule} {min : Int} {max : Option Int} {vs : List Value}
    (hmake : Rule.makeRepeat (.rule (spanOf rule)) min max = .ok repeated)
    (h : g.Evaluates path repeated c arg s (.ok (.success vs)) t) :
    ∃ (spans : List (Int × Int)) (u : State),
      vs = [.list (spans.map fun span => .range span.1 span.2 1)] ∧
      Rounds (Covers g path rule c arg) s spans u ∧
      Tiles (s.source.positionOf c) spans (u.source.positionOf c) ∧
      (0 ≤ s.source.positionOf c → s.source.positionOf c ≤ s.source.extent →
        ∀ span ∈ spans, 0 ≤ span.1 ∧ span.1 ≤ span.2 ∧ span.2 ≤ s.source.extent) ∧
      (max = some (spans.length : Int) ∨
          (∀ m v, g.Evaluates path rule c arg u (.ok (.mismatch m)) v →
            v.source.positionOf c = u.source.positionOf c) →
        t.source.positionOf c = u.source.positionOf c) ∧
      ∀ (made : Source) (acts : List Action), made.New → s.source = made.acted acts →
        0 ≤ s.source.positionOf c ∧
        Rounds (fun s span t => Covers g path rule c arg s span t ∧
          s.source.aheadOf c = cut made.buffer.ahead span.1 span.2 ++ t.source.aheadOf c) s spans u := by
  obtain ⟨rfl, -, hmin, hmax⟩ := of_makeRepeat hmake
  obtain ⟨found, u, rfl, hrounds, -, hend⟩ :=
    (evaluates_repetition_success_iff (gives_span g path rule c arg)
      fun most hmost => le_trans hmin (hmax most hmost)).1 h
  obtain ⟨spans, rfl, hcovers⟩ := hrounds.covers
  refine ⟨spans, u, rfl, hcovers, hcovers.tiles, fun hnonneg hle span hspan => ?_, fun hstop => ?_,
    fun made acts hmade hs => ⟨?_, hcovers.pieces hmade hs⟩⟩
  · obtain ⟨hfirst, hspan, hlast⟩ := hcovers.tiles.within span hspan
    exact ⟨hnonneg.trans hfirst, hspan, hlast.trans (hcovers.confined hle)⟩
  · -- a loop that is full ends with its last round, any other one with a mismatch behind it
    rw [List.length_map] at hend
    rcases hend with ⟨-, rfl⟩ | ⟨hopen, m, hround⟩
    · rfl
    · rcases hstop with hfull | hclean
      · exact absurd (hopen _ hfull) (lt_irrefl _)
      · exact hclean m t (of_evaluates_span_mismatch hround)
  · rw [hs]
    exact (Source.aheadOf_acted hmade acts c).1

/-- Chunks with three dots and a letter, of which the root has consumed one dot and made a fork. -/
def threeDots : Source := .ofFeed [.value (.str [46, 46]), .value (.str [46, 120])] true .blocking

def afterOne : List Action :=
  [.request ⟨.blocking, .root, .read 1⟩, .request ⟨.blocking, .root, .consume 1⟩,
    .request ⟨.blocking, .root, .fork⟩]

/-- The spans of the two dots behind the first one, at the fork. -/
theorem spans_tile_threeDots :
    threeDots.New ∧
    Rule.makeRepeat (.rule (spanOf dot)) 1 none = .ok (.repetition (spanOf dot) 1 none) ∧
    ∃ t spans u,
      dots.Evaluates .blocking (.repetition (spanOf dot) 1 none) (.fork 0) .none
        (.ofSource (threeDots.acted afterOne))
        (.ok (.success [.list [.range 1 2 1, .range 2 3 1]])) t ∧
      [.range 1 2 1, .range 2 3 1] = spans.map (fun span => Value.range span.1 span.2 1) ∧
      Tiles 1 spans (u.source.positionOf (.fork 0)) ∧
      Rounds (fun s span t => Covers dots .blocking dot (.fork 0) .none s span t ∧
        s.source.aheadOf (.fork 0) =
          cut [.str [46], .str [46], .str [46], .str [120]] span.1 span.2 ++ t.source.aheadOf (.fork 0))
        (.ofSource (threeDots.acted afterOne)) spans u := by
  have hmade : threeDots.New := .ofFeed _ _ _
  have hmake : Rule.makeRepeat (.rule (spanOf dot)) 1 none = .ok (.repetition (spanOf dot) 1 none) := rfl
  have hrun : ((eval dots .blocking 5 (.repetition (spanOf dot) 1 none) (.fork 0) .none).runFrom
      (.ofSource (threeDots.acted afterOne))).1 =
        .ok (.success [.list [.range 1 2 1, .range 2 3 1]]) := by cbv
  obtain ⟨t, ht⟩ : ∃ t, dots.Evaluates .blocking (.repetition (spanOf dot) 1 none) (.fork 0) .none
      (.ofSource (threeDots.acted afterOne)) (.ok (.success [.list [.range 1 2 1, .range 2 3 1]])) t :=
    Grammar.Evaluates.exists_of_fst hrun
  obtain ⟨spans, u, hspans, -, htiles, -, -, hpieces⟩ := spans_tile hmake ht
  obtain ⟨-, hrounds⟩ := hpieces threeDots afterOne hmade rfl
  exact ⟨hmade, hmake, t, spans, u, ht, by simpa using hspans, htiles, hrounds⟩

/-- The span of a rule that consumes nothing, at a fork that the root has overtaken, lies behind the end
of the input. -/
theorem spans_overtaken :
    (Source.ofData (.str [97, 98])).New ∧
    ((Source.ofData (.str [97, 98])).after Source.overtaking).isClosed (.fork 0) = false ∧
    Rule.makeRepeat (.rule (spanOf .noOp)) 1 (some 1) = .ok (.repetition (spanOf .noOp) 1 (some 1)) ∧
    ((eval dots .blocking 5 (.repetition (spanOf .noOp) 1 (some 1)) (.fork 0) .none).runFrom
      (.ofSource ((Source.ofData (.str [97, 98])).after Source.overtaking))).1 =
        .ok (.success [.list [.range 4 4 1]]) ∧
    ((Source.ofData (.str [97, 98])).after Source.overtaking).extent = 2 := by
  refine ⟨.ofData _, rfl, rfl, ?_, rfl⟩
  cbv

end Evaluation
end Backtrack
