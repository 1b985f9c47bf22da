/-
Evaluation in memory. On an input that is there as a whole, evaluating a rule at any open cursor,
the root or a fork of whatever depth, gives what scanning by the rule gives from the cursor's
position, and leaves the cursor where the scan ends. So forks, offsets, joins and closings can be
forgotten: a rule means the same at every cursor that stands at the same position. The input must
have a length, which the longest ranges have not: over one of those the root refuses to consume
even nothing, which a fork of it does not.
-/
import Backtrack.Proofs.Simulation
import Backtrack.Parse
namespace Backtrack

open Source

/-! ## Sources in memory -/

/-- The source is one over `data` in memory: the buffer stands where the root does. -/
def Source.IsOver (data : Sequence) (s : Source) : Prop := s.buffer = .memory data s.position

variable {data : Sequence} {s : Source}

theorem Buffer.ofValue_eq_memory {v : Value} (hv : Sequence.ofValue? v = some data)
    (hcount : v.countable = true) : Buffer.ofValue v = .memory data 0 := by
  simp [Buffer.ofValue, hv, hcount]

theorem Source.IsOver.ofData {v : Value} (hv : Sequence.ofValue? v = some data)
    (hcount : v.countable = true) : (Source.ofData v).IsOver data := by
  simp [Source.IsOver, Source.ofData, Source.ofBuffer, Buffer.ofValue_eq_memory hv hcount]

/-! ## What operations keep -/

/-- The operation leaves a source over `data` in memory one over `data` in memory, whether it
succeeds or fails. -/
def SourceM.KeepsOver {α : Type} (data : Sequence) (op : SourceM α) : Prop :=
  ∀ s : Source, s.IsOver data → (op.runOn s).2.IsOver data

section Keeps

variable {α β : Type}

theorem SourceM.KeepsOver.bind {x : SourceM α} {f : α → SourceM β} (hx : x.KeepsOver data)
    (hf : ∀ a, (f a).KeepsOver data) : (x >>= f).KeepsOver data := by
  intro s hs
  have h := hx s hs
  rw [SourceM.runOn_bind]
  rcases hrun : x.runOn s with ⟨r, t⟩
  rw [hrun] at h
  cases r with
  | ok a => exact hf a t h
  | error e => exact h

theorem keepsOver_checkOpen (c : Cursor) : (checkOpen c).KeepsOver data := by
  intro s hs
  simp only [checkOpen, SourceM.runOn_bind, SourceM.runOn_get]
  split <;> exact hs

theorem keepsOver_read (path : Path) (c : Cursor) (amount : Int) :
    (read path c amount).KeepsOver data := by
  refine (keepsOver_checkOpen c).bind fun _ s hs => ?_
  simp only [SourceM.runOn_bind, SourceM.runOn_get, runOn_fill]
  rw [IsOver] at hs
  simp only [hs, Buffer.fill, SourceM.runOn_ofExcept]
  rfl

theorem keepsOver_consumeRoot (amount : Int) : (consumeRoot amount).KeepsOver data := by
  intro s hs
  cases hc : consumeFailure? s.buffer 0 amount with
  | none =>
    rw [runOn_consumeRoot hc]
    rw [IsOver] at hs
    simp [IsOver, hs, Buffer.consume]
  | some f =>
    rw [runOn_consumeRoot_of_some hc]
    exact hs

theorem keepsOver_consume (c : Cursor) (amount : Int) : (consume c amount).KeepsOver data := by
  cases c with
  | root => exact keepsOver_consumeRoot amount
  | fork id =>
    refine (keepsOver_checkOpen (.fork id)).bind fun _ s hs => ?_
    simp only [SourceM.runOn_bind, SourceM.runOn_get]
    cases consumeFailure? s.buffer (s.offset (.fork id)) amount with
    | none => exact hs
    | some f => exact hs

theorem keepsOver_fork (c : Cursor) : (fork c).KeepsOver data :=
  (keepsOver_checkOpen c).bind fun _ _ hs => hs

theorem keepsOver_close (c : Cursor) : (close c).KeepsOver data := by
  intro s hs
  cases c with
  | root => exact hs
  | fork id => exact hs

theorem keepsOver_join (c : Cursor) : (join c).KeepsOver data := by
  cases c with
  | root => exact fun s hs => hs
  | fork id =>
    refine (keepsOver_checkOpen (.fork id)).bind fun _ => (keepsOver_close (.fork id)).bind
      fun _ s hs => ?_
    simp only [SourceM.runOn_bind, SourceM.runOn_get]
    cases (s.forkAt id).parent with
    | none => exact keepsOver_consumeRoot _ s hs
    | some parent =>
      refine SourceM.KeepsOver.bind (keepsOver_checkOpen (.fork parent)) ?_ s hs
      intro _ t ht
      exact ht

end Keeps

/-- The source came of one over `data` in memory by operations at its cursors, in any order, whether
they succeeded or failed. -/
inductive Source.Reached (data : Sequence) : Source → Prop where
  | ofData {v : Value} (hv : Sequence.ofValue? v = some data) (hcount : v.countable = true) :
    Reached data (.ofData v)
  | read {s : Source} (h : Reached data s) (path : Path) (c : Cursor) (amount : Int) :
    Reached data ((read path c amount).runOn s).2
  | consume {s : Source} (h : Reached data s) (c : Cursor) (amount : Int) :
    Reached data ((consume c amount).runOn s).2
  | fork {s : Source} (h : Reached data s) (c : Cursor) : Reached data ((fork c).runOn s).2
  | close {s : Source} (h : Reached data s) (c : Cursor) : Reached data ((close c).runOn s).2
  | join {s : Source} (h : Reached data s) (c : Cursor) : Reached data ((join c).runOn s).2

theorem Source.Reached.isOver (h : s.Reached data) : s.IsOver data := by
  induction h with
  | ofData hv hcount => exact .ofData hv hcount
  | read _ path c amount ih => exact keepsOver_read path c amount _ ih
  | consume _ c amount ih => exact keepsOver_consume c amount _ ih
  | fork _ c ih => exact keepsOver_fork c _ ih
  | close _ c ih => exact keepsOver_close c _ ih
  | join _ c ih => exact keepsOver_join c _ ih

/-! ## Memory as a presentation -/

/-- The items from an offset on show the one that stands `k` places behind it, or that there is none. -/
theorem Sequence.saw_slice (data : Sequence) {p o : Int} {i : Nat} (k : Nat) (hp : p + o = i) :
    Saw k (o + (k + 1) ≤ data.size - p) (.ok (data.slice (p + o) (p + (o + (k + 1)))))
      (.ok (data.get? (i + k))) := by
  -- the root's position is where the buffer starts, so offsets count from there
  have hslice : data.slice (p + o) (p + (o + (k + 1))) = data.slice (i : Nat) (i + (k + 1) : Nat) := by
    rw [hp, show p + (o + (k + 1)) = ((i + (k + 1) : Nat) : Int) by push_cast; omega]
  have hget : (data.slice (i : Nat) (i + (k + 1) : Nat)).get? k = data.get? (i + k) := by
    rw [Sequence.get?_slice, if_pos (by omega)]
  rw [hslice]
  cases hv : data.get? (i + k) with
  | none => exact .ended (hget.trans hv)
  | some v =>
    have hlt := Sequence.lt_size_of_get? hv
    exact .found (hget.trans hv) (by omega)

/-- A buffer in memory shows its items to cursors at any offset. -/
def Presentation.memory (data : Sequence) (path : Path) :
    Presentation (Medium.fixed data) path where
  Shows _ b p := b = .memory data p
  Admits _ := True
  admits_zero := trivial
  admits_add _ _ := trivial
  countable h := by rw [h]; rfl
  shows_fill _ h _ _ := by rw [h]; rfl
  available_fill _ h _ _ := by rw [h]; rfl
  saw_fill k h _ hp := by
    subst h
    exact data.saw_slice k hp
  shows_consume h _ _ := by rw [h]; rfl
  available_consume {t b p o} h _ _ := by
    subst h
    simp only [Buffer.consume, Buffer.available]
    omega

theorem Source.IsOver.stands {c : Cursor} {i : Nat} {path : Path} (hs : s.IsOver data)
    (hopen : s.isClosed c = false) (hi : s.positionOf c = i) (hle : i ≤ data.size) :
    (Presentation.memory data path).Stands ⟨i, ()⟩ s c := by
  refine ⟨hs, hopen, hi, ?_, trivial⟩
  rw [IsOver] at hs
  rw [positionOf] at hi
  rw [hs, Buffer.available]
  omega

/-! ## Evaluation is scanning -/

/-- At any open cursor within an input in memory, evaluating agrees with scanning. -/
theorem Source.IsOver.agrees (g : Grammar) (path : Path) (fuel : Nat) (rule : Rule) (arg : Value)
    {s : Evaluation.State} {c : Cursor} {i : Nat} (hs : s.source.IsOver data)
    (hopen : s.source.isClosed c = false) (hi : s.source.positionOf c = i) (hle : i ≤ data.size) :
    (Presentation.memory data path).Agrees c s.source
      ((Evaluation.eval g path fuel rule c arg).runFrom s)
      ((Scan.eval (.fixed data) g fuel rule arg).runFrom ⟨i, ()⟩) :=
  -- of the forks above the cursor nothing need be known
  Presentation.eval_simulates (Presentation.memory data path) g fuel rule c arg _ s
    (hs.stands hopen hi hle)

/-- Over an input in memory, evaluating a rule at any open cursor within the input gives what
scanning by the rule gives from the cursor's position, as it surfaces by the path, and takes the
cursor to where the scan ends. On the blocking path everything surfaces as it is. -/
theorem eval_eq_scan (g : Grammar) (path : Path) (fuel : Nat) (rule : Rule) (arg : Value)
    {s : Evaluation.State} {c : Cursor} {i : Nat} (hs : s.source.IsOver data)
    (hopen : s.source.isClosed c = false) (hi : s.source.positionOf c = i) (hle : i ≤ data.size) :
    ((Evaluation.eval g path fuel rule c arg).runFrom s).1 =
      ((Scan.eval (.fixed data) g fuel rule arg).runFrom ⟨i, ()⟩).1.mapError
        (Halt.surfaced path) ∧
    ((Evaluation.eval g path fuel rule c arg).runFrom s).2.source.positionOf c =
      ((Scan.eval (.fixed data) g fuel rule arg).runFrom ⟨i, ()⟩).2.index ∧
    ((Evaluation.eval g .blocking fuel rule c arg).runFrom s).1 =
      ((Scan.eval (.fixed data) g fuel rule arg).runFrom ⟨i, ()⟩).1 := by
  have h := hs.agrees g path fuel rule arg hopen hi hle
  have hblocking := hs.agrees g .blocking fuel rule arg hopen hi hle
  exact ⟨h.result, h.stands.position, hblocking.result.trans (Halt.mapError_surfaced_blocking _)⟩

/-- A fork of a fork of the root, which has gone one item further than the root. -/
def nestedFork : Evaluation.State where
  source :=
    { buffer := .memory (.items .list #[.int 7, .int 8, .int 9]) 1
      position := 1
      forks := #[⟨none, 0, false⟩, ⟨some 0, 1, false⟩]
      events := [] }
  journal := .empty

theorem eval_eq_scan_nestedFork :
    ((Evaluation.eval .empty .blocking 3 (.or [.never 1, .item (.one (.int 9))]) (.fork 1)
      .none).runFrom nestedFork).1 = .ok (.success [.int 9]) ∧
    ((Evaluation.eval .empty .blocking 3 (.or [.never 1, .item (.one (.int 9))]) (.fork 1)
      .none).runFrom nestedFork).2.source.positionOf (.fork 1) = 3 := by
  have hover : nestedFork.source.IsOver (.items .list #[.int 7, .int 8, .int 9]) := rfl
  have hopen : nestedFork.source.isClosed (.fork 1) = false := rfl
  have hposition : nestedFork.source.positionOf (.fork 1) = (2 : Nat) := rfl
  obtain ⟨-, hend, hresult⟩ := eval_eq_scan .empty .blocking 3
    (.or [.never 1, .item (.one (.int 9))]) .none hover hopen hposition (by decide)
  rw [hresult, hend]
  exact ⟨rfl, rfl⟩

/-- Whatever was done before at the cursors of a source in memory, evaluating a rule at one that is
open and within the input gives what scanning gives. -/
theorem Source.Reached.eval_eq (g : Grammar) (fuel : Nat) (rule : Rule) (arg : Value)
    {s : Evaluation.State} {c : Cursor} {i : Nat} (hs : s.source.Reached data)
    (hopen : s.source.isClosed c = false) (hi : s.source.positionOf c = i) (hle : i ≤ data.size) :
    ((Evaluation.eval g .blocking fuel rule c arg).runFrom s).1 =
      ((Scan.eval (.fixed data) g fuel rule arg).runFrom ⟨i, ()⟩).1 :=
  (hs.isOver.agrees g .blocking fuel rule arg hopen hi hle).result.trans
    (Halt.mapError_surfaced_blocking _)

/-- The length of a range with more members than a length can tell is needed where the root takes
over what a fork consumed, even if that is nothing. -/
theorem eval_ne_scan_longRange :
    ((Evaluation.eval .empty .blocking 2 (.or [.noOp]) .root .none).runFrom
      (.ofSource (.ofData (.range 0 (2 ^ 63) 1)))).1 = .error (.failed .lengthTooLarge) ∧
    ((Scan.eval (.fixed (.range 0 (2 ^ 63) 1)) .empty 2 (.or [.noOp]) .none).runFrom
      ⟨0, ()⟩).1 = .ok (.success []) :=
  ⟨rfl, rfl⟩

end Backtrack
