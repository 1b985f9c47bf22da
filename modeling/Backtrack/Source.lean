/-
Sources and the cursors over them. The root cursor owns the buffer. A fork is a speculative
cursor: it keeps its consumption as an offset to the root and hands it to its parent only when it
is joined, which happens at most once; a closed fork can no longer be used, and dropping a fork
leaves its parent where it was.
-/
import Backtrack.Source.Buffer
namespace Backtrack

/-- A fork: its parent, nothing standing for the root, its offset to the root, and whether it was
joined or closed. -/
structure Fork where
  parent : Option Nat
  offset : Int
  closed : Bool
deriving Inhabited, Repr, DecidableEq

/-- A cursor: the root, or a fork by its number. -/
inductive Cursor where
  | root
  | fork (id : Nat)
deriving Inhabited, Repr, DecidableEq

/-- A source: the buffer, the number of items consumed since the start, all forks ever made, and
the reports that nobody has taken yet. -/
structure Source where
  buffer : Buffer
  position : Int
  forks : Array Fork
  events : List Event
deriving Inhabited

/-- An operation on a source, which may fail and may change the source even so. -/
abbrev SourceM := ExceptT Failure (StateM Source)

/-! ## Running operations -/

/-- The result of an operation on a source, and the source afterwards. -/
def SourceM.runOn {α : Type} (op : SourceM α) (s : Source) : Except Failure α × Source :=
  op.run.run s

namespace SourceM

variable {α β : Type}

@[simp] theorem runOn_pure (a : α) (s : Source) : (pure a : SourceM α).runOn s = (.ok a, s) := rfl

@[simp] theorem runOn_throw (f : Failure) (s : Source) :
    (throw f : SourceM α).runOn s = (.error f, s) := rfl

/-- A failure ends a run, and what was done before it stays done. -/
theorem runOn_bind (x : SourceM α) (f : α → SourceM β) (s : Source) :
    (x >>= f).runOn s = match x.runOn s with
      | (.ok a, t) => (f a).runOn t
      | (.error e, t) => (.error e, t) := by
  show (x >>= f : ExceptT Failure (StateM Source) β).run.run s = _
  rw [ExceptT.run_bind, StateT.run_bind]
  unfold runOn
  rcases x.run.run s with ⟨r, t⟩
  cases r <;> rfl

/-- A result that is there already leaves the source alone. -/
@[simp] theorem runOn_ofExcept (r : Except Failure α) (s : Source) :
    (MonadExcept.ofExcept r : SourceM α).runOn s = (r, s) := by cases r <;> rfl

@[simp] theorem runOn_get (s : Source) : (get : SourceM Source).runOn s = (.ok s, s) := rfl

@[simp] theorem runOn_set (s t : Source) : (set t : SourceM Unit).runOn s = (.ok (), t) := rfl

@[simp] theorem runOn_modify (f : Source → Source) (s : Source) :
    (modify f : SourceM Unit).runOn s = (.ok (), f s) := rfl

end SourceM

namespace Source

/-! ## Making sources -/

def ofBuffer (b : Buffer) : Source := ⟨b, 0, #[], []⟩

def ofSequence (data : Sequence) : Source := ofBuffer (.memory data 0)

/-- A source over a value that is used as a sequence, whether it is one or not. -/
def ofData (v : Value) : Source := ofBuffer (.ofValue v)

def ofFeed (feed : List Element) (chunked : Bool) (path : Path) : Source :=
  ofBuffer (.stream (.ofFeed feed chunked path))

/-- The failure of asking the root for what only a fork has. -/
def onlyForks (name : Text) : Failure := .noAttribute "Source" name

/-- The failure of using the root as a block that closes it at its end. -/
def notScoped : Failure :=
  .typeError "'Source' object does not support the context manager protocol"

def notParsable (v : Value) : Failure :=
  .typeError (Text.concat ["Can't parse from '", v.typeName, "'."])

/-- The source that fits a value: sequences are read in memory, other values with items are fed
item by item. -/
def ofValue (v : Value) : Except Failure Source :=
  if (Sequence.ofValue? v).isSome then .ok (ofData v)
  else
    match v.items? with
    | some items => .ok (ofFeed (items.map .value) false .blocking)
    | none => .error (notParsable v)

/-! ## Cursors -/

/-- The fork with a number; a number that was never given out means a closed one. -/
def forkAt (s : Source) (id : Nat) : Fork := s.forks.getD id ⟨none, 0, true⟩

def offset (s : Source) : Cursor → Int
  | .root => 0
  | .fork id => (s.forkAt id).offset

/-- Items consumed by a cursor since the start of the input. -/
def positionOf (s : Source) (c : Cursor) : Int := s.position + s.offset c

def availableAt (s : Source) (c : Cursor) : Int := s.buffer.available - s.offset c

/-- Whether a fork was joined or closed; the root never is. -/
def isClosed (s : Source) : Cursor → Bool
  | .root => false
  | .fork id => (s.forkAt id).closed

def display (s : Source) : Cursor → Text
  | .root => Text.concat ["<Source at ", Numeral.ofInt s.position, ">"]
  | .fork id =>
    let mark : Text := if s.isClosed (.fork id) then " (closed)" else ""
    Text.concat ["<Fork at ", Numeral.ofInt (s.positionOf (.fork id)), mark, ">"]

def setFork (s : Source) (id : Nat) (f : Fork → Fork) : Source :=
  { s with forks := s.forks.modify id f }

/-! ## Operations -/

def forkClosed : Failure := .runtimeError "The fork was already joined or closed."

def cannotConsume (amount available : Int) : Failure :=
  .valueError (Text.concat ["Can't consume ", Numeral.ofInt amount, " items, only ",
    Numeral.ofInt available, " are available."])

/-- Why `amount` items cannot be consumed at an offset, if they cannot. -/
def consumeFailure? (buffer : Buffer) (offset amount : Int) : Option Failure :=
  match buffer.countFailure? with
  | some f => some f
  | none =>
    if buffer.available < offset + amount then
      some (cannotConsume amount (buffer.available - offset))
    else none

def checkOpen (c : Cursor) : SourceM Unit := do
  if (← get).isClosed c then throw forkClosed

/-- Makes `amount` items wait ahead of the root. -/
def fill (path : Path) (amount : Int) : SourceM Unit :=
  fun ⟨buffer, position, forks, events⟩ =>
    let (buffer, reported, failure) := buffer.fill path amount
    (match failure with
      | some f => .error f
      | none => .ok (),
      ⟨buffer, position, forks, events ++ reported⟩)

/-- The next `amount` items of a cursor without consuming them; fewer only at the end of the
input. -/
def read (path : Path) (c : Cursor) (amount : Int) : SourceM Sequence := do
  checkOpen c
  let offset := (← get).offset c
  fill path (offset + amount)
  MonadExcept.ofExcept ((← get).buffer.slice offset (offset + amount))

/-- Moves the root past `amount` items, which must wait. -/
def consumeRoot (amount : Int) : SourceM Unit :=
  fun ⟨buffer, position, forks, events⟩ =>
    match consumeFailure? buffer 0 amount with
    | some f => (.error f, ⟨buffer, position, forks, events⟩)
    | none =>
      let (buffer, reported) := buffer.consume amount
      (.ok (), ⟨buffer, position + amount, forks, events ++ reported⟩)

/-- Moves a cursor past `amount` items, which must wait. -/
def consume (c : Cursor) (amount : Int) : SourceM Unit :=
  match c with
  | .root => consumeRoot amount
  | .fork id => do
    checkOpen c
    let s ← get
    match consumeFailure? s.buffer (s.offset c) amount with
    | some f => throw f
    -- only the root gives anything back to the buffer
    | none => modify fun s => s.setFork id fun f => { f with offset := f.offset + amount }

def parentOf : Cursor → Option Nat
  | .root => none
  | .fork id => some id

def addFork (s : Source) (c : Cursor) : Source :=
  let offset := s.offset c
  { s with forks := s.forks.push ⟨parentOf c, offset, false⟩ }

def fork (c : Cursor) : SourceM Cursor := do
  checkOpen c
  modifyGet fun s => (.fork s.forks.size, s.addFork c)

def close (c : Cursor) : SourceM Unit :=
  match c with
  | .root => pure ()
  | .fork id => modify fun s => s.setFork id fun f => { f with closed := true }

/-- Hands the consumption of a fork to its parent and closes the fork. The root has no parent and
nothing to hand over. -/
def join (c : Cursor) : SourceM Unit :=
  match c with
  | .root => pure ()
  | .fork id => do
    checkOpen c
    -- closed first: whatever fails from here on, the fork cannot be joined again
    close c
    let f := (← get).forkAt id
    match f.parent with
    | none => consumeRoot f.offset
    | some parent => do
      checkOpen (.fork parent)
      -- both offsets are to the root, so the parent takes over the one of the fork
      modify fun s => s.setFork parent fun p => { p with offset := f.offset }

end Source
end Backtrack
