/-
Buffers: the items that a source reads, either a whole sequence in memory or a stream, or what
stands in for a sequence and is none. Bounds of a slice are relative to the first item that is not
consumed.
-/
import Backtrack.Source.Stream
import Backtrack.Value.Sequence
namespace Backtrack

/-- The items of a source. An irregular buffer holds a value that cannot be cut into slices, or
whose items cannot be counted; it fails only when it is asked to. -/
inductive Buffer where
  | memory (data : Sequence) (start : Int)
  | stream (s : Stream)
  | irregular (data : Value) (start : Int)
deriving Inhabited

namespace Buffer

/-- The buffer over a value that is used as a sequence, whether it is one or not. -/
def ofValue (v : Value) : Buffer :=
  match Sequence.ofValue? v with
  | some data => if v.countable then memory data 0 else irregular v 0
  | none => irregular v 0

def available : Buffer → Int
  | memory data start => data.size - start
  | stream s => s.available
  | irregular data start => data.length?.getD 0 - start

/-- The failure of asking how many items wait ahead. -/
def countFailure? : Buffer → Option Failure
  | memory .. | stream _ => none
  | irregular data _ =>
    match data.length with
    | .ok _ => none
    | .error f => some f

/-- Makes `amount` items wait, or as many as there are: the buffer afterwards, what it reported,
and the failure that cut it short. -/
def fill (path : Path) (amount : Int) : Buffer → Buffer × List Event × Option Failure
  | memory data start => (memory data start, [], none)
  | stream s =>
    let filled := s.fill path amount
    (stream filled.stream, filled.events, filled.failure)
  | irregular data start => (irregular data start, [], none)

def slice (b : Buffer) (first last : Int) : Except Failure Sequence :=
  match b with
  | memory data start => .ok (data.slice (start + first) (start + last))
  | stream s => .ok ((Sequence.items .list s.items).slice (s.head + first) (s.head + last))
  | irregular data start =>
    match Sequence.ofValue? data with
    | some content => .ok (content.slice (start + first) (start + last))
    | none => .error (.notSliceable data)

def consume (amount : Int) : Buffer → Buffer × List Event
  | memory data start => (memory data (start + amount), [])
  | stream s =>
    let (s, events) := s.consume amount
    (stream s, events)
  | irregular data start => (irregular data (start + amount), [])

def pulled? : Buffer → Option Nat
  | stream s => some s.pulled
  | memory .. | irregular .. => none

end Buffer
end Backtrack
