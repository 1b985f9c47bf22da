/-
Streams: items that arrive from a feed, one element at a time, and wait in a queue until they are
consumed. An element brings one item or, in a chunked stream, any number of them; pulling it may
fail. The feed is pulled only while fewer items wait than are asked for, and never again once it
has signalled its end. Consumed items are dropped in bulk, when they are many and at least half of
what is held.
-/
import Backtrack.Failure
namespace Backtrack

/-- What a source does when it is read. A blocking read waits for the feed, a suspending one may
leave off in between. -/
inductive Path where
  | blocking
  | suspending
deriving DecidableEq, Repr, Inhabited

/-- Whether a failure is a signal that an iteration is over. -/
def Failure.endsIteration (f : Failure) : Bool := f.isA .stopIteration || f.isA .stopAsyncIteration

/-- A failure of a pull. The signals that an iteration is over are none: they end a feed. -/
def PullFailure := {f : Failure // f.endsIteration = false}

namespace PullFailure

instance : CoeOut PullFailure Failure := ⟨Subtype.val⟩

/-- What pulling from a generator fails with where a failure is raised in it. -/
def ofGenerator (f : Failure) : PullFailure :=
  if h : f.endsIteration = false then ⟨f, h⟩
  else ⟨.runtimeError (Text.concat ["generator raised ", f.cls.name]), rfl⟩

instance : Coe Failure PullFailure := ⟨ofGenerator⟩

end PullFailure

inductive Element where
  | value (v : Value)
  | failing (f : PullFailure)
  | stop
deriving Inhabited

/-- What a stream reports while it is used. -/
inductive Event where
  | feedFailed (f : Failure)
  | feedEnded (waiting : Int)
  | trimmed (count : Int)

/-- A stream: the rest of the feed and how many elements were taken from it, the items held, the
index of the first one that is not consumed, and whether the end was signalled. The feed of a
suspending stream cannot be read by a blocking read. -/
structure Stream where
  feed : List Element
  pulled : Nat
  chunked : Bool
  path : Path
  items : Array Value
  head : Int
  ended : Bool
deriving Inhabited

namespace Stream

/-- How many consumed items are kept at least before they are dropped. -/
def trimThreshold : Int := 1024

def ofFeed (feed : List Element) (chunked : Bool) (path : Path) : Stream where
  feed := feed
  pulled := 0
  chunked := chunked
  path := path
  items := #[]
  head := 0
  ended := false

def available (s : Stream) : Int := s.items.size - s.head

/-- What filling a stream gives: the stream afterwards, what it reported, and the failure that cut
it short. -/
structure Filled where
  stream : Stream
  events : List Event
  failure : Option Failure

def contribution (chunked : Bool) (v : Value) : Except Failure (List Value) :=
  if chunked then v.elements else .ok [v]

/-- What a failing pull is reported as: the failure itself if it is about parsing, wrapped if not. -/
def reported (f : Failure) : Failure :=
  if f.isA .parseError then f else .other (.failure f)

def failureEvents (f : Failure) : List Event :=
  if f.isA .parseError then [] else [.feedFailed f]

def advance (s : Stream) (rest : List Element) : Stream :=
  { s with feed := rest, pulled := s.pulled + 1 }

def finish (s : Stream) : Filled := ⟨{ s with ended := true }, [.feedEnded s.available], none⟩

/-- Pulls elements of `feed` until `amount` items wait, the feed ends or a pull fails. -/
def pull (amount : Int) : (feed : List Element) → Stream → Filled
  | feed, s =>
    if amount ≤ s.available then ⟨{ s with feed := feed }, [], none⟩
    else
      match feed with
      | [] => finish { s with feed := [] }
      | .stop :: rest => finish (s.advance rest)
      | .failing f :: rest => ⟨s.advance rest, failureEvents f, some (reported f)⟩
      | .value v :: rest =>
        match contribution s.chunked v with
        -- the element is taken all the same, and its items are lost
        | .error f => ⟨s.advance rest, [], some f⟩
        | .ok vs => pull amount rest { s.advance rest with items := s.items ++ vs }

def onlySuspending : Failure :=
  .typeError "A source fed by an async iterable can only be parsed asynchronously."

/-- Makes `amount` items wait, or as many as there are. -/
def fill (s : Stream) (path : Path) (amount : Int) : Filled :=
  if s.path = .suspending ∧ path = .blocking then ⟨s, [], some onlySuspending⟩
  -- a feed that has signalled its end is not asked again, even if it would go on
  else if s.ended then ⟨s, [], none⟩
  else pull amount s.feed s

/-- Drops the consumed items if they are many and at least half of what is held. -/
def trim (s : Stream) : Stream × List Event :=
  if trimThreshold ≤ s.head ∧ (s.items.size : Int) ≤ s.head * 2 then
    ({ s with items := s.items.extract s.head.toNat s.items.size, head := 0 }, [.trimmed s.head])
  else (s, [])

/-- Counts `amount` waiting items as consumed. -/
def consume (s : Stream) (amount : Int) : Stream × List Event :=
  trim { s with head := s.head + amount }

end Stream
end Backtrack
