/-
Suspending reads, which may leave off while a feed has nothing new. A stream with a suspending feed
pulls from it in a loop of its own; a blocking feed is read as by a blocking read.
-/
import Backtrack.Source
namespace Backtrack

namespace Stream

/-- Pulls elements of a suspending `feed` until `amount` items wait, the feed ends or a pull
fails. -/
def pullSuspending (amount : Int) : (feed : List Element) → Stream → Filled
  | [], s =>
    if s.available < amount then finish { s with feed := [] }
    else ⟨{ s with feed := [] }, [], none⟩
  | e :: rest, s =>
    if s.available < amount then
      match e with
      | .stop => finish (s.advance rest)
      | .failing f => ⟨s.advance rest, failureEvents f, some (reported f)⟩
      | .value v =>
        match contribution s.chunked v with
        | .error f => ⟨s.advance rest, [], some f⟩
        | .ok vs => pullSuspending amount rest { s.advance rest with items := s.items ++ vs }
    else ⟨{ s with feed := e :: rest }, [], none⟩

/-- Makes `amount` items wait, or as many as there are, whatever the feed. -/
def fillSuspending (s : Stream) (amount : Int) : Filled :=
  match s.path with
  | .blocking => s.fill .blocking amount
  | .suspending => if s.ended then ⟨s, [], none⟩ else pullSuspending amount s.feed s

end Stream

/-- Makes `amount` items wait, or as many as there are: the buffer afterwards, what it reported,
and the failure that cut it short. -/
def Buffer.fillSuspending (amount : Int) : Buffer → Buffer × List Event × Option Failure
  | memory data start => (memory data start, [], none)
  | stream s =>
    let filled := s.fillSuspending amount
    (stream filled.stream, filled.events, filled.failure)
  | irregular data start => (irregular data start, [], none)

namespace Source

/-- Makes `amount` items wait ahead of the root. -/
def fillSuspending (amount : Int) : SourceM Unit :=
  fun ⟨buffer, position, forks, events⟩ =>
    let (buffer, reported, failure) := buffer.fillSuspending amount
    (match failure with
      | some f => .error f
      | none => .ok (),
      ⟨buffer, position, forks, events ++ reported⟩)

/-- The next `amount` items of a cursor without consuming them; fewer only at the end of the
input. -/
def readSuspending (c : Cursor) (amount : Int) : SourceM Sequence := do
  checkOpen c
  let offset := (← get).offset c
  fillSuspending (offset + amount)
  MonadExcept.ofExcept ((← get).buffer.slice offset (offset + amount))

end Source
end Backtrack
