/-
The journal of an evaluation: the calls of predicates and mappers that asked to be recorded, and
notes on what happened, each in the order of events. A note is told in the light of the grammar,
since a rule that it shows may hold references.
-/
import Backtrack.Grammar
import Backtrack.Source
namespace Backtrack

structure Call where
  name : Text
  args : List Value

/-- Which part of an evaluation a note is about. -/
inductive Topic where
  | source
  | rules
  | parse
deriving DecidableEq, Repr

/-- Something that happened during an evaluation. -/
inductive Note where
  | source (e : Event)
  | expectationFailed (what : Value) (position : Int)
  | alternativeFailed (rule : Rule) (f : Failure)
  | parsing (operand : Operand) (path : Path) (position : Int)
  | failedHard (rule : Rule) (f : Failure)
  | unmatched (rule : Rule) (position : Int)
  | matched (rule : Rule) (position : Int)

namespace Event

/-- The text of a report. -/
def message : Event → Text
  | feedFailed f => Text.concat ["feed failed: ", f.display]
  | feedEnded waiting =>
    Text.concat ["feed ended with ", Numeral.ofInt waiting, " items buffered"]
  | trimmed count =>
    Text.concat ["trimming ", Numeral.ofInt count, " consumed items"]

end Event

namespace Note

def topic : Note → Topic
  | source _ => .source
  | expectationFailed .. | alternativeFailed .. => .rules
  | parsing .. | failedHard .. | unmatched .. | matched .. => .parse

/-- The text of a note. -/
def message (g : Grammar) : Note → Text
  | source e => e.message
  | expectationFailed what position =>
    Text.concat ["expected ", what.text, " at ", Numeral.ofInt position, ", failing hard"]
  | alternativeFailed rule f =>
    Text.concat [g.display rule, " failed hard, skipping the remaining alternatives: ", f.message]
  | parsing operand path position =>
    let manner : Text := if path = .suspending then " asynchronously" else ""
    Text.concat ["parsing ", g.displayOperand operand, manner, " from ", Numeral.ofInt position]
  | failedHard rule f => Text.concat [g.display rule, " failed hard: ", f.message]
  | unmatched rule position =>
    Text.concat [g.display rule, " did not match at ", Numeral.ofInt position]
  | matched rule position =>
    Text.concat [g.display rule, " matched up to ", Numeral.ofInt position]

end Note

structure Journal where
  calls : Array Call
  notes : Array Note
deriving Inhabited

namespace Journal

def empty : Journal := ⟨#[], #[]⟩

def addCall (j : Journal) (c : Call) : Journal := { j with calls := j.calls.push c }

def addNote (j : Journal) (n : Note) : Journal := { j with notes := j.notes.push n }

/-- The reports of a source as further notes. -/
def addEvents (j : Journal) : List Event → Journal
  | [] => j
  | e :: es => addEvents (j.addNote (.source e)) es

end Journal
end Backtrack
