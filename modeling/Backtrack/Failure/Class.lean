/-
The classes of failures. They form a tree, and a hard failure is one at or below `HardError` in
it. Failures of the operating system have a class of their own for each common kind, which the
number of the system's error tells. What is above `Exception`, such as an interrupt, ends the whole
program rather than an evaluation and is left out, and so are classes that a grammar declares itself.
-/
import Backtrack.Text
namespace Backtrack

/-- The class of a failure. `stopIteration` and `stopAsyncIteration` are what an iteration signals
its end by, but a function may raise them too. -/
inductive ErrorClass where
  | exception
  | stopIteration
  | stopAsyncIteration
  | valueError
  | typeError
  | attributeError
  | lookupError
  | keyError
  | indexError
  | arithmeticError
  | zeroDivisionError
  | overflowError
  | memoryError
  | runtimeError
  | notImplementedError
  | osError
  | blockingIOError
  | childProcessError
  | fileExistsError
  | fileNotFoundError
  | interruptedError
  | isADirectoryError
  | notADirectoryError
  | permissionError
  | processLookupError
  | timeoutError
  | connectionError
  | brokenPipeError
  | connectionAbortedError
  | connectionRefusedError
  | connectionResetError
  | parseError
  | mismatchError
  | hardError
  | incomplete
  | namedIncomplete
  | other
deriving DecidableEq, Repr

namespace ErrorClass

def all : List ErrorClass :=
  [exception, stopIteration, stopAsyncIteration, valueError, typeError, attributeError, lookupError,
    keyError, indexError, arithmeticError, zeroDivisionError, overflowError, memoryError,
    runtimeError, notImplementedError, osError, blockingIOError, childProcessError,
    fileExistsError, fileNotFoundError, interruptedError, isADirectoryError, notADirectoryError,
    permissionError, processLookupError, timeoutError, connectionError, brokenPipeError,
    connectionAbortedError, connectionRefusedError, connectionResetError, parseError,
    mismatchError, hardError, incomplete, namedIncomplete, other]

def name : ErrorClass → Text
  | exception => "Exception"
  | stopIteration => "StopIteration"
  | stopAsyncIteration => "StopAsyncIteration"
  | valueError => "ValueError"
  | typeError => "TypeError"
  | attributeError => "AttributeError"
  | lookupError => "LookupError"
  | keyError => "KeyError"
  | indexError => "IndexError"
  | arithmeticError => "ArithmeticError"
  | zeroDivisionError => "ZeroDivisionError"
  | overflowError => "OverflowError"
  | memoryError => "MemoryError"
  | runtimeError => "RuntimeError"
  | notImplementedError => "NotImplementedError"
  | osError => "OSError"
  | blockingIOError => "BlockingIOError"
  | childProcessError => "ChildProcessError"
  | fileExistsError => "FileExistsError"
  | fileNotFoundError => "FileNotFoundError"
  | interruptedError => "InterruptedError"
  | isADirectoryError => "IsADirectoryError"
  | notADirectoryError => "NotADirectoryError"
  | permissionError => "PermissionError"
  | processLookupError => "ProcessLookupError"
  | timeoutError => "TimeoutError"
  | connectionError => "ConnectionError"
  | brokenPipeError => "BrokenPipeError"
  | connectionAbortedError => "ConnectionAbortedError"
  | connectionRefusedError => "ConnectionRefusedError"
  | connectionResetError => "ConnectionResetError"
  | parseError => "ParseError"
  | mismatchError => "MismatchError"
  | hardError => "HardError"
  | incomplete => "Incomplete"
  | namedIncomplete => "NamedIncomplete"
  | other => "Other"

def ofName? (name : Text) : Option ErrorClass := all.find? fun c => c.name == name

/-- The classes above a class, the nearest first. -/
def above : ErrorClass → List ErrorClass
  | exception => []
  | stopIteration | stopAsyncIteration | valueError | typeError | attributeError | lookupError
  | arithmeticError | memoryError
  | runtimeError | osError | parseError => [exception]
  | keyError | indexError => [lookupError, exception]
  | zeroDivisionError | overflowError => [arithmeticError, exception]
  | notImplementedError => [runtimeError, exception]
  | blockingIOError | childProcessError | fileExistsError | fileNotFoundError | interruptedError
  | isADirectoryError | notADirectoryError | permissionError | processLookupError | timeoutError
  | connectionError => [osError, exception]
  | brokenPipeError | connectionAbortedError | connectionRefusedError
  | connectionResetError => [connectionError, osError, exception]
  | mismatchError | hardError => [parseError, exception]
  | incomplete | namedIncomplete | other => [hardError, parseError, exception]

def isA (self c : ErrorClass) : Bool := self == c || self.above.contains c

/-- The class of a failure of the operating system by the number of its error. -/
def ofSystemCode (code : Int) : ErrorClass :=
  if code = 1 ∨ code = 13 then permissionError
  else if code = 2 then fileNotFoundError
  else if code = 3 then processLookupError
  else if code = 4 then interruptedError
  else if code = 10 then childProcessError
  else if code = 11 ∨ code = 114 ∨ code = 115 then blockingIOError
  else if code = 17 then fileExistsError
  else if code = 20 then notADirectoryError
  else if code = 21 then isADirectoryError
  else if code = 32 ∨ code = 108 then brokenPipeError
  else if code = 103 then connectionAbortedError
  else if code = 104 then connectionResetError
  else if code = 110 then timeoutError
  else if code = 111 then connectionRefusedError
  else osError

end ErrorClass
end Backtrack
