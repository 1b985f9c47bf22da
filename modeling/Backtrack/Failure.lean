/-
Failures that end an evaluation. Those of the library's own classes carry what they report: where
a structure broke off, what was missing, which foreign error a conversion met. All others carry
the arguments they were made of.
-/
import Backtrack.Failure.Class
import Backtrack.Value.Display
import Backtrack.Value.Equality
namespace Backtrack

mutual

/-- A failure. `plain` is for the classes without fields of their own. A mismatch that is raised
carries the position where matching started, or the value none. -/
inductive Failure where
  | plain (cls : ErrorClass) (args : List Payload)
  | mismatchError (reason position : Value)
  | incomplete (position name : Value)
  | namedIncomplete (position name component : Value)
  | other (inner : Payload)

inductive Payload where
  | value (v : Value)
  | failure (f : Failure)

end

instance : Inhabited Failure := ⟨.plain .exception []⟩

namespace Failure

def withText (cls : ErrorClass) (t : Text) : Failure := plain cls [.value (.str t)]

def valueError (t : Text) : Failure := withText .valueError t
def typeError (t : Text) : Failure := withText .typeError t
def runtimeError (t : Text) : Failure := withText .runtimeError t

def cls : Failure → ErrorClass
  | plain c _ => c
  | mismatchError .. => .mismatchError
  | incomplete .. => .incomplete
  | namedIncomplete .. => .namedIncomplete
  | other _ => .other

def isA (f : Failure) (c : ErrorClass) : Bool := f.cls.isA c

/-- Whether no combinator may turn back from the failure. -/
def isHard (f : Failure) : Bool := f.isA .hardError

def reasonText : Value → Text
  | .namedMismatch .none => "mismatch"
  | .namedMismatch label => Text.concat ["mismatching ", label.text]
  | _ => "mismatch"

/-- Where a raised mismatch was met, if it tells. -/
def placeText : Value → Text
  | .none => []
  | position => Text.concat [" at ", position.text]

def mismatchText (reason position : Value) : Text := reasonText reason ++ placeText position

def incompleteText (position name : Value) : Text :=
  Text.concat ["incomplete ", name.text, " at ", position.text]

def namedIncompleteText (position name component : Value) : Text :=
  Text.concat [incompleteText position name, ", expecting ", component.text]

/-! ## Failures of the operating system -/

/-- Whether an argument behind number and text names a file: it is not the value none, and not a
count of what was written before the system would have had to wait. -/
def isFile (cls : ErrorClass) : Payload → Bool
  | .value .none => false
  | .value v => !(cls == .blockingIOError && v.number?.isSome)
  | .failure _ => true

/-- The names of the files, at most two, that the arguments behind number and text give, where
`shown` are these arguments as they are shown. -/
def files (cls : ErrorClass) (args : List Payload) (shown : List Text) : List Text :=
  match args, shown with
  | file :: rest, shownFile :: shownRest =>
    if isFile cls file then
      match rest, shownRest with
      | [_, .value .none], _ => [shownFile]
      | [_, _], [_, second] => [shownFile, second]
      | _, _ => [shownFile]
    else []
  | _, _ => []

/-- The text of a failure of the operating system from the texts of its number and its reason. -/
def systemText (code reason : Text) (files : List Text) : Text :=
  let place := if files.isEmpty then [] else Text.concat [": ", Text.join " -> " files]
  Text.concat ["[Errno ", code, "] ", reason, place]

/-- Whether a failure of a class with so many arguments is one of the operating system that tells
number and reason. -/
def isSystem (cls : ErrorClass) (count : Nat) : Bool :=
  cls.isA .osError && 2 ≤ count && count ≤ 5

/-- The arguments of a failure that its shown form has; the files of a failure of the operating
system are not among them. -/
def shownArguments (cls : ErrorClass) (args : List Payload) (shown : List Text) : List Text :=
  if isSystem cls args.length && !(files cls (args.drop 2) (shown.drop 2)).isEmpty then
    shown.take 2
  else shown

/-! ## Texts -/

def call (cls : ErrorClass) (shown : List Text) : Text := cls.name ++ Text.bracketed "(" ")" shown

mutual

/-- The text of a failure: that of a single argument, nothing for none, a tuple for several. A
missing key is shown rather than told, and one of the operating system gives number and reason. -/
def message : Failure → Text
  | plain _ [] => []
  | plain cls [arg] => if cls = .keyError then displayPayload arg else payloadText arg
  | plain cls (code :: reason :: rest) =>
    let shown := displayPayloads rest
    if isSystem cls (2 + rest.length) then
      systemText (payloadText code) (payloadText reason) (files cls rest shown)
    else Text.tupled (displayPayload code :: displayPayload reason :: shown)
  | mismatchError m p => mismatchText m p
  | incomplete p n => incompleteText p n
  | namedIncomplete p n c => namedIncompleteText p n c
  | other inner => payloadText inner

/-- The shown form of a failure: its class around its arguments; those of the library's own
classes have their text as the only one. -/
def display : Failure → Text
  | plain cls args => call cls (shownArguments cls args (displayPayloads args))
  | mismatchError m p => call .mismatchError [Text.quoted (mismatchText m p)]
  | incomplete p n => call .incomplete [Text.quoted (incompleteText p n)]
  | namedIncomplete p n c => call .namedIncomplete [Text.quoted (namedIncompleteText p n c)]
  | other inner => call .other [Text.quoted (payloadText inner)]

def payloadText : Payload → Text
  | .value v => v.text
  | .failure f => message f

def displayPayload : Payload → Text
  | .value v => v.display
  | .failure f => display f

def displayPayloads : List Payload → List Text
  | [] => []
  | p :: ps => displayPayload p :: displayPayloads ps

end

mutual

def isShowable : Failure → Bool
  | plain _ args => payloadsShowable args
  | mismatchError m p => m.isShowable && p.isShowable
  | incomplete p n => p.isShowable && n.isShowable
  | namedIncomplete p n c => p.isShowable && n.isShowable && c.isShowable
  | other inner => payloadShowable inner

def payloadShowable : Payload → Bool
  | .value v => v.isShowable
  | .failure f => isShowable f

def payloadsShowable : List Payload → Bool
  | [] => true
  | p :: ps => payloadShowable p && payloadsShowable ps

end

/-- Equality of failures: two that tell where a structure broke off are equal if they are of one
class and tell the same; any other failure equals nothing. -/
def eqv : Failure → Failure → Bool
  | incomplete p n, incomplete p' n' => p.alike p' && n.alike n'
  | namedIncomplete p n c, namedIncomplete p' n' c' => p.alike p' && n.alike n' && c.alike c'
  | _, _ => false

/-- Whether the failure can be a member of a set: its fields can, if it compares by them. -/
def hashable : Failure → Bool
  | incomplete p n => p.hashable && n.hashable
  | namedIncomplete p n c => p.hashable && n.hashable && c.hashable
  | _ => true

/-! ## Failures of operations on values -/

def notIterable (v : Value) : Failure :=
  typeError (Text.concat ["'", v.typeName, "' object is not iterable"])

def noLength (v : Value) : Failure :=
  typeError (Text.concat ["object of type '", v.typeName, "' has no len()"])

/-- Using an integer of more than 64 bits as an index or as a count of items. -/
def indexTooLarge (cls : ErrorClass) : Failure :=
  withText cls "cannot fit 'int' into an index-sized integer"

def lengthTooLarge : Failure :=
  withText .overflowError "Python int too large to convert to C ssize_t"

def noAttribute (typeName name : Text) : Failure :=
  withText .attributeError
    (Text.concat ["'", typeName, "' object has no attribute '", name, "'"])

def notSubscriptable (v : Value) : Failure :=
  typeError (Text.concat ["'", v.typeName, "' object is not subscriptable"])

/-- Cutting a slice out of a value that is no sequence. -/
def notSliceable : Value → Failure
  | .dictionary _ => typeError "unhashable type: 'slice'"
  | v => notSubscriptable v

def outOfMemory : Failure := plain .memoryError []

def tooLongToShow : Failure :=
  valueError (Text.concat ["Exceeds the limit (4300 digits) for integer string conversion; ",
    "use sys.set_int_max_str_digits() to increase the limit"])

/-- Hashing a view that can be written to. -/
def writableView : Failure := valueError "cannot hash writable memoryview object"

/-- Using a value that can change as a member of a set. -/
def unhashable : Value → Failure
  | .byteView _ => writableView
  | v => typeError (Text.concat ["unhashable type: '", v.typeName, "'"])

/-- The shown form of a failure, or the failure of showing an integer that is too long for it. -/
def shown (f : Failure) : Except Failure Text :=
  if f.isShowable then .ok f.display else .error tooLongToShow

end Failure

namespace Value

/-- The most items that a list can have; how much memory there is does not count. -/
def listLimit : Nat := (Nat.pow 2 63 - 1) / 8

/-- Why the items of a value cannot all be held at once, if they cannot. Only ranges can have so
many items without holding them. -/
def holdFailure? : Value → Option Failure
  | range start stop step =>
    let size := rangeSize start stop step
    if !isIndex size then some .lengthTooLarge
    else if listLimit < size then some .outOfMemory
    else Option.none
  | _ => Option.none

/-- All items of a value, or the failure of going through it. -/
def elements (v : Value) : Except Failure (List Value) :=
  match v.holdFailure? with
  | some f => .error f
  | Option.none =>
    match v.items? with
    | some items => .ok items
    | Option.none => .error (.notIterable v)

/-- The items of a value that are met by going through it one by one, without holding them. -/
def visited (v : Value) : Except Failure (List Value) :=
  match v with
  | range start stop step => .ok (rangeItems start step 0 (rangeSize start stop step))
  | _ => v.elements

/-- The length of a value, or the failure of asking for it. -/
def length (v : Value) : Except Failure Nat :=
  match v.length? with
  | some n => if v.countable then .ok n else .error .lengthTooLarge
  | Option.none => .error (.noLength v)

/-- Succeeds if the value can be a member of a set. -/
def requireHashable (v : Value) : Except Failure Unit :=
  match v.unhashable? with
  | some inner => .error (.unhashable inner)
  | Option.none => .ok ()

/-- Whether the value can be a member of a set, where only the failure of a type without hashes is
taken for a no: a writable view has a type with hashes, and refuses its own. -/
def hasHash (v : Value) : Except Failure Bool :=
  match v.requireHashable with
  | .ok () => .ok true
  | .error f => if f.isA .typeError then .ok false else .error f

/-- The shown form of a value, or the failure of showing an integer that is too long for it. -/
def shown (v : Value) : Except Failure Text :=
  if v.isShowable then .ok v.display else .error .tooLongToShow

end Value

end Backtrack
